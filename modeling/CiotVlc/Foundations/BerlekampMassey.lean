import CiotVlc.Foundations.KeyEquation

/-! # The Berlekamp-Massey algorithm

A register holds the recurrence found so far and an auxiliary one that failed on the last term it was tried
on. `Tracks` is the invariant of the algorithm; on the syndromes of at most `n / 2` points the run over `n`
terms ends with the locator. On a series that vanishes from term `n / 2` on it ends with `1`, whatever the terms
in front are.
-/
namespace Foundations.BerlekampMassey
open Polynomial Foundations.KeyEquation
set_option autoImplicit false

variable {F : Type} [Field F]

structure Register (F : Type) [Field F] where
  conn : F[X]
  aux : F[X]
  len : ℕ

noncomputable def Register.start : Register F := { conn := 1, aux := 1, len := 0 }

/-- What the recurrence predicts wrongly for term `n`. -/
noncomputable def discrepancy (S : PowerSeries F) (conn : F[X]) (n : ℕ) : F :=
  PowerSeries.coeff n ((conn : PowerSeries F) * S)

section
variable [DecidableEq F]

noncomputable def Register.step (S : PowerSeries F) (r : Register F) (n : ℕ) : Register F :=
  let discr := discrepancy S r.conn n
  if discr = 0 then { r with aux := X * r.aux }
  else if 2 * r.len ≤ n then
    { conn := r.conn - C discr * (X * r.aux), aux := C discr⁻¹ * r.conn, len := n + 1 - r.len }
  else { r with conn := r.conn - C discr * (X * r.aux), aux := X * r.aux }

noncomputable def Register.run (S : PowerSeries F) : ℕ → Register F
  | 0 => Register.start
  | n + 1 => (Register.run S n).step S n

end

/-! ## The invariant -/

structure Tracks (S : PowerSeries F) (n : ℕ) (r : Register F) : Prop where
  head : r.conn.coeff 0 = 1
  degree : r.conn.natDegree ≤ r.len
  generates : Generates S r.conn r.len n
  auxDegree : r.aux.natDegree + r.len ≤ n
  auxFails : ∀ j, n ≤ j + r.len → j < n →
    PowerSeries.coeff j ((r.aux : PowerSeries F) * S) = if j + 1 = n then 1 else 0

section
variable {S : PowerSeries F} {n : ℕ} {r : Register F}

theorem start_tracks (S : PowerSeries F) : Tracks S 0 (Register.start : Register F) where
  head := by simp [Register.start]
  degree := by simp [Register.start]
  generates := fun j _ hj => absurd hj (Nat.not_lt_zero j)
  auxDegree := by simp [Register.start]
  auxFails := fun j _ hj => absurd hj (Nat.not_lt_zero j)

theorem coeff_X_mul_succ (S : PowerSeries F) (aux : F[X]) (j : ℕ) :
    PowerSeries.coeff (j + 1) (((X * aux : F[X]) : PowerSeries F) * S) =
      PowerSeries.coeff j ((aux : PowerSeries F) * S) := by
  rw [coe_mul, coe_X, mul_assoc, PowerSeries.coeff_succ_X_mul]

theorem natDegree_X_mul_le (aux : F[X]) : (X * aux).natDegree ≤ aux.natDegree + 1 := by
  have h := natDegree_mul_le (p := X) (q := aux)
  have hX : (X : F[X]).natDegree ≤ 1 := natDegree_X_le
  omega

/-- The auxiliary recurrence moved on by one term. -/
theorem Tracks.shift (h : Tracks S n r) : (X * r.aux).natDegree + r.len ≤ n + 1 ∧
    ∀ j, n + 1 ≤ j + r.len → j < n + 1 →
      PowerSeries.coeff j (((X * r.aux : F[X]) : PowerSeries F) * S) = if j + 1 = n + 1 then 1 else 0 := by
  have hdegree := h.auxDegree
  refine ⟨by have := natDegree_X_mul_le r.aux; omega, ?_⟩
  intro j hj hlt
  obtain ⟨i, rfl⟩ : ∃ i, j = i + 1 := ⟨j - 1, by omega⟩
  rw [coeff_X_mul_succ, h.auxFails i (by omega) (by omega)]
  simp only [Nat.add_right_cancel_iff]

/-! ## The corrected recurrence -/

theorem corrected_coeff (S : PowerSeries F) (conn aux : F[X]) (d : F) (j : ℕ) :
    PowerSeries.coeff j (((conn - C d * (X * aux) : F[X]) : PowerSeries F) * S) =
      PowerSeries.coeff j ((conn : PowerSeries F) * S) -
        d * PowerSeries.coeff j (((X * aux : F[X]) : PowerSeries F) * S) := by
  rw [coe_sub, sub_mul, map_sub, coe_mul (C d), coe_C, mul_assoc, PowerSeries.coeff_C_mul]

theorem Tracks.corrected_head (h : Tracks S n r) (d : F) : (r.conn - C d * (X * r.aux)).coeff 0 = 1 := by
  rw [coeff_sub, h.head, coeff_C_mul, coeff_X_mul_zero, mul_zero, sub_zero]

theorem Tracks.corrected_degree (h : Tracks S n r) (d : F) {len : ℕ} (hlen : r.len ≤ len)
    (hn : n + 1 ≤ len + r.len) : (r.conn - C d * (X * r.aux)).natDegree ≤ len := by
  have hdegree := h.degree
  have haux := h.shift.1
  have hscaled : (C d * (X * r.aux)).natDegree ≤ (X * r.aux).natDegree := natDegree_C_mul_le _ _
  apply (natDegree_sub_le _ _).trans
  apply max_le <;> omega

theorem Tracks.corrected_generates (h : Tracks S n r) {len : ℕ} (hlen : r.len ≤ len)
    (hn : n + 1 ≤ len + r.len) :
    Generates S (r.conn - C (discrepancy S r.conn n) * (X * r.aux)) len (n + 1) := by
  intro j hj hlt
  rw [corrected_coeff, h.shift.2 j (by omega) hlt]
  by_cases hjn : j = n
  · subst hjn
    simp [discrepancy]
  · rw [h.generates j (by omega) (by omega), if_neg (by omega), mul_zero, sub_zero]

/-! ## Steps and runs -/

section
variable [DecidableEq F]

theorem Tracks.step (h : Tracks S n r) : Tracks S (n + 1) (r.step S n) := by
  have hdegree := h.auxDegree
  unfold Register.step
  dsimp only
  split
  case isTrue hzero =>
    refine ⟨h.head, h.degree, ?_, h.shift.1, h.shift.2⟩
    intro j hj hlt
    by_cases hjn : j = n
    · subst hjn
      exact hzero
    · exact h.generates j hj (by omega)
  case isFalse hne =>
    split
    case isTrue hshort =>
      -- The recurrence that fails now becomes the auxiliary one.
      have hlen : r.len ≤ n + 1 - r.len := by omega
      have hn : n + 1 ≤ n + 1 - r.len + r.len := by omega
      refine ⟨h.corrected_head _, h.corrected_degree _ hlen hn, h.corrected_generates hlen hn, ?_, ?_⟩
      · have hscaled : (C (discrepancy S r.conn n)⁻¹ * r.conn).natDegree ≤ r.conn.natDegree :=
          natDegree_C_mul_le _ _
        have hconn := h.degree
        dsimp only
        omega
      · intro j hj hlt
        dsimp only at hj ⊢
        rw [coe_mul, coe_C, mul_assoc, PowerSeries.coeff_C_mul]
        by_cases hjn : j = n
        · subst hjn
          rw [if_pos rfl]
          exact inv_mul_cancel₀ hne
        · rw [h.generates j (by omega) (by omega), if_neg (by omega), mul_zero]
    case isFalse hlong =>
      have hn : n + 1 ≤ r.len + r.len := by omega
      exact ⟨h.corrected_head _, h.corrected_degree _ le_rfl hn, h.corrected_generates le_rfl hn, h.shift.1,
        h.shift.2⟩

theorem run_tracks (S : PowerSeries F) (n : ℕ) : Tracks S n (Register.run S n) := by
  induction n with
  | zero => exact start_tracks S
  | succ n ih => exact ih.step

/-! ## On syndromes -/

variable {ι : Type} [DecidableEq ι] {P : Finset ι} {x amp : ι → F}

theorem run_len_le (P : Finset ι) (x amp : ι → F) (n : ℕ) :
    (Register.run (syndromes P x amp) n).len ≤ P.card := by
  induction n with
  | zero => exact Nat.zero_le _
  | succ n ih =>
    have htracks := run_tracks (syndromes P x amp) n
    rw [Register.run, Register.step]
    split
    · exact ih
    · next hne =>
      have hfail := card_ge_of_failing htracks.degree htracks.generates hne
      split
      · dsimp only
        omega
      · exact ih

theorem run_eq_locator {n : ℕ} (hn : 2 * P.card ≤ n) (hinj : Set.InjOn x P) (hx : ∀ p ∈ P, x p ≠ 0)
    (hamp : ∀ p ∈ P, amp p ≠ 0) : (Register.run (syndromes P x amp) n).conn = locator P x := by
  have htracks := run_tracks (syndromes P x amp) n
  exact eq_locator htracks.degree htracks.head (run_len_le P x amp n) hn htracks.generates hinj hx hamp

/-! ## On a series that vanishes early -/

omit [DecidableEq F] in
theorem coeff_mul_eq_zero_of_vanishing {conn : F[X]} {len m j : ℕ} (hlen : conn.natDegree ≤ len)
    (hS : ∀ i, m ≤ i → i ≤ j → PowerSeries.coeff i S = 0) (hj : len + m ≤ j) :
    PowerSeries.coeff j ((conn : PowerSeries F) * S) = 0 := by
  rw [PowerSeries.coeff_mul]
  apply Finset.sum_eq_zero
  rintro ⟨a, b⟩ hab
  have hab : a + b = j := Finset.HasAntidiagonal.mem_antidiagonal.mp hab
  by_cases hb : m ≤ b
  · rw [hS b hb (by omega), mul_zero]
  · rw [coeff_coe, coeff_eq_zero_of_natDegree_lt (by omega), zero_mul]

theorem run_len_le_of_vanishing {m : ℕ} (hS : ∀ i, m ≤ i → i < n → PowerSeries.coeff i S = 0) {k : ℕ}
    (hk : k ≤ n) : (Register.run S k).len ≤ m := by
  induction k with
  | zero => exact Nat.zero_le m
  | succ k ih =>
    have hle := ih (by omega)
    have htracks := run_tracks S k
    rw [Register.run, Register.step]
    split
    · exact hle
    · next hne =>
      split
      · have hlt : k < (Register.run S k).len + m := by
          by_contra hge
          exact hne (coeff_mul_eq_zero_of_vanishing htracks.degree (fun i hi hik => hS i hi (by omega)) (by omega))
        dsimp only
        omega
      · exact hle

/-- The run over a series of which no term in the second half is left ends with the constant recurrence. -/
theorem run_eq_one {m : ℕ} (hm : 2 * m ≤ n) (hS : ∀ i, m ≤ i → i < n → PowerSeries.coeff i S = 0) :
    (Register.run S n).conn = 1 := by
  induction m with
  | zero =>
    have htracks := run_tracks S n
    have hlen := run_len_le_of_vanishing hS le_rfl
    have hdegree := htracks.degree
    rw [eq_C_of_natDegree_eq_zero (p := (Register.run S n).conn) (by omega), htracks.head, C_1]
  | succ m ih =>
    by_cases hlast : PowerSeries.coeff m S = 0
    · refine ih (by omega) fun i hi hin => ?_
      rcases Nat.eq_or_lt_of_le hi with rfl | hlt
      · exact hlast
      · exact hS i hlt hin
    · -- The product of the two leading terms is a term that the recurrence has to cancel.
      have htracks := run_tracks S n
      have hlen := run_len_le_of_vanishing hS le_rfl
      generalize Register.run S n = r at htracks hlen
      have hdegree := htracks.degree
      have hconst : r.conn.natDegree = 0 := by
        by_contra hpos
        have hcancel := htracks.generates (r.conn.natDegree + m) (by omega) (by omega)
        rw [PowerSeries.coeff_mul, Finset.sum_eq_single (r.conn.natDegree, m)] at hcancel
        · rw [coeff_coe] at hcancel
          have hlead : r.conn.leadingCoeff = 0 := (mul_eq_zero.mp hcancel).resolve_right hlast
          rw [leadingCoeff_eq_zero.mp hlead, natDegree_zero] at hpos
          exact hpos rfl
        · rintro ⟨a, b⟩ hab hne
          have hab : a + b = r.conn.natDegree + m := Finset.HasAntidiagonal.mem_antidiagonal.mp hab
          rcases Nat.lt_trichotomy b m with hb | rfl | hb
          · rw [coeff_coe, coeff_eq_zero_of_natDegree_lt (by omega), zero_mul]
          · obtain rfl : a = r.conn.natDegree := by omega
            exact absurd rfl hne
          · rw [hS b hb (by omega), mul_zero]
        · intro h
          exact absurd (Finset.HasAntidiagonal.mem_antidiagonal.mpr (show r.conn.natDegree + m = r.conn.natDegree + m from rfl)) h
      rw [eq_C_of_natDegree_eq_zero hconst, htracks.head, C_1]

end

end

end Foundations.BerlekampMassey
