import Mathlib.RingTheory.PowerSeries.NoZeroDivisors
import Mathlib.RingTheory.PowerSeries.Trunc
import Mathlib.Algebra.Polynomial.Derivative
import Mathlib.LinearAlgebra.Lagrange

/-! # The key equation of a sum of geometric sequences

A sequence `∑ amp p * x p ^ j` over finitely many points `p` satisfies a linear recurrence: its series times
the `locator`, whose roots are the inverses of the `x p`, is a polynomial, the `evaluator`. The first
`2 * card` terms of the sequence determine the locator, and locator and evaluator determine the amplitudes.
-/
namespace Foundations.KeyEquation
open Polynomial
set_option autoImplicit false

variable {F ι : Type} [Field F]

section
variable (P : Finset ι) (x amp : ι → F)

noncomputable def syndromes : PowerSeries F := PowerSeries.mk fun j => ∑ p ∈ P, amp p * x p ^ j

noncomputable def locator : F[X] := ∏ p ∈ P, (1 - C (x p) * X)

noncomputable def evaluator [DecidableEq ι] : F[X] := ∑ p ∈ P, C (amp p) * locator (P.erase p) x

end

theorem coeff_mul_eq_zero {f g : F[X]} {a b j : ℕ} (hf : f.natDegree ≤ a) (hg : ∀ i, b ≤ i → g.coeff i = 0)
    (hj : a + b ≤ j) : (f * g).coeff j = 0 := by
  rw [coeff_mul]
  apply Finset.sum_eq_zero
  rintro ⟨i, k⟩ hik
  have hik : i + k = j := Finset.HasAntidiagonal.mem_antidiagonal.mp hik
  by_cases hi : f.natDegree < i
  · rw [coeff_eq_zero_of_natDegree_lt hi, zero_mul]
  · rw [hg k (by omega), mul_zero]

section
variable {P : Finset ι} {x amp : ι → F} {p : ι}

theorem natDegree_locator_le (P : Finset ι) (x : ι → F) : (locator P x).natDegree ≤ P.card := by
  have hfactor : ∀ p ∈ P, (1 - C (x p) * X : F[X]).natDegree ≤ 1 := by
    intro p _
    apply (natDegree_sub_le _ _).trans
    rw [natDegree_one]
    exact max_le (by omega) ((natDegree_C_mul_le _ _).trans natDegree_X_le)
  apply (natDegree_prod_le _ _).trans
  simpa using Finset.sum_le_card_nsmul P _ 1 hfactor

theorem coeff_zero_locator (P : Finset ι) (x : ι → F) : (locator P x).coeff 0 = 1 := by
  rw [coeff_zero_eq_eval_zero, locator, eval_prod]
  apply Finset.prod_eq_one
  intro p _
  simp

theorem locator_eval_eq_zero_iff {z : F} : (locator P x).eval z = 0 ↔ ∃ p ∈ P, x p * z = 1 := by
  rw [locator, eval_prod, Finset.prod_eq_zero_iff]
  apply exists_congr
  intro p
  rw [eval_sub, eval_one, eval_mul, eval_C, eval_X, sub_eq_zero]
  exact and_congr_right fun _ => eq_comm

variable [DecidableEq ι]

theorem locator_eq_mul_erase (hp : p ∈ P) : locator P x = (1 - C (x p) * X) * locator (P.erase p) x :=
  (Finset.mul_prod_erase P (fun p => 1 - C (x p) * X) hp).symm

theorem evaluator_coeff_eq_zero {n : ℕ} (hn : P.card ≤ n) : (evaluator P x amp).coeff n = 0 := by
  rw [evaluator, finsetSum_coeff]
  apply Finset.sum_eq_zero
  intro p hp
  have hdeg : (locator (P.erase p) x).natDegree < n := by
    have h := natDegree_locator_le (P.erase p) x
    have hcard := Finset.card_erase_lt_of_mem hp
    omega
  rw [coeff_C_mul, coeff_eq_zero_of_natDegree_lt hdeg, mul_zero]

/-! ## The equation -/

theorem geometric_eq (a : F) :
    ((1 - C a * X : F[X]) : PowerSeries F) * PowerSeries.mk (fun j => a ^ j) = 1 := by
  ext n
  have hcast : ((1 - C a * X : F[X]) : PowerSeries F) = 1 - PowerSeries.C a * PowerSeries.X := by
    simp
  rw [hcast, sub_mul, one_mul, mul_assoc, map_sub, PowerSeries.coeff_mk, PowerSeries.coeff_C_mul]
  cases n with
  | zero => simp
  | succ n =>
    rw [PowerSeries.coeff_succ_X_mul, PowerSeries.coeff_mk, pow_succ']
    simp

omit [DecidableEq ι] in
theorem syndromes_eq_sum (P : Finset ι) (x amp : ι → F) :
    syndromes P x amp = ∑ p ∈ P, PowerSeries.C (amp p) * PowerSeries.mk (fun j => x p ^ j) := by
  ext n
  rw [syndromes, PowerSeries.coeff_mk, map_sum]
  apply Finset.sum_congr rfl
  intro p _
  rw [PowerSeries.coeff_C_mul, PowerSeries.coeff_mk]

theorem key_equation (P : Finset ι) (x amp : ι → F) :
    (locator P x : PowerSeries F) * syndromes P x amp = (evaluator P x amp : PowerSeries F) := by
  have hsum : (evaluator P x amp : PowerSeries F) =
      ∑ p ∈ P, PowerSeries.C (amp p) * (locator (P.erase p) x : PowerSeries F) := by
    rw [evaluator, ← coeToPowerSeries.ringHom_apply, map_sum]
    apply Finset.sum_congr rfl
    intro p _
    simp
  rw [hsum, syndromes_eq_sum, Finset.mul_sum]
  apply Finset.sum_congr rfl
  intro p hp
  calc (locator P x : PowerSeries F) * (PowerSeries.C (amp p) * PowerSeries.mk fun j => x p ^ j)
      = PowerSeries.C (amp p) * (locator (P.erase p) x : PowerSeries F) *
          (((1 - C (x p) * X : F[X]) : PowerSeries F) * PowerSeries.mk fun j => x p ^ j) := by
        rw [locator_eq_mul_erase hp, coe_mul]
        ring
    _ = PowerSeries.C (amp p) * (locator (P.erase p) x : PowerSeries F) := by
        rw [geometric_eq, mul_one]

/-! ## Roots, and the amplitudes from them -/

theorem locator_eval_inv (hp : p ∈ P) (hx : x p ≠ 0) : (locator P x).eval (x p)⁻¹ = 0 := by
  rw [locator_eq_mul_erase hp, eval_mul]
  simp [hx]

theorem locator_erase_eval_ne_zero (hinj : Set.InjOn x P) (hp : p ∈ P) (hx : x p ≠ 0) :
    (locator (P.erase p) x).eval (x p)⁻¹ ≠ 0 := by
  rw [Ne, locator_eval_eq_zero_iff]
  rintro ⟨q, hq, hroot⟩
  have hq' := Finset.mem_erase.mp hq
  exact hq'.1 (hinj hq'.2 hp ((mul_inv_eq_one₀ hx).mp hroot))

theorem evaluator_eval_inv (hp : p ∈ P) (hx : x p ≠ 0) :
    (evaluator P x amp).eval (x p)⁻¹ = amp p * (locator (P.erase p) x).eval (x p)⁻¹ := by
  rw [evaluator, eval_finsetSum, Finset.sum_eq_single p]
  · rw [eval_mul, eval_C]
  · intro q _ hqp
    have hroot := locator_eval_inv (Finset.mem_erase.mpr ⟨hqp.symm, hp⟩ : p ∈ P.erase q) hx
    rw [eval_mul, hroot, mul_zero]
  · exact fun h => absurd hp h

theorem evaluator_eval_ne_zero (hinj : Set.InjOn x P) (hp : p ∈ P) (hx : x p ≠ 0) (hamp : amp p ≠ 0) :
    (evaluator P x amp).eval (x p)⁻¹ ≠ 0 := by
  rw [evaluator_eval_inv hp hx]
  exact mul_ne_zero hamp (locator_erase_eval_ne_zero hinj hp hx)

theorem derivative_locator_eval_inv (hp : p ∈ P) (hx : x p ≠ 0) :
    (derivative (locator P x)).eval (x p)⁻¹ = -x p * (locator (P.erase p) x).eval (x p)⁻¹ := by
  rw [locator_eq_mul_erase hp, derivative_mul]
  simp [hx]

end

/-- Fewer points than leading zeros of the sequence: there are no points. -/
theorem eq_empty_of_syndromes_zero [DecidableEq ι] {P : Finset ι} {x amp : ι → F} {n : ℕ} (hP : P.card ≤ n)
    (hzero : ∀ j < n, PowerSeries.coeff j (syndromes P x amp) = 0) (hinj : Set.InjOn x P)
    (hx : ∀ p ∈ P, x p ≠ 0) (hamp : ∀ p ∈ P, amp p ≠ 0) : P = ∅ := by
  have hcoeff : ∀ j, (evaluator P x amp).coeff j = 0 := by
    intro j
    by_cases hj : P.card ≤ j
    · exact evaluator_coeff_eq_zero hj
    · rw [← coeff_coe, ← key_equation, PowerSeries.coeff_mul]
      apply Finset.sum_eq_zero
      rintro ⟨i, k⟩ hik
      have hik : i + k = j := Finset.HasAntidiagonal.mem_antidiagonal.mp hik
      rw [hzero k (by omega), mul_zero]
  apply Finset.eq_empty_of_forall_notMem
  intro p hp
  have heval : (evaluator P x amp).eval (x p)⁻¹ = 0 := by
    rw [show evaluator P x amp = 0 from Polynomial.ext hcoeff, eval_zero]
  exact evaluator_eval_ne_zero hinj hp (hx p hp) (hamp p hp) heval

/-! ## Short recurrences -/

section
variable [DecidableEq ι] {P : Finset ι} {x amp : ι → F}

/-- `conn` is a recurrence of this length for the terms of the series below `n`. -/
def Generates (S : PowerSeries F) (conn : F[X]) (len n : ℕ) : Prop :=
  ∀ j, len ≤ j → j < n → PowerSeries.coeff j ((conn : PowerSeries F) * S) = 0

/-- A recurrence that fails on the next term is too short by so much. -/
theorem card_ge_of_failing {conn : F[X]} {len n : ℕ} (hlen : conn.natDegree ≤ len)
    (hgen : Generates (syndromes P x amp) conn len n)
    (hfail : PowerSeries.coeff n ((conn : PowerSeries F) * syndromes P x amp) ≠ 0) : n + 1 ≤ len + P.card := by
  by_contra hlt
  apply hfail
  -- The coefficient `n` of `locator * conn * syndromes = conn * evaluator`, computed in both orders.
  have hsplit : (locator P x : PowerSeries F) * ((conn : PowerSeries F) * syndromes P x amp) =
      ((conn * evaluator P x amp : F[X]) : PowerSeries F) := by
    rw [coe_mul, ← key_equation]
    ring
  have hcoeff := congrArg (PowerSeries.coeff n) hsplit
  rw [PowerSeries.coeff_mul, coeff_coe, coeff_mul, Finset.sum_eq_single (0, n)] at hcoeff
  · rw [coeff_coe, coeff_zero_locator, one_mul] at hcoeff
    rw [hcoeff, ← coeff_mul]
    exact coeff_mul_eq_zero hlen (fun i => evaluator_coeff_eq_zero) (by omega)
  · rintro ⟨i, j⟩ hij hne
    have hij : i + j = n := Finset.HasAntidiagonal.mem_antidiagonal.mp hij
    by_cases hj : len ≤ j
    · rw [hgen j hj (by by_contra; exact hne (by simp; omega)), mul_zero]
    · have hdeg : (locator P x).natDegree < i := by
        have h := natDegree_locator_le P x
        omega
      rw [coeff_coe, coeff_eq_zero_of_natDegree_lt hdeg, zero_mul]
  · exact fun h => absurd (Finset.HasAntidiagonal.mem_antidiagonal.mpr (Nat.zero_add n)) h

/-- A recurrence for `2 * card` terms that is no longer than the locator holds for the whole series. -/
theorem mul_syndromes_eq_trunc {conn : F[X]} {len n : ℕ} (hlen : conn.natDegree ≤ len) (hcard : len ≤ P.card)
    (hn : 2 * P.card ≤ n) (hgen : Generates (syndromes P x amp) conn len n) :
    (conn : PowerSeries F) * syndromes P x amp =
      (PowerSeries.trunc len ((conn : PowerSeries F) * syndromes P x amp) : PowerSeries F) := by
  let S := (conn : PowerSeries F) * syndromes P x amp
  let head := PowerSeries.trunc len S
  have hhead : ∀ j, len ≤ j → head.coeff j = 0 := by
    intro j hj
    rw [PowerSeries.coeff_trunc, if_neg (by omega)]
  -- The rest starts at `n`, but its product with the locator ends before `n`.
  have hrest : ∀ j, j < n → PowerSeries.coeff j (S - (head : PowerSeries F)) = 0 := by
    intro j hj
    rw [map_sub, coeff_coe, PowerSeries.coeff_trunc]
    by_cases hjl : j < len
    · rw [if_pos hjl, sub_self]
    · rw [if_neg hjl, sub_zero]
      exact hgen j (by omega) hj
  have hprod : (locator P x : PowerSeries F) * (S - (head : PowerSeries F)) =
      ((conn * evaluator P x amp - locator P x * head : F[X]) : PowerSeries F) := by
    rw [coe_sub, coe_mul, coe_mul, ← key_equation, mul_sub]
    ring
  have hzero : (locator P x : PowerSeries F) * (S - (head : PowerSeries F)) = 0 := by
    ext j
    rw [map_zero]
    by_cases hj : j < n
    · rw [PowerSeries.coeff_mul]
      apply Finset.sum_eq_zero
      rintro ⟨i, k⟩ hik
      have hik : i + k = j := Finset.HasAntidiagonal.mem_antidiagonal.mp hik
      rw [hrest k (by omega), mul_zero]
    · rw [hprod, coeff_coe, coeff_sub, coeff_mul_eq_zero hlen (fun i => evaluator_coeff_eq_zero) (by omega),
        coeff_mul_eq_zero (natDegree_locator_le P x) hhead (by omega), sub_zero]
  have hloc : (locator P x : PowerSeries F) ≠ 0 := by
    intro h
    have hone := congrArg (PowerSeries.coeff 0) h
    rw [coeff_coe, coeff_zero_locator, map_zero] at hone
    exact one_ne_zero hone
  exact sub_eq_zero.mp ((mul_eq_zero.mp hzero).resolve_left hloc)

theorem eval_inv_of_generates {conn : F[X]} {len n : ℕ} (hlen : conn.natDegree ≤ len) (hcard : len ≤ P.card)
    (hn : 2 * P.card ≤ n) (hgen : Generates (syndromes P x amp) conn len n) (hinj : Set.InjOn x P)
    {p : ι} (hp : p ∈ P) (hx : x p ≠ 0) (hamp : amp p ≠ 0) : conn.eval (x p)⁻¹ = 0 := by
  have hwhole := mul_syndromes_eq_trunc hlen hcard hn hgen
  have hcross : conn * evaluator P x amp =
      locator P x * PowerSeries.trunc len ((conn : PowerSeries F) * syndromes P x amp) := by
    apply coe_injective F
    rw [coe_mul, coe_mul, ← hwhole, ← key_equation]
    ring
  have heval := congrArg (eval (x p)⁻¹) hcross
  rw [eval_mul, eval_mul, locator_eval_inv hp hx, zero_mul] at heval
  exact (mul_eq_zero.mp heval).resolve_right (evaluator_eval_ne_zero hinj hp hx hamp)

/-- The locator is the only short recurrence for `2 * card` terms. -/
theorem eq_locator {conn : F[X]} {len n : ℕ} (hlen : conn.natDegree ≤ len) (hone : conn.coeff 0 = 1)
    (hcard : len ≤ P.card) (hn : 2 * P.card ≤ n) (hgen : Generates (syndromes P x amp) conn len n)
    (hinj : Set.InjOn x P) (hx : ∀ p ∈ P, x p ≠ 0) (hamp : ∀ p ∈ P, amp p ≠ 0) : conn = locator P x := by
  classical
  -- Both have these `card + 1` values in common, and degree at most `card`.
  let points : Finset F := insert 0 (P.image fun p => (x p)⁻¹)
  have hpoints : points.card = P.card + 1 := by
    have himage : (P.image fun p => (x p)⁻¹).card = P.card :=
      Finset.card_image_of_injOn fun p hp q hq h => hinj hp hq (inv_injective h)
    rw [Finset.card_insert_of_notMem, himage]
    intro h
    obtain ⟨p, hp, hzero⟩ := Finset.mem_image.mp h
    exact hx p hp (inv_eq_zero.mp hzero)
  apply eq_of_degree_sub_lt_of_eval_finset_eq points
  · apply lt_of_le_of_lt degree_le_natDegree
    rw [hpoints]
    have h := natDegree_sub_le conn (locator P x)
    have hloc := natDegree_locator_le P x
    have hmax : max conn.natDegree (locator P x).natDegree ≤ P.card := max_le (by omega) hloc
    exact_mod_cast Nat.lt_succ_of_le (h.trans hmax)
  · intro z hz
    rcases Finset.mem_insert.mp hz with rfl | hz
    · rw [← coeff_zero_eq_eval_zero, ← coeff_zero_eq_eval_zero, hone, coeff_zero_locator]
    · obtain ⟨p, hp, rfl⟩ := Finset.mem_image.mp hz
      rw [eval_inv_of_generates hlen hcard hn hgen hinj hp (hx p hp) (hamp p hp),
        locator_eval_inv hp (hx p hp)]

end

end Foundations.KeyEquation
