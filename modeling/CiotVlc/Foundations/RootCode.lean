import CiotVlc.Foundations.KeyEquation
import CiotVlc.Foundations.BlockCode
import Mathlib.Data.List.GetD
import Mathlib.LinearAlgebra.FiniteDimensional.Lemmas

/-! # Codes given by consecutive roots

A word is read as a polynomial, highest coefficient first; a code word vanishes at `n` consecutive powers of
an element `β`. The values of a received word there are the first terms of a sum of geometric sequences, one
for each wrong position; in particular two code words differ in more than `n` positions.
-/
namespace Foundations.RootCode
open Foundations.KeyEquation Foundations.BlockCode
set_option autoImplicit false

variable {F : Type} [Field F]

/-- Horner's rule. -/
def evalWord (c : List F) (z : F) : F := c.foldl (fun acc d => acc * z + d) 0

theorem evalWord_concat (c : List F) (d z : F) : evalWord (c ++ [d]) z = evalWord c z * z + d := by
  rw [evalWord, List.foldl_append]
  rfl

theorem getD_append_left {c : List F} {p : ℕ} (hp : p < c.length) (d : List F) :
    (c ++ d).getD p 0 = c.getD p 0 := by
  rw [List.getD_append _ _ _ _ hp]

theorem evalWord_eq_sum (c : List F) (z : F) :
    evalWord c z = ∑ p ∈ Finset.range c.length, c.getD p 0 * z ^ (c.length - 1 - p) := by
  induction c using List.reverseRecOn with
  | nil => rfl
  | append_singleton c d ih =>
    rw [evalWord_concat, ih, List.length_append, List.length_singleton, Finset.sum_range_succ, Finset.sum_mul]
    congr 1
    · apply Finset.sum_congr rfl
      intro p hp
      have hp : p < c.length := Finset.mem_range.mp hp
      rw [getD_append_left hp, mul_assoc, ← pow_succ]
      congr 2
      omega
    · rw [List.getD_append_right _ _ _ _ le_rfl, Nat.add_sub_cancel, Nat.sub_self, pow_zero, mul_one]
      rfl

theorem evalWord_append (c d : List F) (z : F) :
    evalWord (c ++ d) z = evalWord c z * z ^ d.length + evalWord d z := by
  induction d using List.reverseRecOn with
  | nil => simp [evalWord]
  | append_singleton d e ih =>
    rw [← List.append_assoc, evalWord_concat, evalWord_concat, ih, List.length_append, List.length_singleton, pow_succ]
    ring

/-! ## Wrong positions -/

section
variable [DecidableEq F]

def wrongAt (c c' : List F) : Finset ℕ := {p ∈ Finset.range c.length | c.getD p 0 ≠ c'.getD p 0}

theorem mem_wrongAt {c c' : List F} {p : ℕ} :
    p ∈ wrongAt c c' ↔ p < c.length ∧ c.getD p 0 ≠ c'.getD p 0 := by
  rw [wrongAt, Finset.mem_filter, Finset.mem_range]

theorem card_wrongAt {c c' : List F} (h : c.length = c'.length) : (wrongAt c c').card = wrongSymbols c c' := by
  induction c generalizing c' with
  | nil => rfl
  | cons x c ih =>
    obtain ⟨y, c', rfl⟩ : ∃ y d, c' = y :: d := List.exists_cons_of_ne_nil (by
      rintro rfl
      exact Nat.succ_ne_zero _ h)
    have ih := ih (Nat.succ_injective h)
    rw [wrongAt, Finset.card_filter] at ih ⊢
    rw [List.length_cons, Finset.sum_range_succ', wrongSymbols, ← ih, Nat.add_comm]
    congr 1
    simp only [List.getD_cons_zero, ne_eq, ite_not]

theorem eq_of_wrongAt_eq_empty {c c' : List F} (h : c.length = c'.length) (hempty : wrongAt c c' = ∅) : c = c' := by
  apply List.ext_getElem h
  intro p hp hp'
  have hnot : p ∉ wrongAt c c' := by
    rw [hempty]
    exact Finset.notMem_empty p
  rw [mem_wrongAt, not_and_not_right] at hnot
  have heq := hnot hp
  rwa [List.getD_eq_getElem _ _ hp, List.getD_eq_getElem _ _ hp'] at heq

/-! ## Syndromes -/

/-- The locator of a position and the amplitude of the error there. -/
def position (β : F) (len p : ℕ) : F := β ^ (len - 1 - p)

def amplitude (β : F) (fcr : ℕ) (c c' : List F) (p : ℕ) : F :=
  (c'.getD p 0 - c.getD p 0) * position β c.length p ^ fcr

variable {β : F} {c c' : List F}

theorem evalWord_sub (fcr : ℕ) (hlen : c.length = c'.length) (i : ℕ) :
    evalWord c' (β ^ (fcr + i)) - evalWord c (β ^ (fcr + i)) =
      PowerSeries.coeff i (syndromes (wrongAt c c') (position β c.length) (amplitude β fcr c c')) := by
  rw [evalWord_eq_sum, evalWord_eq_sum, ← hlen, ← Finset.sum_sub_distrib, syndromes, PowerSeries.coeff_mk, wrongAt,
    Finset.sum_filter]
  apply Finset.sum_congr rfl
  intro p _
  have hpow : (β ^ (fcr + i)) ^ (c.length - 1 - p) =
      position β c.length p ^ fcr * position β c.length p ^ i := by
    rw [position, ← pow_add, ← pow_mul, ← pow_mul, Nat.mul_comm]
  split
  case isTrue hne =>
    rw [hpow, amplitude]
    ring
  case isFalse heq =>
    rw [not_ne_iff.mp heq, sub_self]

theorem amplitude_ne_zero (fcr : ℕ) (hβ : β ≠ 0) {p : ℕ} (hp : p ∈ wrongAt c c') : amplitude β fcr c c' p ≠ 0 := by
  have hne := (mem_wrongAt.mp hp).2
  exact mul_ne_zero (sub_ne_zero.mpr hne.symm) (pow_ne_zero _ (pow_ne_zero _ hβ))

omit [DecidableEq F] in
theorem position_ne_zero (hβ : β ≠ 0) (len p : ℕ) : position β len p ≠ 0 := pow_ne_zero _ hβ

theorem position_injOn (hβ : Set.InjOn (fun e => β ^ e) (Set.Iio c.length)) :
    Set.InjOn (position β c.length) (wrongAt c c') := by
  intro p hp q hq h
  have hp := (mem_wrongAt.mp hp).1
  have hq := (mem_wrongAt.mp hq).1
  have hexp : c.length - 1 - p = c.length - 1 - q :=
    hβ (Set.mem_Iio.mpr (by omega)) (Set.mem_Iio.mpr (by omega)) h
  omega

/-- Words with the same values at `n` consecutive powers differ in more than `n` positions. -/
theorem distance (fcr : ℕ) {n : ℕ} (hβ0 : β ≠ 0) (hβ : Set.InjOn (fun e => β ^ e) (Set.Iio c.length))
    (hlen : c.length = c'.length) (hn : wrongSymbols c c' ≤ n)
    (hsame : ∀ i < n, evalWord c (β ^ (fcr + i)) = evalWord c' (β ^ (fcr + i))) : c = c' := by
  apply eq_of_wrongAt_eq_empty hlen
  apply eq_empty_of_syndromes_zero (n := n) (by rwa [card_wrongAt hlen]) _ (position_injOn hβ)
    (fun p _ => position_ne_zero hβ0 _ p) (fun p hp => amplitude_ne_zero fcr hβ0 hp)
  intro i hi
  rw [← evalWord_sub fcr hlen, hsame i hi, sub_self]

omit [DecidableEq F] in
/-- More positions than equations: errors at these positions can vanish at `k` given points. -/
theorem exists_vanishing_errors (Q : Finset ℕ) {k : ℕ} (hk : k < Q.card) (point : ℕ → F) (len : ℕ) :
    ∃ e : ℕ → F, (∃ q ∈ Q, e q ≠ 0) ∧ (∀ q ∉ Q, e q = 0) ∧
      ∀ i < k, ∑ q ∈ Q, e q * point i ^ (len - 1 - q) = 0 := by
  classical
  let values : (Q → F) →ₗ[F] (Fin k → F) :=
    { toFun := fun e i => ∑ q : Q, e q * point i ^ (len - 1 - q.1)
      map_add' := fun e e' => by
        funext i
        simp only [Pi.add_apply, add_mul, Finset.sum_add_distrib]
      map_smul' := fun a e => by
        funext i
        simp only [Pi.smul_apply, smul_eq_mul, Finset.mul_sum, mul_assoc, RingHom.id_apply] }
  have hdim : Module.finrank F (Fin k → F) < Module.finrank F (Q → F) := by
    rw [Module.finrank_fin_fun, Module.finrank_fintype_fun_eq_card, Fintype.card_coe]
    exact hk
  obtain ⟨e, hker, hne⟩ := (Submodule.ne_bot_iff _).mp (LinearMap.ker_ne_bot_of_finrank_lt (f := values) hdim)
  obtain ⟨q, hq⟩ := Function.ne_iff.mp hne
  refine ⟨fun q => if hq : q ∈ Q then e ⟨q, hq⟩ else 0, ⟨q.1, q.2, ?_⟩, fun q hq => dif_neg hq, fun i hi => ?_⟩
  · simp only [dif_pos q.2]
    exact hq
  · have hzero := congrFun (LinearMap.mem_ker.mp hker) ⟨i, hi⟩
    rw [← Finset.sum_coe_sort]
    simp only [Finset.coe_mem, dif_pos]
    exact hzero

/-! ## Polynomials as words -/

open Polynomial in
def coeffWord (G : F[X]) (n : ℕ) : List F := (List.range (n + 1)).map fun p => G.coeff (n - p)

omit [DecidableEq F] in
theorem coeffWord_getD (G : Polynomial F) {n p : ℕ} (hp : p < n + 1) :
    (coeffWord G n).getD p 0 = G.coeff (n - p) := by
  rw [List.getD_eq_getElem _ _ (by simpa [coeffWord] using hp)]
  simp [coeffWord]

omit [DecidableEq F] in
theorem evalWord_coeffWord {G : Polynomial F} {n : ℕ} (hG : G.natDegree = n) (z : F) :
    evalWord (coeffWord G n) z = G.eval z := by
  have hlen : (coeffWord G n).length = n + 1 := by simp [coeffWord]
  rw [evalWord_eq_sum, hlen, Polynomial.eval_eq_sum_range, hG,
    ← Finset.sum_range_reflect (fun j => G.coeff j * z ^ j) (n + 1)]
  apply Finset.sum_congr rfl
  intro p hp
  rw [coeffWord_getD G (Finset.mem_range.mp hp), Nat.add_sub_cancel]

omit [DecidableEq F] in
theorem getD_replicate_zero (n p : ℕ) : (List.replicate n (0 : F)).getD p 0 = 0 := by
  rw [List.getD_eq_getElem?_getD, List.getElem?_replicate]
  split <;> rfl

omit [DecidableEq F] in
theorem evalWord_replicate_zero (n : ℕ) (z : F) : evalWord (List.replicate n 0) z = 0 := by
  rw [evalWord_eq_sum]
  apply Finset.sum_eq_zero
  intro p _
  rw [getD_replicate_zero, zero_mul]

/-- A polynomial with `n` consecutive powers as its roots is a code word of `n + 1` symbols, so that none of
its coefficients is zero. -/
theorem coeff_ne_zero_of_roots (fcr : ℕ) {G : Polynomial F} {n : ℕ} (hG : G.Monic) (hdeg : G.natDegree = n) (hβ0 : β ≠ 0)
    (hβ : Set.InjOn (fun e => β ^ e) (Set.Iio (n + 1))) (hroots : ∀ i < n, G.eval (β ^ (fcr + i)) = 0) {j : ℕ}
    (hj : j ≤ n) : G.coeff j ≠ 0 := by
  intro hzero
  have hlen : (coeffWord G n).length = n + 1 := by simp [coeffWord]
  have hzeros : (coeffWord G n).length = (List.replicate (n + 1) (0 : F)).length := by rw [hlen, List.length_replicate]
  have hwrong : wrongSymbols (coeffWord G n) (List.replicate (n + 1) 0) ≤ n := by
    rw [← card_wrongAt hzeros]
    have hsub : wrongAt (coeffWord G n) (List.replicate (n + 1) 0) ⊆ (Finset.range (n + 1)).erase (n - j) := by
      intro p hp
      obtain ⟨hlt, hne⟩ := mem_wrongAt.mp hp
      rw [hlen] at hlt
      rw [coeffWord_getD G hlt, getD_replicate_zero] at hne
      refine Finset.mem_erase.mpr ⟨?_, Finset.mem_range.mpr hlt⟩
      rintro rfl
      exact hne (by rw [Nat.sub_sub_self hj, hzero])
    apply (Finset.card_le_card hsub).trans
    rw [Finset.card_erase_of_mem (Finset.mem_range.mpr (by omega)), Finset.card_range, Nat.add_sub_cancel]
  have hsame : coeffWord G n = List.replicate (n + 1) 0 := by
    apply distance fcr hβ0 (by rwa [hlen]) hzeros hwrong
    intro i hi
    rw [evalWord_coeffWord hdeg, hroots i hi, evalWord_replicate_zero]
  have htop := coeffWord_getD G (n := n) (p := 0) (by omega)
  rw [hsame, getD_replicate_zero, Nat.sub_zero] at htop
  have hone := hG.coeff_natDegree
  rw [hdeg, ← htop] at hone
  exact zero_ne_one hone

end

end Foundations.RootCode
