import CiotVlc.Codec.Tables
import Mathlib.Algebra.Polynomial.BigOperators
import Mathlib.Data.Nat.ModEq

/-! # The generator polynomial

`rs_init` multiplies one linear factor after the other into an array, from the top coefficient down, and
turns the coefficients into logarithms at the end. `Sound` collects what a control structure that it returns
for a primitive polynomial satisfies.
-/
namespace CiotVlc.Codec
open Foundations.ShiftField Polynomial
set_option autoImplicit false

/-! ## One factor -/

section
variable {w : ShiftRegister} {t : Tables}

/-- What the inner loop stores for the coefficient `a` with `b` below it. -/
def mulCoeff (mm nn : ℕ) (t : Tables) (root a b : ℕ) : ℕ :=
  if a ≠ 0 then b ^^^ t.alphaTo.getD (rsModnn mm nn (t.indexOf.getD a 0 + root)) 0 else b

theorem mulRootAt_eq (mm nn root : ℕ) (g : List ℕ) (j : ℕ) :
    mulRootAt mm nn t root g j = g.set j (mulCoeff mm nn t root (g.getD j 0) (g.getD (j - 1) 0)) := by
  unfold mulRootAt mulCoeff
  split <;> rfl

/-- The loop works in place, but a coefficient is read only before it is written. -/
theorem mulRootLoop_eq (mm nn root : ℕ) (k : ℕ) {g : List ℕ} (hk : k < g.length) :
    let g' := ((List.range k).reverse.map (· + 1)).foldl (mulRootAt mm nn t root) g
    g'.length = g.length ∧ ∀ j, g'.getD j 0 =
      if 1 ≤ j ∧ j ≤ k then mulCoeff mm nn t root (g.getD j 0) (g.getD (j - 1) 0) else g.getD j 0 := by
  induction k generalizing g with
  | zero => exact ⟨rfl, fun j => (if_neg (by omega)).symm⟩
  | succ k ih =>
    simp only [List.range_succ, List.reverse_append, List.reverse_singleton, List.singleton_append, List.map_cons,
      List.foldl_cons]
    have hlen : (mulRootAt mm nn t root g (k + 1)).length = g.length := by
      rw [mulRootAt_eq, List.length_set]
    obtain ⟨hlen', hget⟩ := ih (g := mulRootAt mm nn t root g (k + 1)) (by omega)
    refine ⟨hlen'.trans hlen, fun j => ?_⟩
    rw [hget j, mulRootAt_eq, getD_set hk, getD_set hk]
    by_cases hj : j = k + 1
    · subst hj
      rw [if_neg (by omega), if_pos rfl, if_pos (by omega)]
    · rw [if_neg hj]
      by_cases hle : 1 ≤ j ∧ j ≤ k
      · rw [if_pos hle, if_neg (by omega), if_pos (by omega)]
      · rw [if_neg hle, if_neg (by omega)]

theorem mulCoeff_lt (ht : LogTables w t.alphaTo t.indexOf) (root a : ℕ) {b : ℕ} (hb : b < 2 ^ w.bits) :
    mulCoeff w.bits w.order t root a b < 2 ^ w.bits := by
  unfold mulCoeff
  split
  · rw [ht.alphaTo_modnn]
    exact Nat.xor_lt_two_pow hb (ShiftRegister.power_lt _)
  · exact hb

theorem of_mulCoeff (ht : LogTables w t.alphaTo t.indexOf) (root : ℕ) {a : ℕ} (ha : a < 2 ^ w.bits) (b : ℕ) :
    Symbol.of w (mulCoeff w.bits w.order t root a b) =
      Symbol.of w b + Symbol.of w a * Symbol.alpha w ^ root := by
  unfold mulCoeff
  split
  case isTrue hne =>
    rw [ht.alphaTo_modnn, Symbol.of_xor, Symbol.of_power, pow_add, ht.alpha_pow_index ha hne]
  case isFalse hzero =>
    rw [not_ne_iff.mp hzero, Symbol.of_zero, zero_mul, add_zero]

end

/-! ## All factors -/

/-- The polynomial with the roots `alpha ^ ((fcr + i) * prim)`. -/
noncomputable def generator (w : ShiftRegister) (fcr prim n : ℕ) : (Symbol w)[X] :=
  ∏ i ∈ Finset.range n, (X + C (Symbol.alpha w ^ ((fcr + i) * prim)))

section
variable {w : ShiftRegister}

theorem generator_succ (fcr prim n : ℕ) : generator w fcr prim (n + 1) =
    generator w fcr prim n * (X + C (Symbol.alpha w ^ ((fcr + n) * prim))) := Finset.prod_range_succ _ n

theorem generator_monic (fcr prim n : ℕ) : (generator w fcr prim n).Monic :=
  monic_prod_of_monic _ _ fun _ _ => monic_X_add_C _

theorem generator_natDegree (fcr prim n : ℕ) : (generator w fcr prim n).natDegree = n := by
  rw [generator, natDegree_prod_of_monic _ _ fun _ _ => monic_X_add_C _]
  simp only [natDegree_X_add_C, Finset.sum_const, Finset.card_range, smul_eq_mul, mul_one]

theorem generator_coeff_succ (fcr prim n j : ℕ) : (generator w fcr prim (n + 1)).coeff (j + 1) =
    (generator w fcr prim n).coeff j +
      (generator w fcr prim n).coeff (j + 1) * Symbol.alpha w ^ ((fcr + n) * prim) := by
  rw [generator_succ, mul_add, coeff_add, coeff_mul_X, coeff_mul_C]

theorem generator_coeff_zero (fcr prim n : ℕ) : (generator w fcr prim (n + 1)).coeff 0 =
    (generator w fcr prim n).coeff 0 * Symbol.alpha w ^ ((fcr + n) * prim) := by
  rw [generator_succ, mul_add, coeff_add, coeff_mul_X_zero, coeff_mul_C, zero_add]

theorem generator_eval_root {fcr prim n i : ℕ} (hi : i < n) :
    (generator w fcr prim n).eval (Symbol.alpha w ^ ((fcr + i) * prim)) = 0 := by
  rw [generator, eval_prod]
  apply Finset.prod_eq_zero (Finset.mem_range.mpr hi)
  rw [eval_add, eval_X, eval_C, Symbol.add_self]

/-- The array holds the coefficients of the first `n` factors. -/
def HoldsFactors (w : ShiftRegister) (fcr prim n : ℕ) (g : List ℕ) : Prop :=
  ∀ j ≤ n, g.getD j 0 < 2 ^ w.bits ∧ Symbol.of w (g.getD j 0) = (generator w fcr prim n).coeff j

variable {t : Tables} {fcr prim : ℕ}

theorem mulRoot_holds (ht : LogTables w t.alphaTo t.indexOf) {n : ℕ} {g : List ℕ} (hlen : n + 1 < g.length)
    (hg : HoldsFactors w fcr prim n g) :
    (mulRoot w.bits w.order t (fcr * prim + n * prim) g n).length = g.length ∧
      HoldsFactors w fcr prim (n + 1) (mulRoot w.bits w.order t (fcr * prim + n * prim) g n) := by
  have hroot : fcr * prim + n * prim = (fcr + n) * prim := (Nat.add_mul _ _ _).symm
  have htop : ∀ j, (g.set (n + 1) 1).getD j 0 = if j = n + 1 then 1 else g.getD j 0 := fun j => getD_set hlen
  obtain ⟨hlen', hloop⟩ := @mulRootLoop_eq t w.bits w.order ((fcr + n) * prim) n (g.set (n + 1) 1)
    (by rw [List.length_set]; omega)
  rw [List.length_set] at hlen'
  rw [hroot, mulRoot]
  generalize ((List.range n).reverse.map (· + 1)).foldl (mulRootAt w.bits w.order t ((fcr + n) * prim))
    (g.set (n + 1) 1) = g' at hlen' hloop ⊢
  refine ⟨by rw [List.length_set]; exact hlen', ?_⟩
  have hlow : g'.getD 0 0 = g.getD 0 0 := by rw [hloop 0, if_neg (by omega), htop, if_neg (by omega)]
  intro j hj
  rw [getD_set (by omega)]
  cases j with
  | zero =>
    rw [if_pos rfl, hlow, ht.alphaTo_modnn]
    have hne : g.getD 0 0 ≠ 0 := by
      intro hzero
      have hcoeff := (hg 0 (Nat.zero_le n)).2
      rw [hzero, Symbol.of_zero, generator, coeff_zero_eq_eval_zero, eval_prod] at hcoeff
      obtain ⟨i, -, hi⟩ := Finset.prod_eq_zero_iff.mp hcoeff.symm
      rw [eval_add, eval_X, eval_C, zero_add] at hi
      exact pow_ne_zero _ Symbol.alpha_ne_zero hi
    refine ⟨ShiftRegister.power_lt _, ?_⟩
    rw [Symbol.of_power, pow_add, ht.alpha_pow_index (hg 0 (Nat.zero_le n)).1 hne, (hg 0 (Nat.zero_le n)).2,
      generator_coeff_zero]
  | succ j =>
    rw [if_neg (Nat.succ_ne_zero j), hloop (j + 1), generator_coeff_succ, Nat.add_sub_cancel, htop, htop,
      if_neg (show j ≠ n + 1 by omega)]
    obtain ⟨hlt, hcoeff⟩ := hg j (by omega)
    by_cases hjn : j = n
    · subst hjn
      have hone : (generator w fcr prim j).coeff j = 1 := by
        have h := (@generator_monic w fcr prim j).coeff_natDegree
        rwa [generator_natDegree] at h
      have hnext : (generator w fcr prim j).coeff (j + 1) = 0 :=
        coeff_eq_zero_of_natDegree_lt (by rw [generator_natDegree]; omega)
      rw [if_neg (by omega), if_pos rfl, hone, hnext, zero_mul, add_zero]
      exact ⟨Nat.one_lt_two_pow (by have := w.bits_pos; omega), Symbol.of_one⟩
    · rw [if_pos (by omega), if_neg (by omega)]
      obtain ⟨hlt', hcoeff'⟩ := hg (j + 1) (by omega)
      exact ⟨mulCoeff_lt ht _ _ hlt, by rw [of_mulCoeff ht _ hlt', hcoeff, hcoeff']⟩

theorem generatorPoly_holds (fcr prim : ℕ) (ht : LogTables w t.alphaTo t.indexOf) {nroots : ℕ} {g₀ : List ℕ}
    (hlen : g₀.length = nroots + 1) :
    (generatorPoly w.bits w.order t fcr prim nroots g₀).length = nroots + 1 ∧
      HoldsFactors w fcr prim nroots (generatorPoly w.bits w.order t fcr prim nroots g₀) := by
  have hloop : ∀ n ≤ nroots,
      ((List.range n).foldl (fun g i => mulRoot w.bits w.order t (fcr * prim + i * prim) g i)
        (g₀.set 0 1)).length = nroots + 1 ∧
      HoldsFactors w fcr prim n
        ((List.range n).foldl (fun g i => mulRoot w.bits w.order t (fcr * prim + i * prim) g i) (g₀.set 0 1)) := by
    intro n hn
    induction n with
    | zero =>
      refine ⟨by simpa using hlen, ?_⟩
      intro j hj
      obtain rfl : j = 0 := by omega
      have hone : (1 : ℕ) < 2 ^ w.bits := Nat.one_lt_two_pow (by have := w.bits_pos; omega)
      simp only [List.range_zero, List.foldl_nil]
      rw [getD_set (by omega), if_pos rfl]
      exact ⟨hone, by simp [generator]⟩
    | succ n ih =>
      obtain ⟨hlen', hholds⟩ := ih (by omega)
      rw [List.range_succ, List.foldl_append, List.foldl_cons, List.foldl_nil]
      obtain ⟨hlen'', hholds'⟩ := mulRoot_holds ht (by omega) hholds
      exact ⟨hlen''.trans hlen', hholds'⟩
  exact hloop nroots le_rfl

end

end CiotVlc.Codec
