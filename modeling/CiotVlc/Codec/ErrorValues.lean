import CiotVlc.Codec.ChienSearch

/-! # Error values

The evaluator polynomial and the formal derivative of the locator, at a root of the locator, give the value by
which the symbol there is wrong.
-/
namespace CiotVlc.Codec
open Foundations.ShiftField Foundations.KeyEquation Foundations.RootCode Polynomial
set_option autoImplicit false

variable {rs : RsControl} {w : ShiftRegister} {p : (Symbol w)[X]}

/-! ## Sums over logarithms -/

/-- The term of a sum: the symbol with logarithm `v` times a power. -/
theorem of_term (hs : Sound rs w) (v x : ℕ) :
    Symbol.of w (if v ≠ rs.nn then rs.alphaPow (v + x) else 0) = ofLog w v * Symbol.alpha w ^ x := by
  split
  case isTrue hne =>
    rw [hs.nn_eq] at hne
    rw [hs.of_alphaPow, pow_add, ofLog_of_ne hne]
  case isFalse hzero =>
    rw [not_not.mp hzero, hs.nn_eq, ofLog_order, zero_mul, Symbol.of_zero]

theorem term_lt (hs : Sound rs w) (v x : ℕ) :
    (if v ≠ rs.nn then rs.alphaPow (v + x) else 0) < 2 ^ w.bits := by
  split
  · exact hs.alphaPow_lt _
  · exact Nat.two_pow_pos _

/-! ## The evaluator -/

section
variable (hs : Sound rs w) {s lambda : List ℕ} {S : PowerSeries (Symbol w)}
include hs

theorem evaluatorPoly_spec (hS : HoldsSeries rs w s S) (hlog : LogForm w rs.nroots lambda p) {deg i : ℕ}
    (hdeg : deg ≤ rs.nroots) (hi : i < deg) : (evaluatorPoly rs s lambda deg).getD i 0 ≤ w.order ∧
      ofLog w ((evaluatorPoly rs s lambda deg).getD i 0) = PowerSeries.coeff i ((p : PowerSeries (Symbol w)) * S) := by
  have hvalue : ∀ j < i + 1, Symbol.of w (if s.getD (i - j) 0 ≠ rs.nn ∧ lambda.getD j 0 ≠ rs.nn then
      rs.alphaPow (s.getD (i - j) 0 + lambda.getD j 0) else 0) =
      p.coeff j * PowerSeries.coeff (i - j) S := by
    intro j hj
    obtain ⟨-, hsyn⟩ := hS (i - j) (by omega)
    obtain ⟨-, hlam⟩ := hlog.2 j (by omega)
    rw [← hsyn, ← hlam]
    by_cases hzero : lambda.getD j 0 = rs.nn
    · rw [if_neg (fun h => h.2 hzero), hzero, hs.nn_eq, ofLog_order, zero_mul, Symbol.of_zero]
    · have hne : lambda.getD j 0 ≠ w.order := by rwa [← hs.nn_eq]
      rw [mul_comm, ofLog_of_ne hne, ← of_term hs]
      exact congrArg _ (if_congr (and_iff_left hzero) rfl rfl)
  have hlt : ∀ j ∈ (List.range (i + 1)).reverse, (if s.getD (i - j) 0 ≠ rs.nn ∧ lambda.getD j 0 ≠ rs.nn then
      rs.alphaPow (s.getD (i - j) 0 + lambda.getD j 0) else 0) < 2 ^ w.bits := by
    intro j _
    split
    · exact hs.alphaPow_lt _
    · exact Nat.two_pow_pos _
  rw [evaluatorPoly, getD_map_range hi]
  refine ⟨hs.tables.index_le (xorSum_lt hlt), ?_⟩
  rw [RsControl.index, hs.tables.ofLog_index (xorSum_lt hlt), of_xorSum, List.map_reverse, List.sum_reverse,
    sum_map_range, PowerSeries.coeff_mul, Finset.Nat.sum_antidiagonal_eq_sum_range_succ_mk]
  apply Finset.sum_congr rfl
  intro j hj
  rw [hvalue j (Finset.mem_range.mp hj), coeff_coe]

theorem evaluatorAt_spec {omega : List ℕ} {q : (Symbol w)[X]} {deg : ℕ} (root : ℕ)
    (homega : ∀ i < deg, ofLog w (omega.getD i 0) = q.coeff i) (hq : ∀ i, deg ≤ i → q.coeff i = 0) :
    evaluatorAt rs omega deg root < 2 ^ w.bits ∧
      Symbol.of w (evaluatorAt rs omega deg root) = q.eval (Symbol.alpha w ^ root) := by
  refine ⟨xorSum_lt fun i _ => term_lt hs _ _, ?_⟩
  rw [evaluatorAt, of_xorSum, List.map_reverse, List.sum_reverse, sum_map_range]
  have heval : q.eval (Symbol.alpha w ^ root) = ∑ i ∈ Finset.range deg, q.coeff i * (Symbol.alpha w ^ root) ^ i := by
    rcases Nat.eq_zero_or_pos deg with rfl | hpos
    · rw [show q = 0 from Polynomial.ext fun i => hq i (Nat.zero_le i), eval_zero, Finset.sum_range_zero]
    · apply eval_eq_sum_range'
      apply lt_of_le_of_lt (natDegree_le_iff_coeff_eq_zero.mpr fun i hi => hq i _) (Nat.sub_lt hpos Nat.one_pos)
      omega
  rw [heval]
  apply Finset.sum_congr rfl
  intro i hi
  rw [of_term hs, homega i (Finset.mem_range.mp hi), ← pow_mul, Nat.mul_comm]

/-! ## The derivative -/

omit hs in
theorem cast_even_add_one (m : ℕ) : ((2 * m : ℕ) : Symbol w) + 1 = 1 := by
  rw [Nat.two_mul, Nat.cast_add, Symbol.add_self, zero_add]

omit hs in
theorem cast_odd_add_one (m : ℕ) : ((2 * m + 1 : ℕ) : Symbol w) + 1 = 0 := by
  rw [Nat.cast_add, Nat.cast_one, add_assoc, Symbol.add_self, add_zero, Nat.two_mul, Nat.cast_add, Symbol.add_self]

omit hs in
/-- In characteristic two only the even powers of a derivative remain. -/
theorem derivative_eval_eq (z : Symbol w) {k : ℕ} (hk : p.natDegree ≤ 2 * k) :
    (derivative p).eval z = ∑ m ∈ Finset.range k, p.coeff (2 * m + 1) * z ^ (2 * m) := by
  have hpairs : ∀ k, ∑ i ∈ Finset.range (2 * k), (derivative p).coeff i * z ^ i =
      ∑ m ∈ Finset.range k, p.coeff (2 * m + 1) * z ^ (2 * m) := by
    intro k
    induction k with
    | zero => rfl
    | succ k ih =>
      rw [Nat.mul_succ, Finset.sum_range_succ, Finset.sum_range_succ, ih, Finset.sum_range_succ, coeff_derivative,
        coeff_derivative, cast_odd_add_one, cast_even_add_one, mul_one, mul_zero, zero_mul, add_zero]
  rw [← hpairs k]
  rcases Nat.eq_zero_or_pos p.natDegree with hzero | hpos
  · rw [derivative_of_natDegree_zero hzero, eval_zero]
    symm
    apply Finset.sum_eq_zero
    intro i _
    rw [coeff_zero, zero_mul]
  · apply eval_eq_sum_range'
    have hdegree := natDegree_derivative_le p
    omega

theorem derivativeAt_spec (hpos : 0 < rs.nroots) (hlog : LogForm w rs.nroots lambda p)
    (hdegree : p.natDegree ≤ rs.nroots) (root : ℕ) : derivativeAt rs lambda p.natDegree root < 2 ^ w.bits ∧
      Symbol.of w (derivativeAt rs lambda p.natDegree root) = (derivative p).eval (Symbol.alpha w ^ root) := by
  refine ⟨xorSum_lt fun i _ => term_lt hs _ _, ?_⟩
  rw [derivativeAt, of_xorSum, List.map_map, List.map_reverse, List.sum_reverse, sum_map_range,
    derivative_eval_eq _ (k := min p.natDegree (rs.nroots - 1) / 2 + 1) (by omega)]
  apply Finset.sum_congr rfl
  intro m hm
  have hm := Finset.mem_range.mp hm
  rw [Function.comp_apply, of_term hs, (hlog.2 (2 * m + 1) (by omega)).2, ← pow_mul, Nat.mul_comm root]

/-! ## The correction -/

theorem correction_lt (lambda omega : List ℕ) (deg root : ℕ) :
    correction rs lambda omega deg root < 2 ^ w.bits := hs.alphaPow_lt _

/-- Quotients by logarithms. -/
theorem correction_spec {omega : List ℕ} {deg root : ℕ} (hroot : root ≤ rs.nn)
    (hnum : evaluatorAt rs omega deg root < 2 ^ w.bits) (hnum0 : evaluatorAt rs omega deg root ≠ 0)
    (hden : derivativeAt rs lambda deg root < 2 ^ w.bits) (hden0 : derivativeAt rs lambda deg root ≠ 0) :
    Symbol.of w (correction rs lambda omega deg root) * Symbol.of w (derivativeAt rs lambda deg root) *
        Symbol.alpha w ^ root =
      Symbol.of w (evaluatorAt rs omega deg root) * (Symbol.alpha w ^ root) ^ rs.fcr := by
  have hpow := hs.alphaPow_lt (root * rs.fcr + rs.nn - root)
  have hpow0 : rs.alphaPow (root * rs.fcr + rs.nn - root) ≠ 0 := by
    intro h
    have hof := hs.of_alphaPow (root * rs.fcr + rs.nn - root)
    rw [h, Symbol.of_zero] at hof
    exact pow_ne_zero _ Symbol.alpha_ne_zero hof.symm
  have hlognum : Symbol.alpha w ^ rs.index _ = Symbol.of w _ := hs.tables.alpha_pow_index hnum hnum0
  have hlogden : Symbol.alpha w ^ rs.index _ = Symbol.of w _ := hs.tables.alpha_pow_index hden hden0
  have hlogpow : Symbol.alpha w ^ rs.index _ = Symbol.of w _ := hs.tables.alpha_pow_index hpow hpow0
  have hle : rs.index (derivativeAt rs lambda deg root) ≤ w.order := hs.tables.index_le hden
  have hround : Symbol.alpha w ^ w.order = 1 := Symbol.alpha_pow_eq_one_iff.mpr (Nat.dvd_refl _)
  rw [← hs.nn_eq] at hle hround
  rw [correction, hs.of_alphaPow, ← hlogden, ← pow_add, Nat.sub_add_cancel (by omega), pow_add, pow_add, hlognum,
    hlogpow, hround, mul_one, hs.of_alphaPow, mul_assoc, ← pow_add, Nat.sub_add_cancel (by omega), pow_add, hround,
    mul_one, pow_mul]

end

end CiotVlc.Codec
