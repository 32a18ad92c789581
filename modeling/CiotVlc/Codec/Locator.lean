import CiotVlc.Codec.Parity
import CiotVlc.Foundations.BerlekampMassey

/-! # The error locator of the decoder

The arrays of `decode_rs` hold polynomials, as symbols or as logarithms. Its steps are those of the
Berlekamp-Massey algorithm on the polynomials; the arrays are long enough because of the degrees that the
algorithm keeps.
-/
namespace CiotVlc.Codec
open Foundations.ShiftField Foundations.KeyEquation Foundations.BerlekampMassey Polynomial
set_option autoImplicit false

variable {rs : RsControl} {w : ShiftRegister}

/-! ## Sums -/

theorem xorSum_lt {is : List ℕ} {term : ℕ → ℕ} (hterm : ∀ i ∈ is, term i < 2 ^ w.bits) :
    xorSum is term < 2 ^ w.bits := by
  induction is using List.reverseRecOn with
  | nil => exact Nat.two_pow_pos _
  | append_singleton is i ih =>
    rw [xorSum, List.foldl_append]
    exact Nat.xor_lt_two_pow (ih fun j hj => hterm j (List.mem_append_left _ hj)) (hterm i (by simp))

theorem of_xorSum (is : List ℕ) (term : ℕ → ℕ) :
    Symbol.of w (xorSum is term) = (is.map fun i => Symbol.of w (term i)).sum := by
  induction is using List.reverseRecOn with
  | nil => exact Symbol.of_zero
  | append_singleton is i ih =>
    rw [xorSum, List.foldl_append, List.foldl_cons, List.foldl_nil, ← xorSum, Symbol.of_xor, ih, List.map_append,
      List.sum_append]
    simp

theorem sum_map_range {F : Type} [AddCommMonoid F] (f : ℕ → F) (n : ℕ) :
    ((List.range n).map f).sum = ∑ i ∈ Finset.range n, f i := by
  induction n with
  | zero => rfl
  | succ n ih => simp [List.range_succ, Finset.sum_range_succ, ih]

theorem getD_map_range {f : ℕ → ℕ} {n i : ℕ} (hi : i < n) : ((List.range n).map f).getD i 0 = f i := by
  rw [List.getD_eq_getElem _ _ (by simpa using hi), List.getElem_map, List.getElem_range]

/-! ## Arrays that hold polynomials -/

/-- The entries are the coefficients; past the end of the array they are zero. -/
def PolyForm (w : ShiftRegister) (n : ℕ) (l : List ℕ) (p : (Symbol w)[X]) : Prop :=
  l.length = n + 1 ∧ InRange w l ∧ ∀ i, Symbol.of w (l.getD i 0) = p.coeff i

/-- The entries are the logarithms of the coefficients. -/
def LogForm (w : ShiftRegister) (n : ℕ) (l : List ℕ) (p : (Symbol w)[X]) : Prop :=
  l.length = n + 1 ∧ ∀ i ≤ n, l.getD i 0 ≤ w.order ∧ ofLog w (l.getD i 0) = p.coeff i

theorem PolyForm.log (hs : Sound rs w) {n : ℕ} {l : List ℕ} {p : (Symbol w)[X]} (h : PolyForm w n l p) :
    LogForm w n (l.map rs.index) p := by
  obtain ⟨hlen, hrange, hcoeff⟩ := h
  refine ⟨by rw [List.length_map, hlen], fun i hi => ?_⟩
  rw [getD_map_of_lt _ (by omega)]
  exact ⟨hs.tables.index_le (hrange i), (hs.tables.ofLog_index (hrange i)).trans (hcoeff i)⟩

/-! ## The steps on the arrays -/

/-- The syndromes are in index form. -/
def HoldsSeries (rs : RsControl) (w : ShiftRegister) (s : List ℕ) (S : PowerSeries (Symbol w)) : Prop :=
  ∀ j < rs.nroots, s.getD j 0 ≤ w.order ∧ ofLog w (s.getD j 0) = PowerSeries.coeff j S

section
variable (hs : Sound rs w) {s : List ℕ} {S : PowerSeries (Symbol w)}
include hs

/-- `alpha_to` of a sum of logarithms, skipped when a factor is zero. -/
theorem of_product {a v : ℕ} (ha : a < 2 ^ w.bits) :
    Symbol.of w (if a ≠ 0 ∧ v ≠ rs.nn then rs.alphaPow (rs.index a + v) else 0) = Symbol.of w a * ofLog w v := by
  split
  case isTrue h =>
    have hlog : Symbol.alpha w ^ rs.index a = Symbol.of w a := hs.tables.alpha_pow_index ha h.1
    have hv : v ≠ w.order := by
      rw [← hs.nn_eq]
      exact h.2
    rw [hs.of_alphaPow, pow_add, hlog, ofLog_of_ne hv]
  case isFalse h =>
    rw [Symbol.of_zero]
    rcases not_and_or.mp h with ha0 | hv0
    · rw [not_not.mp ha0, Symbol.of_zero, zero_mul]
    · rw [not_not.mp hv0, hs.nn_eq, ofLog_order, mul_zero]

theorem product_lt (a v : ℕ) :
    (if a ≠ 0 ∧ v ≠ rs.nn then rs.alphaPow (rs.index a + v) else 0) < 2 ^ w.bits := by
  split
  · exact hs.alphaPow_lt _
  · exact Nat.two_pow_pos _

theorem discrepancyAt_spec (hS : HoldsSeries rs w s S) {lambda : List ℕ} {conn : (Symbol w)[X]}
    (hconn : PolyForm w rs.nroots lambda conn) {m : ℕ} (hm : m < rs.nroots) :
    discrepancyAt rs s lambda (m + 1) ≤ w.order ∧
      ofLog w (discrepancyAt rs s lambda (m + 1)) = discrepancy S conn m := by
  obtain ⟨-, hrange, hcoeff⟩ := hconn
  have hlt : ∀ i ∈ List.range (m + 1), (if lambda.getD i 0 ≠ 0 ∧ s.getD (m + 1 - i - 1) 0 ≠ rs.nn then
      rs.alphaPow (rs.index (lambda.getD i 0) + s.getD (m + 1 - i - 1) 0) else 0) < 2 ^ w.bits :=
    fun i _ => product_lt hs _ _
  rw [discrepancyAt]
  refine ⟨hs.tables.index_le (xorSum_lt hlt), ?_⟩
  rw [RsControl.index, hs.tables.ofLog_index (xorSum_lt hlt), of_xorSum, sum_map_range, discrepancy,
    PowerSeries.coeff_mul, Finset.Nat.sum_antidiagonal_eq_sum_range_succ_mk]
  apply Finset.sum_congr rfl
  intro i hi
  have hi := Finset.mem_range.mp hi
  rw [of_product hs (hrange i), hcoeff i, (hS (m + 1 - i - 1) (by omega)).2, coeff_coe,
    show m + 1 - i - 1 = m - i by omega]

theorem masseyUpdate_spec {lambda b : List ℕ} {conn aux : (Symbol w)[X]} {discr : ℕ}
    (hconn : PolyForm w rs.nroots lambda conn) (haux : LogForm w rs.nroots b aux)
    (hdegree : aux.natDegree < rs.nroots) (hdiscr : discr ≠ w.order) :
    PolyForm w rs.nroots (masseyUpdate rs lambda b discr) (conn - C (ofLog w discr) * (X * aux)) := by
  obtain ⟨hlen, hrange, hcoeff⟩ := hconn
  have hentry : ∀ i < rs.nroots, (masseyUpdate rs lambda b discr).getD (i + 1) 0 =
      if b.getD i 0 ≠ rs.nn then lambda.getD (i + 1) 0 ^^^ rs.alphaPow (discr + b.getD i 0)
      else lambda.getD (i + 1) 0 := by
    intro i hi
    rw [masseyUpdate, List.getD_cons_succ, getD_map_range hi]
  have hlen' : (masseyUpdate rs lambda b discr).length = rs.nroots + 1 := by simp [masseyUpdate]
  refine ⟨hlen', ?_, ?_⟩
  · intro j
    cases j with
    | zero => exact hrange 0
    | succ i =>
      by_cases hi : i < rs.nroots
      · rw [hentry i hi]
        split
        · exact Nat.xor_lt_two_pow (hrange _) (hs.alphaPow_lt _)
        · exact hrange _
      · rw [getD_of_length_le (by omega)]
        exact Nat.two_pow_pos _
  · intro j
    cases j with
    | zero =>
      rw [coeff_sub, coeff_C_mul, coeff_X_mul_zero, mul_zero, sub_zero]
      exact hcoeff 0
    | succ i =>
      rw [coeff_sub, coeff_C_mul, coeff_X_mul, Symbol.sub_eq_add', ← hcoeff]
      by_cases hi : i < rs.nroots
      · obtain ⟨-, hlog⟩ := haux.2 i (by omega)
        rw [hentry i hi, ← hlog]
        split
        case isTrue hne =>
          rw [hs.nn_eq] at hne
          rw [Symbol.of_xor, hs.of_alphaPow, pow_add, ofLog_of_ne hdiscr, ofLog_of_ne hne]
        case isFalse hzero =>
          rw [not_not.mp hzero, hs.nn_eq, ofLog_order, mul_zero, add_zero]
      · -- Past the array both polynomials have run out.
        have hlow : lambda.getD (i + 1) 0 = 0 := getD_of_length_le (by omega)
        have hend : (masseyUpdate rs lambda b discr).getD (i + 1) 0 = 0 := getD_of_length_le (by omega)
        rw [hend, hlow, coeff_eq_zero_of_natDegree_lt (by omega), mul_zero, add_zero]

theorem shiftB_spec {b : List ℕ} {aux : (Symbol w)[X]} (haux : LogForm w rs.nroots b aux) :
    LogForm w rs.nroots (shiftB rs b) (X * aux) := by
  obtain ⟨hlen, hcoeff⟩ := haux
  refine ⟨by rw [shiftB, List.length_cons, List.length_dropLast, hlen]; omega, fun i hi => ?_⟩
  cases i with
  | zero =>
    rw [shiftB, List.getD_cons_zero, coeff_X_mul_zero, hs.nn_eq]
    exact ⟨le_rfl, ofLog_order w⟩
  | succ i =>
    have hentry : (shiftB rs b).getD (i + 1) 0 = b.getD i 0 := by
      rw [shiftB, List.getD_cons_succ, List.getD_eq_getElem _ _ (by rw [List.length_dropLast]; omega),
        List.getElem_dropLast, List.getD_eq_getElem _ _ (by omega)]
    rw [hentry, coeff_X_mul]
    exact hcoeff i (by omega)

theorem modnn_lt (x : ℕ) : rs.modnn x < w.order := by
  have hmod : rs.modnn x = x % w.order := by
    rw [RsControl.modnn, hs.mm_eq, hs.nn_eq]
    exact rsModnn_eq w.bits_pos x
  rw [hmod]
  exact Nat.mod_lt _ ShiftRegister.order_pos

theorem alpha_pow_modnn (x : ℕ) : Symbol.alpha w ^ rs.modnn x = Symbol.alpha w ^ x := by
  have hmod : rs.modnn x = x % w.order := by
    rw [RsControl.modnn, hs.mm_eq, hs.nn_eq]
    exact rsModnn_eq w.bits_pos x
  rw [hmod, Symbol.alpha_pow_mod]

theorem invertB_spec {lambda : List ℕ} {conn : (Symbol w)[X]} {discr : ℕ} (hconn : PolyForm w rs.nroots lambda conn)
    (hdiscr : discr < w.order) : LogForm w rs.nroots (invertB rs lambda discr) (C (ofLog w discr)⁻¹ * conn) := by
  obtain ⟨-, hrange, hcoeff⟩ := hconn
  refine ⟨by simp [invertB], fun i hi => ?_⟩
  have hentry : (invertB rs lambda discr).getD i 0 =
      if lambda.getD i 0 = 0 then rs.nn else rs.modnn (rs.index (lambda.getD i 0) + rs.nn - discr) := by
    rw [invertB, getD_map_range (by omega)]
  have hne : discr ≠ w.order := by omega
  rw [hentry, coeff_C_mul, ← hcoeff i, ofLog_of_ne hne]
  split
  case isTrue hzero =>
    rw [hzero, Symbol.of_zero, mul_zero, hs.nn_eq]
    exact ⟨le_rfl, ofLog_order w⟩
  case isFalse hnonzero =>
    have hlt := modnn_lt hs (rs.index (lambda.getD i 0) + rs.nn - discr)
    refine ⟨Nat.le_of_lt hlt, ?_⟩
    rw [ofLog_of_ne (by omega), alpha_pow_modnn hs, hs.nn_eq]
    have hlog : Symbol.alpha w ^ rs.index (lambda.getD i 0) = Symbol.of w (lambda.getD i 0) :=
      hs.tables.alpha_pow_index (hrange i) hnonzero
    have hround : Symbol.alpha w ^ w.order = 1 := Symbol.alpha_pow_eq_one_iff.mpr (Nat.dvd_refl _)
    rw [eq_inv_mul_iff_mul_eq₀ (pow_ne_zero _ Symbol.alpha_ne_zero), ← pow_add,
      show discr + (rs.index (lambda.getD i 0) + w.order - discr) = rs.index (lambda.getD i 0) + w.order by omega,
      pow_add, hround, mul_one, hlog]

/-! ## Steps and runs -/

/-- The arrays hold the register. -/
structure HoldsRegister (rs : RsControl) (w : ShiftRegister) (st : Massey) (r : Register (Symbol w)) : Prop where
  lambda : PolyForm w rs.nroots st.lambda r.conn
  b : LogForm w rs.nroots st.b r.aux
  el : st.el = r.len

omit hs in
theorem polyForm_one (w : ShiftRegister) (n : ℕ) : PolyForm w n (1 :: List.replicate n 0) 1 := by
  have hone : (1 : ℕ) < 2 ^ w.bits := Nat.one_lt_two_pow (by have := w.bits_pos; omega)
  refine ⟨by simp, ?_, ?_⟩
  · intro j
    cases j with
    | zero => exact hone
    | succ j => exact inRange_replicate w n j
  · intro j
    cases j with
    | zero => simp
    | succ j =>
      have hzero : (1 :: List.replicate n 0).getD (j + 1) 0 = 0 := by
        rw [List.getD_cons_succ, List.getD_eq_getElem?_getD, List.getElem?_replicate]
        split <;> rfl
      rw [hzero, Symbol.of_zero, coeff_one, if_neg (Nat.succ_ne_zero j)]

theorem masseyStart_holds : HoldsRegister rs w (masseyStart rs) Register.start where
  lambda := polyForm_one w rs.nroots
  b := (polyForm_one w rs.nroots).log hs
  el := rfl

theorem masseyStep_holds (hS : HoldsSeries rs w s S) {st : Massey} {r : Register (Symbol w)} {m : ℕ}
    (hm : m < rs.nroots) (htracks : Tracks S m r) (h : HoldsRegister rs w st r) :
    HoldsRegister rs w (masseyStep rs s st (m + 1)) (r.step S m) := by
  obtain ⟨hlambda, hb, hel⟩ := h
  obtain ⟨hle, hdiscr⟩ := discrepancyAt_spec hs hS hlambda hm
  have hdegree := htracks.auxDegree
  rw [masseyStep, Register.step, ← hdiscr, hel]
  generalize discrepancyAt rs s st.lambda (m + 1) = discr at hle hdiscr ⊢
  by_cases hzero : discr = w.order
  · rw [if_pos (by rw [hs.nn_eq]; exact hzero), if_pos (ofLog_eq_zero_iff.mpr hzero)]
    exact ⟨hlambda, shiftB_spec hs hb, rfl⟩
  · rw [if_neg (by rw [hs.nn_eq]; exact hzero), if_neg (fun h => hzero (ofLog_eq_zero_iff.mp h)), Nat.add_sub_cancel]
    have hupdate := masseyUpdate_spec hs hlambda hb (by omega) hzero
    split
    · exact ⟨hupdate, invertB_spec hs hlambda (by omega), rfl⟩
    · exact ⟨hupdate, shiftB_spec hs hb, rfl⟩

theorem berlekampMassey_holds (hS : HoldsSeries rs w s S) :
    HoldsRegister rs w (berlekampMassey rs s) (Register.run S rs.nroots) := by
  have hloop : ∀ m ≤ rs.nroots, HoldsRegister rs w
      ((List.range m).foldl (fun st i => masseyStep rs s st (i + 1)) (masseyStart rs)) (Register.run S m) := by
    intro m hm
    induction m with
    | zero => exact masseyStart_holds hs
    | succ m ih =>
      rw [List.range_succ, List.foldl_append, List.foldl_cons, List.foldl_nil, Register.run]
      exact masseyStep_holds hs hS (by omega) (run_tracks S m) (ih (by omega))
  exact hloop rs.nroots le_rfl

end

end CiotVlc.Codec
