import CiotVlc.Codec.Control
import CiotVlc.Foundations.ShiftField

/-! # The lookup tables

The field generator of `rs_init` is a shift register whose step is linear. When the polynomial is primitive
the two tables are the powers of its generator and their logarithms; `LogTables` says so, and has the lemmas
through which the rest of the library is read in the field.
-/
namespace CiotVlc.Codec
open Foundations.ShiftField
set_option autoImplicit false

/-! ## The field generator -/

def reduce (symsize gfpoly sr : ℕ) : ℕ := if sr &&& (1 <<< symsize) ≠ 0 then sr ^^^ gfpoly else sr

theorem and_one_shiftLeft_ne_zero_iff (sr n : ℕ) : sr &&& (1 <<< n) ≠ 0 ↔ sr.testBit n = true := by
  rw [Nat.one_shiftLeft, Nat.and_two_pow]
  cases sr.testBit n <;> simp

theorem reduce_xor (symsize gfpoly a b : ℕ) :
    reduce symsize gfpoly (a ^^^ b) = reduce symsize gfpoly a ^^^ reduce symsize gfpoly b := by
  have hxor : (a ^^^ b).testBit symsize = (a.testBit symsize ^^ b.testBit symsize) := Nat.testBit_xor ..
  simp only [reduce, and_one_shiftLeft_ne_zero_iff, hxor]
  cases a.testBit symsize <;> cases b.testBit symsize
  · rfl
  · exact Nat.xor_assoc ..
  · exact Nat.xor_right_comm ..
  · change a ^^^ b = a ^^^ gfpoly ^^^ (b ^^^ gfpoly)
    rw [Nat.xor_assoc, Nat.xor_comm b, ← Nat.xor_assoc gfpoly, Nat.xor_self, Nat.zero_xor]

theorem nextSr_xor (symsize gfpoly a b : ℕ) :
    nextSr symsize gfpoly (a ^^^ b) = nextSr symsize gfpoly a ^^^ nextSr symsize gfpoly b := by
  change reduce symsize gfpoly ((a ^^^ b) <<< 1) &&& (2 ^ symsize - 1) =
    (reduce symsize gfpoly (a <<< 1) &&& (2 ^ symsize - 1)) ^^^ (reduce symsize gfpoly (b <<< 1) &&& (2 ^ symsize - 1))
  rw [Nat.shiftLeft_xor_distrib, reduce_xor, Nat.and_xor_distrib_right]

theorem nextSr_lt (symsize gfpoly a : ℕ) : nextSr symsize gfpoly a < 2 ^ symsize := by
  change _ &&& (2 ^ symsize - 1) < _
  rw [Nat.and_two_pow_sub_one_eq_mod]
  exact Nat.mod_lt _ (Nat.two_pow_pos _)

/-- The contents of `sr` at the start of round `i`. -/
def srAt (symsize gfpoly i : ℕ) : ℕ := (nextSr symsize gfpoly)^[i] 1

/-- The polynomial is primitive: `sr` is back at `1` after the last round, and not before. -/
def Primitive (symsize gfpoly : ℕ) : Prop :=
  srAt symsize gfpoly (2 ^ symsize - 1) = 1 ∧
    ∀ i, 0 < i → i < 2 ^ symsize - 1 → srAt symsize gfpoly i ≠ 1

def fieldRegister {symsize gfpoly : ℕ} (hsym : 0 < symsize) (h : Primitive symsize gfpoly) : ShiftRegister where
  bits := symsize
  next := nextSr symsize gfpoly
  bits_pos := hsym
  next_lt := nextSr_lt symsize gfpoly
  next_xor := nextSr_xor symsize gfpoly
  cycles := h.1
  primitive := h.2

/-! ## The loop that fills the tables -/

section
variable {symsize gfpoly : ℕ}

theorem srAt_lt (hsym : 0 < symsize) (i : ℕ) : srAt symsize gfpoly i < 2 ^ symsize := by
  cases i with
  | zero =>
    change 1 < 2 ^ symsize
    exact Nat.one_lt_two_pow (by omega)
  | succ i =>
    rw [srAt, Function.iterate_succ_apply']
    exact nextSr_lt ..

def fillTables (symsize gfpoly : ℕ) (t : Tables) (n : ℕ) : Tables :=
  (List.range n).foldl (tableStep symsize gfpoly) t

theorem fillTables_succ (t : Tables) (n : ℕ) :
    fillTables symsize gfpoly t (n + 1) = tableStep symsize gfpoly (fillTables symsize gfpoly t n) n := by
  rw [fillTables, List.range_succ, List.foldl_append]
  rfl

theorem fillTables_lengths (t : Tables) (n : ℕ) :
    (fillTables symsize gfpoly t n).alphaTo.length = t.alphaTo.length ∧
      (fillTables symsize gfpoly t n).indexOf.length = t.indexOf.length := by
  induction n with
  | zero => exact ⟨rfl, rfl⟩
  | succ n ih =>
    rw [fillTables_succ]
    simp only [tableStep, List.length_set]
    exact ih

theorem fillTables_sr {t : Tables} (ht : t.sr = 1) (n : ℕ) :
    (fillTables symsize gfpoly t n).sr = srAt symsize gfpoly n := by
  induction n with
  | zero => exact ht
  | succ n ih =>
    rw [fillTables_succ, srAt, Function.iterate_succ_apply', ← srAt, ← ih]
    rfl

theorem getD_set {l : List ℕ} {i v j d : ℕ} (hi : i < l.length) :
    (l.set i v).getD j d = if j = i then v else l.getD j d := by
  by_cases hj : j = i
  · subst hj
    rw [if_pos rfl, List.getD_eq_getElem _ _ (by simpa using hi), List.getElem_set_self]
  · rw [if_neg hj, List.getD_eq_getElem?_getD, List.getD_eq_getElem?_getD, List.getElem?_set_ne (Ne.symm hj)]

theorem fillTables_alphaTo {t : Tables} (ht : t.sr = 1) {n : ℕ} (hn : n ≤ t.alphaTo.length) (j : ℕ) :
    (fillTables symsize gfpoly t n).alphaTo.getD j 0 =
      if j < n then srAt symsize gfpoly j else t.alphaTo.getD j 0 := by
  induction n with
  | zero => rfl
  | succ n ih =>
    have hlen := (@fillTables_lengths symsize gfpoly t n).1
    rw [fillTables_succ, tableStep, getD_set (by omega), fillTables_sr ht, ih (by omega)]
    by_cases hjn : j = n
    · rw [if_pos hjn, if_pos (by omega), hjn]
    · rw [if_neg hjn]
      exact if_congr (by omega) rfl rfl

/-- An entry of `index_of` is the last round that `sr` had this content, or what was there before. -/
theorem fillTables_indexOf_of_not_mem (hsym : 0 < symsize) {t : Tables} (ht : t.sr = 1)
    (hlen : t.indexOf.length = 2 ^ symsize) {n a : ℕ} (ha : ∀ i < n, srAt symsize gfpoly i ≠ a) :
    (fillTables symsize gfpoly t n).indexOf.getD a 0 = t.indexOf.getD a 0 := by
  induction n with
  | zero => rfl
  | succ n ih =>
    have hlen' := (@fillTables_lengths symsize gfpoly t n).2
    have hlt := @srAt_lt symsize gfpoly hsym n
    rw [fillTables_succ, tableStep, fillTables_sr ht, getD_set (by omega),
      if_neg (fun h => ha n (Nat.lt_succ_self n) h.symm)]
    exact ih fun i hi => ha i (by omega)

theorem fillTables_indexOf (hsym : 0 < symsize) {t : Tables} (ht : t.sr = 1)
    (hlen : t.indexOf.length = 2 ^ symsize) {n i : ℕ} (hi : i < n)
    (hlast : ∀ j < n, i < j → srAt symsize gfpoly j ≠ srAt symsize gfpoly i) :
    (fillTables symsize gfpoly t n).indexOf.getD (srAt symsize gfpoly i) 0 = i := by
  induction n with
  | zero => exact absurd hi (Nat.not_lt_zero i)
  | succ n ih =>
    have hlen' := (@fillTables_lengths symsize gfpoly t n).2
    have hlt := @srAt_lt symsize gfpoly hsym n
    rw [fillTables_succ, tableStep, fillTables_sr ht, getD_set (by omega)]
    by_cases hin : i = n
    · rw [hin, if_pos rfl]
    · rw [if_neg (fun h => hlast n (Nat.lt_succ_self n) (by omega) h.symm)]
      exact ih (by omega) fun j hj => hlast j (by omega)

end

/-! ## Tables of a field -/

structure LogTables (w : ShiftRegister) (alphaTo indexOf : List ℕ) : Prop where
  alphaTo_power : ∀ i < w.order, alphaTo.getD i 0 = w.power i
  alphaTo_order : alphaTo.getD w.order 0 = 0
  indexOf_zero : indexOf.getD 0 0 = w.order
  indexOf_power : ∀ i < w.order, indexOf.getD (w.power i) 0 = i

section
variable {symsize gfpoly : ℕ}

theorem galoisTables_eq (alpha₀ index₀ : List ℕ) : galoisTables symsize gfpoly alpha₀ index₀ =
    fillTables symsize gfpoly
      { alphaTo := alpha₀.set (2 ^ symsize - 1) 0, indexOf := index₀.set 0 (2 ^ symsize - 1), sr := 1 }
      (2 ^ symsize - 1) := rfl

theorem galoisTables_sound (hsym : 0 < symsize) (h : Primitive symsize gfpoly) {alpha₀ index₀ : List ℕ}
    (halpha : alpha₀.length = 2 ^ symsize) (hindex : index₀.length = 2 ^ symsize) :
    LogTables (fieldRegister hsym h) (galoisTables symsize gfpoly alpha₀ index₀).alphaTo
      (galoisTables symsize gfpoly alpha₀ index₀).indexOf where
  alphaTo_power := by
    intro i hi
    have hi : i < 2 ^ symsize - 1 := hi
    rw [galoisTables_eq, fillTables_alphaTo rfl (by simp only [List.length_set]; omega), if_pos hi]
    rfl
  alphaTo_order := by
    have hpos := Nat.two_pow_pos symsize
    change (galoisTables symsize gfpoly alpha₀ index₀).alphaTo.getD (2 ^ symsize - 1) 0 = 0
    rw [galoisTables_eq, fillTables_alphaTo rfl (by simp only [List.length_set]; omega), if_neg (by omega),
      getD_set (by omega), if_pos rfl]
  indexOf_zero := by
    have hpos := Nat.two_pow_pos symsize
    have hne : ∀ i < 2 ^ symsize - 1, srAt symsize gfpoly i ≠ 0 := fun i _ =>
      ShiftRegister.power_ne_zero (w := fieldRegister hsym h) i
    rw [galoisTables_eq, fillTables_indexOf_of_not_mem hsym rfl (by simpa using hindex) hne,
      getD_set (by omega), if_pos rfl]
    rfl
  indexOf_power := by
    intro i hi
    have hi : i < 2 ^ symsize - 1 := hi
    rw [galoisTables_eq]
    apply fillTables_indexOf hsym rfl (by simpa using hindex) hi
    intro j hj hij heq
    have hinj := ShiftRegister.power_inj (w := fieldRegister hsym h) hj hi heq
    omega

end

/-! ## Reading the tables in the field -/

/-- The symbol with this logarithm; the logarithm of zero is `order`. -/
noncomputable def ofLog (w : ShiftRegister) (v : ℕ) : Symbol w :=
  if v = w.order then 0 else Symbol.alpha w ^ v

namespace LogTables
open ShiftRegister Symbol
variable {w : ShiftRegister} {alphaTo indexOf : List ℕ}

theorem alphaTo_modnn (h : LogTables w alphaTo indexOf) (x : ℕ) :
    alphaTo.getD (rsModnn w.bits w.order x) 0 = w.power x := by
  have hmod : rsModnn w.bits w.order x = x % w.order := rsModnn_eq w.bits_pos x
  rw [hmod, h.alphaTo_power _ (Nat.mod_lt _ order_pos), power_mod_order]

theorem of_alphaTo (h : LogTables w alphaTo indexOf) {v : ℕ} (hv : v ≤ w.order) :
    Symbol.of w (alphaTo.getD v 0) = ofLog w v := by
  unfold ofLog
  split
  · next heq => rw [heq, h.alphaTo_order, of_zero]
  · rw [h.alphaTo_power v (by omega), of_power]

theorem index_eq (h : LogTables w alphaTo indexOf) {a : ℕ} (ha : a < 2 ^ w.bits) (hne : a ≠ 0) :
    indexOf.getD a 0 < w.order ∧ w.power (indexOf.getD a 0) = a := by
  obtain ⟨i, hi, rfl⟩ := exists_power (Nat.pos_of_ne_zero hne) ha
  rw [h.indexOf_power i hi]
  exact ⟨hi, rfl⟩

theorem index_le (h : LogTables w alphaTo indexOf) {a : ℕ} (ha : a < 2 ^ w.bits) :
    indexOf.getD a 0 ≤ w.order := by
  by_cases hne : a = 0
  · rw [hne, h.indexOf_zero]
  · exact Nat.le_of_lt (h.index_eq ha hne).1

theorem ofLog_index (h : LogTables w alphaTo indexOf) {a : ℕ} (ha : a < 2 ^ w.bits) :
    ofLog w (indexOf.getD a 0) = Symbol.of w a := by
  unfold ofLog
  by_cases hne : a = 0
  · rw [hne, if_pos h.indexOf_zero, of_zero]
  · obtain ⟨hlt, hpower⟩ := h.index_eq ha hne
    rw [if_neg (by omega), ← of_power, hpower]

theorem alpha_pow_index (h : LogTables w alphaTo indexOf) {a : ℕ} (ha : a < 2 ^ w.bits) (hne : a ≠ 0) :
    alpha w ^ indexOf.getD a 0 = Symbol.of w a := by
  rw [← of_power, (h.index_eq ha hne).2]

end LogTables

theorem ofLog_of_ne {w : ShiftRegister} {v : ℕ} (hv : v ≠ w.order) : ofLog w v = Symbol.alpha w ^ v := if_neg hv

theorem ofLog_order (w : ShiftRegister) : ofLog w w.order = 0 := if_pos rfl

theorem ofLog_eq_zero_iff {w : ShiftRegister} {v : ℕ} : ofLog w v = 0 ↔ v = w.order := by
  unfold ofLog
  split
  · next h => exact iff_of_true rfl h
  · next h => exact iff_of_false (pow_ne_zero _ Symbol.alpha_ne_zero) h

end CiotVlc.Codec
