import CiotVlc.Codec.Decode
import CiotVlc.Codec.Init
import Mathlib.Tactic.LinearCombination

/-! # The parity makes a code word

`encode_rs` divides by the generator polynomial: data and parity together vanish at all of its roots. What
`decode_rs` computes first are the values at the same roots, so it finds no error in what was encoded.
-/
namespace CiotVlc.Codec
open Foundations.ShiftField Foundations.RootCode Foundations.BlockCode Polynomial
set_option autoImplicit false

noncomputable def syms (w : ShiftRegister) (l : List ℕ) : List (Symbol w) := l.map (Symbol.of w)

@[simp] theorem syms_length (w : ShiftRegister) (l : List ℕ) : (syms w l).length = l.length := List.length_map ..

theorem syms_append (w : ShiftRegister) (l l' : List ℕ) : syms w (l ++ l') = syms w l ++ syms w l' := List.map_append

theorem syms_getD (w : ShiftRegister) (l : List ℕ) (j : ℕ) : (syms w l).getD j 0 = Symbol.of w (l.getD j 0) := by
  have h := List.getD_map (f := Symbol.of w) (l := l) (n := j) (d := 0)
  rwa [Symbol.of_zero] at h

/-! ## The code of a control structure -/

/-- Neighbouring roots of the generator polynomial differ by this factor. -/
noncomputable def RsControl.beta (rs : RsControl) (w : ShiftRegister) : Symbol w := Symbol.alpha w ^ rs.prim

noncomputable def RsControl.root (rs : RsControl) (w : ShiftRegister) (i : ℕ) : Symbol w :=
  rs.beta w ^ (rs.fcr + i)

section
variable {rs : RsControl} {w : ShiftRegister}

theorem root_eq (i : ℕ) : rs.root w i = Symbol.alpha w ^ ((rs.fcr + i) * rs.prim) := by
  rw [RsControl.root, RsControl.beta, ← pow_mul, Nat.mul_comm]

theorem beta_ne_zero : rs.beta w ≠ 0 := pow_ne_zero _ Symbol.alpha_ne_zero

namespace Sound
variable (hs : Sound rs w)
include hs

theorem beta_pow_iprim (e : ℕ) : rs.beta w ^ (rs.iprim * e) = Symbol.alpha w ^ e := by
  rw [RsControl.beta, ← pow_mul, Symbol.alpha_pow_eq_iff, ← Nat.mul_assoc, Nat.mul_comm rs.prim, Nat.mul_mod,
    hs.iprim_mul, ← Nat.mul_mod, Nat.one_mul]

/-- `prim` has an inverse, so the powers of `beta` are as many as those of the generator. -/
theorem beta_injOn {n : ℕ} (hn : n ≤ w.order) : Set.InjOn (fun e => rs.beta w ^ e) (Set.Iio n) := by
  intro a ha b hb h
  have ha : a < n := ha
  have hb : b < n := hb
  have hpow : rs.beta w ^ (rs.iprim * a) = rs.beta w ^ (rs.iprim * b) := by
    rw [Nat.mul_comm, pow_mul, Nat.mul_comm, pow_mul]
    exact congrArg (· ^ rs.iprim) h
  rw [hs.beta_pow_iprim, hs.beta_pow_iprim, Symbol.alpha_pow_eq_iff, Nat.mod_eq_of_lt (by omega),
    Nat.mod_eq_of_lt (by omega)] at hpow
  exact hpow

theorem alphaPow_lt (x : ℕ) : rs.alphaPow x < 2 ^ w.bits := by
  rw [RsControl.alphaPow, RsControl.modnn, hs.mm_eq, hs.nn_eq, hs.tables.alphaTo_modnn]
  exact ShiftRegister.power_lt x

theorem of_alphaPow (x : ℕ) : Symbol.of w (rs.alphaPow x) = Symbol.alpha w ^ x := by
  rw [RsControl.alphaPow, RsControl.modnn, hs.mm_eq, hs.nn_eq, hs.tables.alphaTo_modnn, Symbol.of_power]

theorem mask_eq (d : ℕ) : d &&& rs.nn = d % 2 ^ w.bits := by
  rw [hs.nn_eq, ShiftRegister.order, Nat.and_two_pow_sub_one_eq_mod]

theorem mask_lt (d : ℕ) : d &&& rs.nn < 2 ^ w.bits := by
  rw [hs.mask_eq]
  exact Nat.mod_lt _ (Nat.two_pow_pos _)

theorem of_mask (d : ℕ) : Symbol.of w (d &&& rs.nn) = Symbol.of w d := by
  rw [hs.mask_eq]
  exact Symbol.ext (Nat.mod_mod ..)

theorem generator_coeff_ne_zero (hn : rs.nroots < w.order) {j : ℕ} (hj : j ≤ rs.nroots) :
    (generator w rs.fcr rs.prim rs.nroots).coeff j ≠ 0 := by
  apply coeff_ne_zero_of_roots rs.fcr (generator_monic ..) (generator_natDegree ..) (@beta_ne_zero rs w)
    (hs.beta_injOn hn) _ hj
  intro i hi
  rw [← RsControl.root, root_eq, generator_eval_root hi]

end Sound

/-! ## One step of the encoder -/

/-- An array of symbols as the encoder uses it for the parity. -/
def InRange (w : ShiftRegister) (l : List ℕ) : Prop := ∀ j, l.getD j 0 < 2 ^ w.bits

theorem inRange_mem {l : List ℕ} (h : InRange w l) {a : ℕ} (ha : a ∈ l) : a < 2 ^ w.bits := by
  obtain ⟨j, hj, rfl⟩ := List.getElem_of_mem ha
  have hlt := h j
  rwa [List.getD_eq_getElem _ _ hj] at hlt

theorem inRange_of_mem {l : List ℕ} (h : ∀ a ∈ l, a < 2 ^ w.bits) : InRange w l := by
  intro j
  rcases Nat.lt_or_ge j l.length with hlt | hge
  · rw [List.getD_eq_getElem _ _ hlt]
    exact h _ (List.getElem_mem hlt)
  · rw [List.getD_eq_default _ _ hge]
    exact Nat.two_pow_pos _

theorem mem_wrongAt_syms {l l' : List ℕ} (h : InRange w l) (h' : InRange w l') {q : ℕ} :
    q ∈ wrongAt (syms w l) (syms w l') ↔ q < l.length ∧ l.getD q 0 ≠ l'.getD q 0 := by
  have hsame : (syms w l).getD q 0 ≠ (syms w l').getD q 0 ↔ l.getD q 0 ≠ l'.getD q 0 := by
    rw [syms_getD, syms_getD]
    exact not_congr ⟨Symbol.of_inj (h q) (h' q), congrArg _⟩
  rw [mem_wrongAt, syms_length, hsame]

theorem card_wrongAt_syms {l l' : List ℕ} (h : InRange w l) (h' : InRange w l') (hlen : l.length = l'.length) :
    (wrongAt (syms w l) (syms w l')).card = wrongSymbols l l' := by
  rw [card_wrongAt (by rw [syms_length, syms_length, hlen]), syms, syms]
  apply wrongSymbols_map
  exact fun a ha b hb => Symbol.of_inj (inRange_mem h ha) (inRange_mem h' hb)

theorem getD_mapIdx {l : List ℕ} {f : ℕ → ℕ → ℕ} {j : ℕ} (hj : j < l.length) :
    (l.mapIdx f).getD j 0 = f j (l.getD j 0) := by
  rw [List.getD_eq_getElem _ _ (by simpa using hj), List.getElem_mapIdx, List.getD_eq_getElem _ _ hj]

theorem getD_of_length_le {l : List ℕ} {j : ℕ} (hj : l.length ≤ j) : l.getD j 0 = 0 :=
  List.getD_eq_default _ _ hj

/-- The array after the shift, by entries. -/
theorem getD_shift {l : List ℕ} {n v : ℕ} (hlen : l.length = n) (hn : 0 < n) (j : ℕ) :
    (l.tail ++ [v]).getD j 0 = if j + 1 < n then l.getD (j + 1) 0 else if j + 1 = n then v else 0 := by
  have htail : l.tail.length = n - 1 := by rw [List.length_tail, hlen]
  split
  case isTrue hlt =>
    rw [List.getD_append _ _ _ _ (by omega)]
    simp only [List.getD_eq_getElem?_getD, List.getElem?_tail]
  case isFalse hge =>
    rw [List.getD_append_right _ _ _ _ (by omega), htail]
    split
    · rw [show j - (n - 1) = 0 by omega]
      rfl
    · exact List.getD_eq_default _ _ (by simp only [List.length_singleton]; omega)

theorem encodeStep_spec (hs : Sound rs w) (hpos : 0 < rs.nroots) (hn : rs.nroots < w.order) {par : List ℕ}
    (hlen : par.length = rs.nroots) (hpar : InRange w par) (d : ℕ) :
    (encodeStep rs par d).length = rs.nroots ∧ InRange w (encodeStep rs par d) ∧
      ∀ j < rs.nroots, Symbol.of w ((encodeStep rs par d).getD j 0) =
        Symbol.of w (par.getD (j + 1) 0) + (Symbol.of w d + Symbol.of w (par.getD 0 0)) *
          (generator w rs.fcr rs.prim rs.nroots).coeff (rs.nroots - 1 - j) := by
  have hfeed : (d &&& rs.nn) ^^^ par.getD 0 0 < 2 ^ w.bits := Nat.xor_lt_two_pow (hs.mask_lt d) (hpar 0)
  have hof : Symbol.of w ((d &&& rs.nn) ^^^ par.getD 0 0) = Symbol.of w d + Symbol.of w (par.getD 0 0) := by
    rw [Symbol.of_xor, hs.of_mask]
  have hlog : ofLog w (rs.index ((d &&& rs.nn) ^^^ par.getD 0 0)) = _ := hs.tables.ofLog_index hfeed
  rw [hof] at hlog
  rw [encodeStep]
  generalize rs.index ((d &&& rs.nn) ^^^ par.getD 0 0) = fb at hlog ⊢
  by_cases hfb : fb = rs.nn
  · -- The feedback term is zero and the parity is only shifted.
    rw [if_neg (not_not.mpr hfb), if_neg (not_not.mpr hfb)]
    have hzero : Symbol.of w d + Symbol.of w (par.getD 0 0) = 0 := by
      rw [← hlog, hfb, hs.nn_eq, ofLog_order]
    refine ⟨by rw [List.length_append, List.length_tail, List.length_singleton, hlen]; omega, ?_, ?_⟩
    · intro j
      rw [getD_shift hlen hpos]
      split
      · exact hpar _
      · split <;> exact Nat.two_pow_pos _
    · intro j hj
      rw [getD_shift hlen hpos, hzero, zero_mul, add_zero]
      split
      · rfl
      · have hend : par.getD (j + 1) 0 = 0 := getD_of_length_le (by omega)
        rw [if_pos (by omega), hend]
  · rw [if_pos hfb, if_pos hfb]
    rw [hs.nn_eq] at hfb
    rw [ofLog_of_ne hfb] at hlog
    -- Every coefficient of the generator polynomial has a logarithm.
    have hcoeff : ∀ j ≤ rs.nroots, Symbol.of w (rs.alphaPow (fb + rs.genpoly.getD j 0)) =
        (Symbol.of w d + Symbol.of w (par.getD 0 0)) * (generator w rs.fcr rs.prim rs.nroots).coeff j := by
      intro j hj
      obtain ⟨-, hgen⟩ := hs.genpoly j hj
      have hne : rs.genpoly.getD j 0 ≠ w.order := by
        intro h
        rw [h, ofLog_order] at hgen
        exact hs.generator_coeff_ne_zero hn hj hgen.symm
      rw [ofLog_of_ne hne] at hgen
      rw [hs.of_alphaPow, pow_add, hlog, hgen]
    have hlen' : (par.mapIdx fun j p => if 1 ≤ j then p ^^^ rs.alphaPow (fb + rs.genpoly.getD (rs.nroots - j) 0)
        else p).length = rs.nroots := by rw [List.length_mapIdx, hlen]
    refine ⟨by rw [List.length_append, List.length_tail, List.length_singleton, hlen']; omega, ?_, ?_⟩
    · intro j
      rw [getD_shift hlen' hpos]
      split
      · rw [getD_mapIdx (by omega), if_pos (by omega)]
        exact Nat.xor_lt_two_pow (hpar _) (hs.alphaPow_lt _)
      · split
        · exact hs.alphaPow_lt _
        · exact Nat.two_pow_pos _
    · intro j hj
      rw [getD_shift hlen' hpos]
      split
      case isTrue hlt =>
        rw [getD_mapIdx (by omega), if_pos (by omega), Symbol.of_xor, hcoeff _ (by omega),
          show rs.nroots - (j + 1) = rs.nroots - 1 - j by omega]
      case isFalse hge =>
        have hend : par.getD (j + 1) 0 = 0 := getD_of_length_le (by omega)
        rw [if_pos (by omega), hcoeff 0 (Nat.zero_le _), hend, Symbol.of_zero, zero_add,
          show rs.nroots - 1 - j = 0 by omega]

/-- One step multiplies the parity by the indeterminate and adds the symbol, modulo the generator. -/
theorem evalWord_encodeStep (hs : Sound rs w) (hpos : 0 < rs.nroots) (hn : rs.nroots < w.order) {par : List ℕ}
    (hlen : par.length = rs.nroots) (hpar : InRange w par) (d : ℕ) {i : ℕ} (hi : i < rs.nroots) :
    evalWord (syms w (encodeStep rs par d)) (rs.root w i) =
      evalWord (syms w par) (rs.root w i) * rs.root w i + Symbol.of w d * rs.root w i ^ rs.nroots := by
  obtain ⟨hlen', -, hget⟩ := encodeStep_spec hs hpos hn hlen hpar d
  obtain ⟨n, hnroots⟩ : ∃ n, rs.nroots = n + 1 := ⟨rs.nroots - 1, by omega⟩
  generalize hz : rs.root w i = z
  have hroot : (generator w rs.fcr rs.prim rs.nroots).eval z = 0 := by
    rw [← hz, root_eq, generator_eval_root hi]
  have hmonic := @generator_monic w rs.fcr rs.prim rs.nroots
  have hdeg := (@generator_natDegree w rs.fcr rs.prim rs.nroots).trans hnroots
  generalize generator w rs.fcr rs.prim rs.nroots = G at hget hroot hmonic hdeg
  -- The generator polynomial below its leading term.
  have hgen : ∑ j ∈ Finset.range (n + 1), G.coeff (n - j) * z ^ (n - j) = z ^ (n + 1) := by
    have hlow := Finset.sum_range_reflect (fun j => G.coeff j * z ^ j) (n + 1)
    have htop : G.coeff (n + 1) = 1 := by
      rw [← hdeg]
      exact hmonic.coeff_natDegree
    rw [eval_eq_sum_range, hdeg, Finset.sum_range_succ, htop, one_mul] at hroot
    simp only [Nat.add_sub_cancel] at hlow
    rw [hlow, ← Symbol.neg_eq (z ^ (n + 1))]
    exact eq_neg_of_add_eq_zero_left hroot
  have hword : evalWord (syms w par) z =
      ∑ j ∈ Finset.range n, Symbol.of w (par.getD (j + 1) 0) * z ^ (n - (j + 1)) + Symbol.of w (par.getD 0 0) * z ^ n := by
    rw [evalWord_eq_sum, syms_length, hlen, hnroots, Finset.sum_range_succ']
    simp only [syms_getD, Nat.add_sub_cancel, Nat.sub_zero]
  have hshift : ∑ j ∈ Finset.range (n + 1), Symbol.of w (par.getD (j + 1) 0) * z ^ (n - j) =
      evalWord (syms w par) z * z + Symbol.of w (par.getD 0 0) * z ^ (n + 1) := by
    have hend : par.getD (n + 1) 0 = 0 := getD_of_length_le (by omega)
    rw [hword, add_mul, Finset.sum_mul, mul_assoc, ← pow_succ, add_assoc, Symbol.add_self, add_zero,
      Finset.sum_range_succ, hend, Symbol.of_zero, zero_mul, add_zero]
    apply Finset.sum_congr rfl
    intro j hj
    have hj := Finset.mem_range.mp hj
    rw [mul_assoc, ← pow_succ, show n - (j + 1) + 1 = n - j by omega]
  have hstep : evalWord (syms w (encodeStep rs par d)) z = ∑ j ∈ Finset.range (n + 1),
      (Symbol.of w (par.getD (j + 1) 0) * z ^ (n - j) + (Symbol.of w d + Symbol.of w (par.getD 0 0)) *
        (G.coeff (n - j) * z ^ (n - j))) := by
    rw [evalWord_eq_sum, syms_length, hlen', hnroots]
    apply Finset.sum_congr rfl
    intro j hj
    have hj := Finset.mem_range.mp hj
    rw [syms_getD, hget j (by omega), show rs.nroots - 1 - j = n - j by omega, Nat.add_sub_cancel]
    ring
  rw [hstep, Finset.sum_add_distrib, ← Finset.mul_sum, hshift, hgen, hnroots]
  linear_combination z ^ (n + 1) * Symbol.add_self (Symbol.of w (par.getD 0 0))

/-- The whole loop, from any contents of the parity array. -/
theorem encodeLoop_spec (hs : Sound rs w) (hpos : 0 < rs.nroots) (hn : rs.nroots < w.order) (data : List ℕ)
    {par : List ℕ} (hlen : par.length = rs.nroots) (hpar : InRange w par) :
    (data.foldl (encodeStep rs) par).length = rs.nroots ∧ InRange w (data.foldl (encodeStep rs) par) ∧
      ∀ i < rs.nroots, evalWord (syms w (data.foldl (encodeStep rs) par)) (rs.root w i) =
        evalWord (syms w par) (rs.root w i) * rs.root w i ^ data.length +
          evalWord (syms w data) (rs.root w i) * rs.root w i ^ rs.nroots := by
  induction data using List.reverseRecOn with
  | nil =>
    refine ⟨hlen, hpar, fun i _ => ?_⟩
    simp [syms, evalWord]
  | append_singleton data d ih =>
    obtain ⟨hlen', hrange', heval⟩ := ih
    rw [List.foldl_append, List.foldl_cons, List.foldl_nil]
    obtain ⟨hlen'', hrange'', -⟩ := encodeStep_spec hs hpos hn hlen' hrange' d
    refine ⟨hlen'', hrange'', fun i hi => ?_⟩
    have hlast : evalWord (syms w (data ++ [d])) (rs.root w i) =
        evalWord (syms w data) (rs.root w i) * rs.root w i + Symbol.of w d := by
      rw [syms_append]
      exact evalWord_concat _ _ _
    rw [evalWord_encodeStep hs hpos hn hlen' hrange' d hi, heval i hi, hlast, List.length_append,
      List.length_singleton, pow_succ]
    ring

/-! ## Code words -/

/-- Data and parity vanish at all roots of the generator polynomial. -/
def IsCodeWord (rs : RsControl) (w : ShiftRegister) (c : List ℕ) : Prop :=
  ∀ i < rs.nroots, evalWord (syms w c) (rs.root w i) = 0

theorem inRange_replicate (w : ShiftRegister) (n : ℕ) : InRange w (List.replicate n 0) := by
  intro j
  rw [List.getD_eq_getElem?_getD, List.getElem?_replicate]
  split <;> exact Nat.two_pow_pos _

theorem encodeRs_fits {data par : List ℕ} (hdata : data.length + rs.nroots ≤ rs.nn)
    (hpos : 0 < rs.nroots) : encodeRs rs data par = (data.foldl (encodeStep rs) par, 0) := by
  rw [encodeRs, RsControl.pad, if_neg (by omega)]

/-- Zeros leave an empty register empty. -/
theorem encodeLoop_zeros (hs : Sound rs w) (hpos : 0 < rs.nroots) (n : ℕ) :
    (List.replicate n 0).foldl (encodeStep rs) (List.replicate rs.nroots 0) = List.replicate rs.nroots 0 := by
  have hzero : rs.index 0 = rs.nn := hs.tables.indexOf_zero.trans hs.nn_eq.symm
  have hstep : encodeStep rs (List.replicate rs.nroots 0) 0 = List.replicate rs.nroots 0 := by
    have hfirst : (List.replicate rs.nroots 0).getD 0 0 = 0 := by
      rw [List.getD_eq_getElem?_getD, List.getElem?_replicate]
      split <;> rfl
    rw [encodeStep, hfirst, Nat.zero_and, Nat.xor_zero, hzero, if_neg (by simp), if_neg (by simp), List.tail_replicate,
      ← List.replicate_succ', Nat.sub_add_cancel hpos]
  induction n with
  | zero => rfl
  | succ n ih => rw [List.replicate_succ, List.foldl_cons, hstep, ih]

theorem encodeRs_isCodeWord (hs : Sound rs w) (hpos : 0 < rs.nroots) (hn : rs.nroots < w.order) {data : List ℕ}
    (hdata : data.length + rs.nroots ≤ rs.nn) :
    IsCodeWord rs w (data ++ (encodeRs rs data (List.replicate rs.nroots 0)).1) := by
  obtain ⟨hlen, -, heval⟩ :=
    encodeLoop_spec hs hpos hn data (List.length_replicate (n := rs.nroots) (a := 0)) (inRange_replicate w _)
  intro i hi
  have hzero : syms w (List.replicate rs.nroots 0) = List.replicate rs.nroots 0 := by
    simp [syms]
  rw [encodeRs_fits hdata hpos, syms_append, evalWord_append, syms_length, hlen, heval i hi, hzero,
    evalWord_replicate_zero, zero_mul, zero_add]
  exact Symbol.add_self _

/-- The parity of a block, as a caller gets it in a cleared array. -/
def RsControl.parityOf (rs : RsControl) (data : List ℕ) : List ℕ := (encodeRs rs data (List.replicate rs.nroots 0)).1

/-- A block that the library takes. -/
structure RsControl.Takes (rs : RsControl) (data : List ℕ) : Prop where
  nonempty : 0 < data.length
  fits : data.length + rs.nroots ≤ rs.nn
  symbols : ∀ a ∈ data, a < 2 ^ rs.mm

theorem parityOf_spec (hs : Sound rs w) (hpos : 0 < rs.nroots) {data : List ℕ} (h : rs.Takes data) :
    (rs.parityOf data).length = rs.nroots ∧ InRange w (data ++ rs.parityOf data) ∧
      IsCodeWord rs w (data ++ rs.parityOf data) := by
  have hnonempty := h.nonempty
  have hfits := h.fits
  have hn : rs.nroots < w.order := by
    rw [← hs.nn_eq]
    omega
  obtain ⟨hlen, hrange, -⟩ := encodeLoop_spec hs hpos hn data (List.length_replicate (n := rs.nroots) (a := 0))
    (inRange_replicate w _)
  refine ⟨?_, ?_, encodeRs_isCodeWord hs hpos hn hfits⟩
  · rw [RsControl.parityOf, encodeRs_fits hfits hpos]
    exact hlen
  · apply inRange_of_mem
    intro a ha
    rcases List.mem_append.mp ha with ha | ha
    · rw [← hs.mm_eq]
      exact h.symbols a ha
    · rw [RsControl.parityOf, encodeRs_fits hfits hpos] at ha
      exact inRange_mem hrange ha

/-! ## Syndromes -/

theorem syndromeStep_lt (hs : Sound rs w) (d i syn : ℕ) : syndromeStep rs d i syn < 2 ^ w.bits := by
  unfold syndromeStep
  split
  · exact hs.mask_lt d
  · exact Nat.xor_lt_two_pow (hs.mask_lt d) (hs.alphaPow_lt _)

theorem of_syndromeStep (hs : Sound rs w) (d i : ℕ) {syn : ℕ} (hsyn : syn < 2 ^ w.bits) :
    Symbol.of w (syndromeStep rs d i syn) = Symbol.of w syn * rs.root w i + Symbol.of w d := by
  unfold syndromeStep
  split
  case isTrue hzero => rw [hzero, Symbol.of_zero, zero_mul, zero_add, hs.of_mask]
  case isFalse hne =>
    have hlog : Symbol.alpha w ^ rs.index syn = Symbol.of w syn := hs.tables.alpha_pow_index hsyn hne
    rw [Symbol.of_xor, hs.of_mask, hs.of_alphaPow, pow_add, hlog, ← root_eq, add_comm]

/-- The two nested loops: the syndromes do not depend on each other. -/
theorem syndromeLoop_spec (hs : Sound rs w) (ds : List ℕ) {syn : List ℕ} {front : List (Symbol w)}
    (hlen : syn.length = rs.nroots) (hrange : InRange w syn)
    (hsyn : ∀ i < rs.nroots, Symbol.of w (syn.getD i 0) = evalWord front (rs.root w i)) :
    (ds.foldl (fun syn d => syn.mapIdx (syndromeStep rs d)) syn).length = rs.nroots ∧
      InRange w (ds.foldl (fun syn d => syn.mapIdx (syndromeStep rs d)) syn) ∧
      ∀ i < rs.nroots, Symbol.of w ((ds.foldl (fun syn d => syn.mapIdx (syndromeStep rs d)) syn).getD i 0) =
        evalWord (front ++ syms w ds) (rs.root w i) := by
  induction ds generalizing syn front with
  | nil =>
    refine ⟨hlen, hrange, fun i hi => ?_⟩
    rw [show syms w [] = [] from rfl, List.append_nil]
    exact hsyn i hi
  | cons d ds ih =>
    have hlen' : (syn.mapIdx (syndromeStep rs d)).length = rs.nroots := by rw [List.length_mapIdx, hlen]
    have hrange' : InRange w (syn.mapIdx (syndromeStep rs d)) := by
      intro j
      by_cases hj : j < syn.length
      · rw [getD_mapIdx hj]
        exact syndromeStep_lt hs ..
      · rw [getD_of_length_le (by rw [List.length_mapIdx]; omega)]
        exact Nat.two_pow_pos _
    have hsyn' : ∀ i < rs.nroots, Symbol.of w ((syn.mapIdx (syndromeStep rs d)).getD i 0) =
        evalWord (front ++ [Symbol.of w d]) (rs.root w i) := by
      intro i hi
      rw [getD_mapIdx (by omega), of_syndromeStep hs d i (hrange i), hsyn i hi, evalWord_concat]
    have hrest := ih hlen' hrange' hsyn'
    rwa [List.append_assoc] at hrest

theorem formSyndromes_spec (hs : Sound rs w) (first : ℕ) {data : List ℕ} (hdata : 0 < data.length) {par : List ℕ}
    (hpar : par.length = rs.nroots) :
    (formSyndromes rs first data par).length = rs.nroots ∧ InRange w (formSyndromes rs first data par) ∧
      ∀ i < rs.nroots, Symbol.of w ((formSyndromes rs first data par).getD i 0) =
        evalWord (syms w (data ++ par)) (rs.root w i) := by
  obtain ⟨d, ds, rfl⟩ := List.exists_cons_of_length_pos hdata
  have hrange : InRange w (List.replicate rs.nroots (d &&& rs.nn)) := by
    intro j
    rw [List.getD_eq_getElem?_getD, List.getElem?_replicate]
    split
    · exact hs.mask_lt d
    · exact Nat.two_pow_pos _
  have hfirst : ∀ i < rs.nroots, Symbol.of w ((List.replicate rs.nroots (d &&& rs.nn)).getD i 0) =
      evalWord [Symbol.of w d] (rs.root w i) := by
    intro i hi
    rw [List.getD_eq_getElem _ _ (by simpa using hi), List.getElem_replicate, hs.of_mask]
    simp [evalWord]
  obtain ⟨hlen', hrange', hsyn'⟩ := syndromeLoop_spec hs ds List.length_replicate hrange hfirst
  have hrest := syndromeLoop_spec hs par hlen' hrange' hsyn'
  rw [formSyndromes, List.take_of_length_le (by omega)]
  rwa [List.append_assoc, ← syms_append] at hrest

end

end CiotVlc.Codec
