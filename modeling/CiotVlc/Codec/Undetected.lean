import CiotVlc.Codec.Repairs

/-! # Errors that the decoder does not report

Two encoded blocks differ in more places than there are parity symbols. But `decode_rs` does not look at the
degree of the locator before it searches: when the syndromes vanish from the middle on, the locator is `1`, no
root is missing, and the block counts as free of errors.
-/
namespace CiotVlc.Codec
open Foundations.ShiftField Foundations.RootCode Foundations.BlockCode Foundations.BerlekampMassey Polynomial
set_option autoImplicit false

variable {rs : RsControl} {w : ShiftRegister}

/-! ## Locators without roots -/

theorem rootsAmong_one (is : List ℕ) : rootsAmong (1 : (Symbol w)[X]) is = [] := by
  apply List.filter_eq_nil_iff.mpr
  intro i _
  simp

/-- The syndromes as the first terms of a series. -/
noncomputable def syndromeSeries (w : ShiftRegister) (syn : List ℕ) : PowerSeries (Symbol w) :=
  PowerSeries.mk fun i => Symbol.of w (syn.getD i 0)

theorem correctErrors_of_vanishing (hs : Sound rs w) {syn : List ℕ} (hlen : syn.length = rs.nroots)
    (hrange : InRange w syn) (hzero : ∀ i, rs.nroots / 2 ≤ i → i < rs.nroots → syn.getD i 0 = 0) (data : List ℕ)
    (pad : ℕ) : correctErrors rs (syn.map rs.index) data pad = (data, 0) := by
  have hseries : HoldsSeries rs w (syn.map rs.index) (syndromeSeries w syn) := by
    intro i hi
    rw [getD_map_of_lt _ (by omega), syndromeSeries, PowerSeries.coeff_mk]
    exact ⟨hs.tables.index_le (hrange i), hs.tables.ofLog_index (hrange i)⟩
  have hconn : (Register.run (syndromeSeries w syn) rs.nroots).conn = 1 := by
    apply run_eq_one (m := rs.nroots / 2) (by omega)
    intro i hi hlt
    rw [syndromeSeries, PowerSeries.coeff_mk, hzero i hi hlt, Symbol.of_zero]
  have hlambda := (berlekampMassey_holds hs hseries).lambda.log hs
  rw [hconn] at hlambda
  have hone : (1 : (Symbol w)[X]).coeff 0 = 1 := coeff_one_zero
  have hdegree : (1 : (Symbol w)[X]).natDegree = 0 := natDegree_one
  have hdeg := degLambda_spec hs hlambda hone (by omega)
  have hsearch := chienSearch_tried hs hone (by omega) hlambda
  rw [rootsAmong_one, hdegree, tried] at hsearch
  rw [hdegree] at hdeg
  rw [correctErrors]
  dsimp only
  rw [hdeg, hsearch]
  rfl

theorem decodeRs_of_vanishing (hs : Sound rs w) {data par : List ℕ} (hnonempty : 0 < data.length)
    (hfits : data.length + rs.nroots ≤ rs.nn) (hpar : par.length = rs.nroots)
    (first : ℕ) (hzero : ∀ i, rs.nroots / 2 ≤ i → i < rs.nroots → (formSyndromes rs first data par).getD i 0 = 0) :
    decodeRs rs first data par = some (data, 0) := by
  obtain ⟨hlen, hrange, -⟩ := formSyndromes_spec hs first hnonempty hpar
  rw [decodeRs, RsControl.pad, if_neg (by omega)]
  dsimp only
  split
  · rfl
  · rw [correctErrors_of_vanishing hs hlen hrange hzero]

/-! ## Words that differ from an encoded block at given places -/

/-- Something is wrong, only at these places, and the decoder reports no error and leaves the data, which are bytes,
as they are. -/
def SilentOn (rs : RsControl) (data par : List ℕ) (Q : Finset ℕ) : Prop :=
  ∃ data' par' : List ℕ, data'.length = data.length ∧ par'.length = par.length ∧ (∀ a ∈ data', a < 2 ^ 8) ∧
    (∀ a ∈ data' ++ par', a < 2 ^ rs.mm) ∧ data' ++ par' ≠ data ++ par ∧
    (∀ q ∉ Q, (data' ++ par').getD q 0 = (data ++ par).getD q 0) ∧
    ∀ first, decodeRs rs first data' par' = some (data', 0)

section
variable {data par : List ℕ} {Q : Finset ℕ}

theorem SilentOn.many (hs : Sound rs w) (hcode : IsCodeWord rs w (data ++ par)) (hnonempty : 0 < data.length)
    (hfits : data.length + rs.nroots ≤ rs.nn) (hpar : par.length = rs.nroots) (hrange : InRange w (data ++ par))
    (h : SilentOn rs data par Q) : rs.nroots < 2 * Q.card := by
  obtain ⟨data', par', hdata', hpar', -, hrange', hne, hout, hdecode⟩ := h
  rw [hs.mm_eq] at hrange'
  have hrange' := inRange_of_mem hrange'
  have hlen : (data ++ par).length = (data' ++ par').length := by
    rw [List.length_append, List.length_append, hdata', hpar']
  by_contra hfew
  have hwrong : wrongSymbols (data ++ par) (data' ++ par') ≤ Q.card := by
    rw [← card_wrongAt_syms hrange hrange' hlen]
    apply Finset.card_le_card
    intro q hq
    by_contra hnot
    exact ((mem_wrongAt_syms hrange hrange').mp hq).2 (hout q hnot).symm
  have hdamaged : Damaged rs w data par data' par' :=
    ⟨hcode, hnonempty, hfits, hdata', hpar, by rw [hpar', hpar], hrange, hrange', by omega⟩
  have hrepaired := decodeRs_repairs hs hdamaged 0
  rw [hdecode, Option.some.injEq, Prod.mk.injEq] at hrepaired
  obtain ⟨hsame, hcount⟩ := hrepaired
  have hempty : wrongAt (syms w (data ++ par)) (syms w (data' ++ par')) = ∅ := by
    rw [← Finset.card_eq_zero, card_wrongAt_syms hrange hrange' hlen]
    exact_mod_cast hcount.symm
  apply hne
  apply list_eq_of_getD hlen.symm
  intro q hq
  by_contra hwrong
  have hmem := (mem_wrongAt_syms hrange hrange').mpr ⟨by rw [hlen]; exact hq, fun heq => hwrong heq.symm⟩
  rw [hempty] at hmem
  exact Finset.notMem_empty q hmem

/-- The word with these errors. -/
noncomputable def withErrors (w : ShiftRegister) (c : List ℕ) (e : ℕ → Symbol w) : List ℕ :=
  (List.range c.length).map fun q => (Symbol.of w (c.getD q 0) + e q).val

theorem withErrors_getD {c : List ℕ} (e : ℕ → Symbol w) {q : ℕ} (hq : q < c.length) :
    (withErrors w c e).getD q 0 = (Symbol.of w (c.getD q 0) + e q).val := getD_map_range hq

theorem evalWord_withErrors (c : List ℕ) {e : ℕ → Symbol w} (hQ : Q ⊆ Finset.range c.length)
    (hout : ∀ q ∉ Q, e q = 0) (z : Symbol w) :
    evalWord (syms w (withErrors w c e)) z =
      evalWord (syms w c) z + ∑ q ∈ Q, e q * z ^ (c.length - 1 - q) := by
  have hlen : (syms w (withErrors w c e)).length = c.length := by
    rw [syms_length, withErrors, List.length_map, List.length_range]
  have hsum : ∑ q ∈ Q, e q * z ^ (c.length - 1 - q) = ∑ q ∈ Finset.range c.length, e q * z ^ (c.length - 1 - q) := by
    apply Finset.sum_subset hQ
    intro q _ hq
    rw [hout q hq, zero_mul]
  rw [evalWord_eq_sum, evalWord_eq_sum, hlen, syms_length, hsum, ← Finset.sum_add_distrib]
  apply Finset.sum_congr rfl
  intro q hq
  rw [syms_getD, syms_getD, withErrors_getD e (Finset.mem_range.mp hq), Symbol.of_val, add_mul]

theorem silentOn_of_many (hs : Sound rs w) (hcode : IsCodeWord rs w (data ++ par)) (hnonempty : 0 < data.length)
    (hfits : data.length + rs.nroots ≤ rs.nn) (hpar : par.length = rs.nroots) (hrange : InRange w (data ++ par))
    (hQ : Q ⊆ Finset.range (data.length + rs.nroots)) (hmany : rs.nroots + 1 < 2 * Q.card) (hbytes : rs.mm ≤ 8) :
    SilentOn rs data par Q := by
  have hlen : (data ++ par).length = data.length + rs.nroots := by rw [List.length_append, hpar]
  -- Errors for which the upper half of the syndromes vanishes.
  obtain ⟨e, ⟨q, hq, hne⟩, hout, hvanish⟩ := exists_vanishing_errors (F := Symbol w) Q
    (k := rs.nroots - rs.nroots / 2) (by omega) (fun i => rs.root w (rs.nroots / 2 + i)) (data ++ par).length
  rw [← hlen] at hQ
  have hword : (withErrors w (data ++ par) e).length = data.length + rs.nroots := by
    rw [withErrors, List.length_map, List.length_range, hlen]
  have hsplit := List.take_append_drop data.length (withErrors w (data ++ par) e)
  have htake : ((withErrors w (data ++ par) e).take data.length).length = data.length := by
    rw [List.length_take]
    omega
  have hdrop : ((withErrors w (data ++ par) e).drop data.length).length = rs.nroots := by
    rw [List.length_drop]
    omega
  have hsymbols : ∀ a ∈ withErrors w (data ++ par) e, a < 2 ^ rs.mm := by
    rw [hs.mm_eq]
    intro a ha
    obtain ⟨p, -, rfl⟩ := List.mem_map.mp ha
    exact Symbol.lt _
  refine ⟨_, _, htake, hdrop.trans hpar.symm, ?_, by rwa [hsplit], ?_, ?_, ?_⟩
  · intro a ha
    exact (hsymbols a (List.mem_of_mem_take ha)).trans_le (Nat.pow_le_pow_right (by decide) hbytes)
  · rw [hsplit]
    intro heq
    have hlt := Finset.mem_range.mp (hQ hq)
    have hget := withErrors_getD e hlt
    rw [heq] at hget
    have hof := congrArg (Symbol.of w) hget
    rw [Symbol.of_val] at hof
    exact hne (add_eq_left.mp hof.symm)
  · rw [hsplit]
    intro p hp
    rcases Nat.lt_or_ge p (data ++ par).length with hlt | hge
    · rw [withErrors_getD e hlt, hout p hp, add_zero, Symbol.val_of (hrange p)]
    · rw [getD_of_length_le hge, getD_of_length_le (by omega)]
  · have hnonempty' : 0 < ((withErrors w (data ++ par) e).take data.length).length := by omega
    intro first
    obtain ⟨-, hsynRange, hsyn⟩ := formSyndromes_spec hs first hnonempty' hdrop
    apply decodeRs_of_vanishing hs hnonempty' (by omega) hdrop
    intro i hi hlt
    rw [← Symbol.of_eq_zero_iff (hsynRange i), hsyn i hlt, hsplit, evalWord_withErrors _ hQ hout, hcode i hlt, zero_add]
    have hpoint := hvanish (i - rs.nroots / 2) (by omega)
    rwa [Nat.add_sub_cancel' hi] at hpoint

end

/-! ## Encoded blocks -/

section
variable {symsize gfpoly fcr prim nroots : ℕ} {mem : Allocated}

/-- **Where errors stay silent.** Errors at the places in `Q` are never reported as none when `Q` has at most half
as many places as there are parity symbols. With two more than that, whichever places they are, there are
errors for which the decoder returns `0` and the damaged data. The data of `decode_rs8` are bytes. -/
theorem silent_errors (h : Initialized symsize gfpoly fcr prim nroots mem rs) (hbytes : symsize ≤ 8) {data : List ℕ}
    (hdata : rs.Takes data)
    {Q : Finset ℕ} (hQ : Q ⊆ Finset.range (data.length + nroots)) :
    (SilentOn rs data (rs.parityOf data) Q → nroots < 2 * Q.card) ∧
      (nroots + 1 < 2 * Q.card → SilentOn rs data (rs.parityOf data) Q) := by
  obtain ⟨hs, hroots, hpos⟩ := h.sound
  obtain ⟨hlen, hrange, hcode⟩ := parityOf_spec hs hpos hdata
  rw [← hroots] at hQ ⊢
  exact ⟨SilentOn.many hs hcode hdata.nonempty hdata.fits hlen hrange,
    fun hmany => silentOn_of_many hs hcode hdata.nonempty hdata.fits hlen hrange hQ hmany (hs.mm_eq.trans_le hbytes)⟩

theorem silent_errors_in_data : SilentOn smallControl [1, 6] (smallControl.parityOf [1, 6]) {0, 1} :=
  (silent_errors small_initialized (by decide) small_takes (by decide)).2 (by decide)

/-- **Encoded blocks are far apart**: different blocks of one length differ in more places than there are parity
symbols. -/
theorem encodings_apart (h : Initialized symsize gfpoly fcr prim nroots mem rs) {data data' : List ℕ}
    (hdata : rs.Takes data) (hdata' : rs.Takes data') (hlen : data.length = data'.length) (hne : data ≠ data') :
    nroots < wrongSymbols (data ++ rs.parityOf data) (data' ++ rs.parityOf data') := by
  obtain ⟨hs, hroots, hpos⟩ := h.sound
  obtain ⟨hpar, hrange, hcode⟩ := parityOf_spec hs hpos hdata
  obtain ⟨hpar', hrange', hcode'⟩ := parityOf_spec hs hpos hdata'
  have hsize : (data ++ rs.parityOf data).length = (data' ++ rs.parityOf data').length := by
    rw [List.length_append, List.length_append, hlen, hpar, hpar']
  have hfits := hdata.fits
  by_contra hfew
  rw [← card_wrongAt_syms hrange hrange' hsize, card_wrongAt (by rw [syms_length, syms_length, hsize])] at hfew
  have hsame := distance rs.fcr (n := rs.nroots) (@beta_ne_zero rs _)
    (hs.beta_injOn (by rw [syms_length, List.length_append, hpar, ← hs.nn_eq]; exact hfits))
    (by rw [syms_length, syms_length, hsize]) (by omega) (fun i hi => (hcode i hi).trans (hcode' i hi).symm)
  apply hne
  apply list_eq_of_getD hlen
  intro q hq
  have hget := congrArg (fun l => l.getD q 0) hsame
  simp only [syms_getD] at hget
  have hget := Symbol.of_inj (hrange q) (hrange' q) hget
  rwa [List.getD_append _ _ _ _ hq, List.getD_append _ _ _ _ (by omega)] at hget

theorem encodings_apart_two_symbols :
    2 < wrongSymbols ([1, 6] ++ smallControl.parityOf [1, 6]) ([1, 5] ++ smallControl.parityOf [1, 5]) :=
  encodings_apart small_initialized small_takes ⟨by decide, by decide, by decide⟩ rfl (by decide)

end

end CiotVlc.Codec
