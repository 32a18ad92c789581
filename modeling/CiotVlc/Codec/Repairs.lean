import CiotVlc.Codec.ErrorValues

/-! # The decoder repairs up to half as many symbols as there are parity symbols

The syndromes of a damaged code word are a sum of geometric sequences, one for each wrong symbol. The decoder
finds the locator of this sum, its roots are the places of the wrong symbols, and the correction at a root is
the error there.
-/
namespace CiotVlc.Codec
open Foundations.ShiftField Foundations.KeyEquation Foundations.RootCode Foundations.BlockCode
open Foundations.BerlekampMassey Polynomial
set_option autoImplicit false

/-- A code word of which at most `nroots / 2` symbols were changed, in a block that fits. -/
structure Damaged (rs : RsControl) (w : ShiftRegister) (data par data' par' : List ℕ) : Prop where
  code : IsCodeWord rs w (data ++ par)
  nonempty : 0 < data.length
  fits : data.length + rs.nroots ≤ rs.nn
  data_length : data'.length = data.length
  par_length : par.length = rs.nroots
  par_length' : par'.length = rs.nroots
  range : InRange w (data ++ par)
  range' : InRange w (data' ++ par')
  few : 2 * wrongSymbols (data ++ par) (data' ++ par') ≤ rs.nroots

/-- The error locator in index form, as the decoder computes it from a received word. -/
def lambdaOf (rs : RsControl) (first : ℕ) (data par : List ℕ) : List ℕ :=
  (berlekampMassey rs ((formSyndromes rs first data par).map rs.index)).lambda.map rs.index

namespace Damaged
variable {rs : RsControl} {w : ShiftRegister} {data par data' par' : List ℕ} {first : ℕ}

/-- The places of the wrong symbols, counted from the first data symbol. -/
noncomputable def places (_ : Damaged rs w data par data' par') : Finset ℕ :=
  wrongAt (syms w (data ++ par)) (syms w (data' ++ par'))

/-- The locators of the places. -/
noncomputable def loc (_ : Damaged rs w data par data' par') : ℕ → Symbol w :=
  position (rs.beta w) (data.length + rs.nroots)

noncomputable def amp (_ : Damaged rs w data par data' par') : ℕ → Symbol w :=
  amplitude (rs.beta w) rs.fcr (syms w (data ++ par)) (syms w (data' ++ par'))

section
variable (hs : Sound rs w) (h : Damaged rs w data par data' par')
include h

theorem length_eq : (data ++ par).length = data.length + rs.nroots := by
  rw [List.length_append, h.par_length]

theorem syms_length_eq : (syms w (data ++ par)).length = (syms w (data' ++ par')).length := by
  simp only [syms_length, List.length_append, h.data_length, h.par_length, h.par_length']

theorem mem_places {q : ℕ} : q ∈ h.places ↔
    q < data.length + rs.nroots ∧ (data ++ par).getD q 0 ≠ (data' ++ par').getD q 0 := by
  rw [places, mem_wrongAt_syms h.range h.range', h.length_eq]

theorem card_places : h.places.card = wrongSymbols (data ++ par) (data' ++ par') := by
  have hlen := h.syms_length_eq
  rw [syms_length, syms_length] at hlen
  exact card_wrongAt_syms h.range h.range' hlen

include hs in
theorem loc_injOn : Set.InjOn h.loc h.places := by
  have hβ : Set.InjOn (fun e => rs.beta w ^ e) (Set.Iio (syms w (data ++ par)).length) := by
    rw [syms_length, h.length_eq]
    exact hs.beta_injOn (by rw [← hs.nn_eq]; exact h.fits)
  have hinj := @position_injOn _ _ _ _ _ (syms w (data' ++ par')) hβ
  rwa [syms_length, h.length_eq] at hinj

omit h in
theorem loc_ne_zero (h : Damaged rs w data par data' par') (q : ℕ) : h.loc q ≠ 0 :=
  position_ne_zero (@beta_ne_zero rs w) _ q

theorem amp_ne_zero {q : ℕ} (hq : q ∈ h.places) : h.amp q ≠ 0 :=
  amplitude_ne_zero rs.fcr (@beta_ne_zero rs w) hq

/-! ## Syndromes and locator -/

variable (first) in
include hs in
theorem syndromes_spec {i : ℕ} (hi : i < rs.nroots) :
    Symbol.of w ((formSyndromes rs first data' par').getD i 0) =
      PowerSeries.coeff i (syndromes h.places h.loc h.amp) := by
  have hnonempty : 0 < data'.length := by
    rw [h.data_length]
    exact h.nonempty
  obtain ⟨-, -, hsyn⟩ := formSyndromes_spec hs first hnonempty h.par_length'
  have hsub := evalWord_sub (β := rs.beta w) rs.fcr h.syms_length_eq i
  rw [← RsControl.root, h.code i hi, sub_zero, syms_length, h.length_eq] at hsub
  rw [hsyn i hi, hsub]
  rfl

variable (first) in
include hs in
theorem holdsSeries : HoldsSeries rs w ((formSyndromes rs first data' par').map rs.index)
    (syndromes h.places h.loc h.amp) := by
  intro j hj
  have hnonempty : 0 < data'.length := by
    rw [h.data_length]
    exact h.nonempty
  obtain ⟨hlen, hrange, -⟩ := formSyndromes_spec hs first hnonempty h.par_length'
  rw [getD_map_of_lt _ (by omega)]
  exact ⟨hs.tables.index_le (hrange j), (hs.tables.ofLog_index (hrange j)).trans (h.syndromes_spec first hs hj)⟩

theorem two_mul_card_le : 2 * h.places.card ≤ rs.nroots := by
  rw [h.card_places]
  exact h.few

variable (first) in
include hs in
theorem lambda_spec : LogForm w rs.nroots (lambdaOf rs first data' par') (locator h.places h.loc) := by
  have hholds := berlekampMassey_holds hs (h.holdsSeries first hs)
  have hconn := run_eq_locator h.two_mul_card_le (h.loc_injOn hs) (fun q _ => h.loc_ne_zero q)
    fun q hq => h.amp_ne_zero hq
  rw [← hconn]
  exact hholds.lambda.log hs

theorem natDegree_le : (locator h.places h.loc).natDegree ≤ rs.nroots := by
  have hcard := h.two_mul_card_le
  have hdegree := natDegree_locator_le h.places h.loc
  omega

/-! ## Roots and places -/

include hs in
/-- A root is at the place whose locator it inverts. -/
theorem chienLoc_of_root {i q : ℕ} (hi : 1 ≤ i) (hq : q < data.length + rs.nroots)
    (hroot : h.loc q * Symbol.alpha w ^ i = 1) :
    chienLoc rs i = rs.nn - (data.length + rs.nroots) + q := by
  have hfits := h.fits
  have hone : rs.beta w ^ (data.length + rs.nroots - 1 - q + rs.iprim * i) = 1 := by
    rw [pow_add, hs.beta_pow_iprim]
    exact hroot
  have hdvd : rs.nn ∣ data.length + rs.nroots - 1 - q + i * rs.iprim := by
    rw [hs.nn_eq, ← Symbol.alpha_pow_eq_one_iff, ← hs.beta_pow_iprim, Nat.mul_comm i, Nat.mul_comm rs.iprim,
      pow_mul, hone, one_pow]
  have hpos : 1 ≤ i * rs.iprim := Nat.mul_pos hi hs.iprim_pos
  have hnn : 0 < rs.nn := by
    rw [hs.nn_eq]
    exact ShiftRegister.order_pos
  have hlt : chienLoc rs i < rs.nn := Nat.mod_lt _ hnn
  have hdiv : rs.nn * ((i * rs.iprim + rs.nn - 1) / rs.nn) + chienLoc rs i = i * rs.iprim + rs.nn - 1 :=
    Nat.div_add_mod ..
  generalize chienLoc rs i = l at hlt hdiv ⊢
  generalize i * rs.iprim = a at hdvd hpos hdiv
  -- What is left of the multiple of `nn` is a multiple between zero and two times `nn`.
  have hrest : rs.nn ∣ data.length + rs.nroots - q + l := by
    have hsum : data.length + rs.nroots - q + l + rs.nn * ((a + rs.nn - 1) / rs.nn) =
        data.length + rs.nroots - 1 - q + a + rs.nn := by omega
    exact (Nat.dvd_add_left (Nat.dvd_mul_right _ _)).mp (hsum ▸ Nat.dvd_add hdvd (Nat.dvd_refl _))
  obtain ⟨m, hm⟩ := hrest
  obtain rfl : m = 1 := by
    by_contra hne
    rcases Nat.lt_or_ge m 1 with hm0 | hm2
    · obtain rfl : m = 0 := by omega
      omega
    · have hle := Nat.mul_le_mul_left rs.nn (show 2 ≤ m by omega)
      omega
  omega

noncomputable def roots : List ℕ := rootsAmong (locator h.places h.loc) (tried rs)

theorem place_of_root {i : ℕ} (hi : i ∈ h.roots) :
    1 ≤ i ∧ i ≤ rs.nn ∧ ∃ q ∈ h.places, h.loc q * Symbol.alpha w ^ i = 1 := by
  obtain ⟨htried, hroot⟩ := mem_rootsAmong.mp hi
  obtain ⟨h1, hle⟩ := mem_tried.mp htried
  exact ⟨h1, hle, locator_eval_eq_zero_iff.mp hroot⟩

include hs in
theorem root_of_place {q : ℕ} (hq : q ∈ h.places) : ∃ i ∈ h.roots, h.loc q * Symbol.alpha w ^ i = 1 := by
  obtain ⟨i, hi, hpow⟩ := Symbol.exists_alpha_pow (inv_ne_zero (h.loc_ne_zero q))
  have hone : h.loc q * Symbol.alpha w ^ i = 1 := by
    rw [hpow]
    exact mul_inv_cancel₀ (h.loc_ne_zero q)
  -- The power `0` is tried last, as `nn`.
  rcases Nat.eq_zero_or_pos i with rfl | hpos
  · have hround : Symbol.alpha w ^ rs.nn = Symbol.alpha w ^ 0 := by
      rw [hs.nn_eq, Symbol.alpha_pow_eq_one_iff.mpr (Nat.dvd_refl _), pow_zero]
    have hnn : 1 ≤ rs.nn := by
      rw [hs.nn_eq]
      exact ShiftRegister.order_pos
    refine ⟨rs.nn, mem_rootsAmong.mpr ⟨mem_tried.mpr ⟨hnn, le_rfl⟩, ?_⟩, by rw [hround]; exact hone⟩
    rw [hround]
    exact locator_eval_eq_zero_iff.mpr ⟨q, hq, hone⟩
  · refine ⟨i, mem_rootsAmong.mpr ⟨mem_tried.mpr ⟨hpos, by rw [hs.nn_eq]; omega⟩, ?_⟩, hone⟩
    exact locator_eval_eq_zero_iff.mpr ⟨q, hq, hone⟩

include hs in
theorem roots_length : h.roots.length = h.places.card ∧
    (locator h.places h.loc).natDegree = h.places.card := by
  have hone := coeff_zero_locator h.places h.loc
  have hne : locator h.places h.loc ≠ 0 := by
    intro hzero
    rw [hzero, coeff_zero] at hone
    exact zero_ne_one hone
  have hupper : h.roots.length ≤ (locator h.places h.loc).natDegree := rootsAmong_tried_length_le hs hne
  have hdegree := natDegree_locator_le h.places h.loc
  -- Different places have different roots.
  have hlower : h.places.card ≤ h.roots.toFinset.card := by
    choose f hf using fun q (hq : q ∈ h.places) => h.root_of_place hs hq
    apply Finset.card_le_card_of_injOn (fun q => if hq : q ∈ h.places then f q hq else 0)
    · intro q hq
      have hq : q ∈ h.places := hq
      simp only [dif_pos hq]
      exact List.mem_toFinset.mpr (hf q hq).1
    · intro q hq q' hq' heq
      have hq : q ∈ h.places := hq
      have hq' : q' ∈ h.places := hq'
      simp only [dif_pos hq, dif_pos hq'] at heq
      apply h.loc_injOn hs hq hq'
      have hleft := (hf q hq).2
      rw [heq] at hleft
      exact mul_right_cancel₀ (pow_ne_zero _ Symbol.alpha_ne_zero) (hleft.trans (hf q' hq').2.symm)
  have hcard := List.toFinset_card_le h.roots
  exact ⟨by omega, by omega⟩

/-! ## The error at a root -/

/-- `omega` as the decoder computes it. -/
noncomputable def omega (first : ℕ) : List ℕ :=
  evaluatorPoly rs ((formSyndromes rs first data' par').map rs.index) (lambdaOf rs first data' par') h.places.card

include hs in
theorem correction_eq {i q : ℕ} (hi : i ≤ rs.nn) (hq : q ∈ h.places) (hroot : h.loc q * Symbol.alpha w ^ i = 1) :
    evaluatorAt rs (h.omega first) h.places.card i ≠ 0 ∧
      Symbol.of w (correction rs (lambdaOf rs first data' par') (h.omega first) h.places.card i) =
        Symbol.of w ((data' ++ par').getD q 0) + Symbol.of w ((data ++ par).getD q 0) := by
  have hx := h.loc_ne_zero q
  have hz : Symbol.alpha w ^ i = (h.loc q)⁻¹ := eq_inv_of_mul_eq_one_right hroot
  have hcard := h.two_mul_card_le
  have hdegree := (h.roots_length hs).2
  have homega : ∀ j < h.places.card, ofLog w ((h.omega first).getD j 0) = (evaluator h.places h.loc h.amp).coeff j := by
    intro j hj
    rw [omega, (evaluatorPoly_spec hs (h.holdsSeries first hs) (h.lambda_spec first hs) (by omega) hj).2, key_equation, coeff_coe]
  obtain ⟨hnumlt, hnum⟩ := evaluatorAt_spec hs i homega fun j hj => evaluator_coeff_eq_zero hj
  have hpos : 0 < rs.nroots := by
    have := Finset.card_pos.mpr ⟨q, hq⟩
    omega
  obtain ⟨hdenlt, hden⟩ := derivativeAt_spec hs hpos (h.lambda_spec first hs) h.natDegree_le i
  rw [hdegree] at hdenlt hden
  rw [hz] at hnum hden
  have hnum0 : evaluatorAt rs (h.omega first) h.places.card i ≠ 0 := by
    rw [Ne, ← Symbol.of_eq_zero_iff hnumlt, hnum]
    exact evaluator_eval_ne_zero (h.loc_injOn hs) hq hx (h.amp_ne_zero hq)
  have hderiv := derivative_locator_eval_inv hq hx
  have herase := locator_erase_eval_ne_zero (h.loc_injOn hs) hq hx
  have hden0 : derivativeAt rs (lambdaOf rs first data' par') h.places.card i ≠ 0 := by
    rw [Ne, ← Symbol.of_eq_zero_iff hdenlt, hden, hderiv]
    exact mul_ne_zero (neg_ne_zero.mpr hx) herase
  have hcor := correction_spec hs hi hnumlt hnum0 hdenlt hden0
  refine ⟨hnum0, ?_⟩
  -- The error is the amplitude without its power of the locator.
  have hamp : h.amp q = (Symbol.of w ((data' ++ par').getD q 0) + Symbol.of w ((data ++ par).getD q 0)) *
      h.loc q ^ rs.fcr := by
    rw [amp, amplitude, syms_getD, syms_getD, syms_length, h.length_eq, Symbol.sub_eq_add']
    rfl
  rw [hnum, hden, hderiv, evaluator_eval_inv hq hx, hamp, hz] at hcor
  have hpowx : h.loc q ^ rs.fcr ≠ 0 := pow_ne_zero _ hx
  rw [inv_pow, Symbol.neg_eq] at hcor
  apply mul_right_cancel₀ herase
  calc Symbol.of w (correction rs (lambdaOf rs first data' par') (h.omega first) h.places.card i) * (locator (h.places.erase q) h.loc).eval (h.loc q)⁻¹
      = Symbol.of w (correction rs (lambdaOf rs first data' par') (h.omega first) h.places.card i) *
          (h.loc q * (locator (h.places.erase q) h.loc).eval (h.loc q)⁻¹) * (h.loc q)⁻¹ := by
        field_simp
    _ = _ := by
        rw [hcor]
        field_simp

include hs in
theorem applyError_spec {i q : ℕ} (hi : i ∈ h.roots) (hq : q ∈ h.places)
    (hroot : h.loc q * Symbol.alpha w ^ i = 1) {d : List ℕ} (hlen : d.length = data.length)
    (hsame : q < data.length → d.getD q 0 = data'.getD q 0) :
    applyError rs (lambdaOf rs first data' par') (h.omega first) h.places.card (rs.nn - (data.length + rs.nroots)) d (i, chienLoc rs i) =
      if q < data.length then d.set q (data.getD q 0) else d := by
  obtain ⟨h1, hle, -⟩ := h.place_of_root hi
  have hfits := h.fits
  have hqlt := (h.mem_places.mp hq).1
  obtain ⟨hnum, hcor⟩ := h.correction_eq hs hle hq hroot
  rw [applyError, h.chienLoc_of_root hs h1 hqlt hroot]
  rw [if_pos ⟨hnum, by omega⟩, Nat.add_sub_cancel_left]
  by_cases hdata : q < data.length
  · rw [if_pos hdata, if_pos (by omega)]
    congr 1
    have hleft : (data ++ par).getD q 0 = data.getD q 0 := List.getD_append _ _ _ _ hdata
    have hleft' : (data' ++ par').getD q 0 = data'.getD q 0 :=
      List.getD_append _ _ _ _ (by rw [h.data_length]; exact hdata)
    have hrange := h.range q
    have hrange' := h.range' q
    rw [hleft] at hrange
    rw [hleft'] at hrange'
    rw [hsame hdata]
    apply Symbol.of_inj (w := w) (Nat.xor_lt_two_pow hrange' (correction_lt hs ..)) hrange
    rw [Symbol.of_xor, hcor, hleft, hleft', ← add_assoc, Symbol.add_self, zero_add]
  · rw [if_neg hdata, if_neg (by omega)]

include hs in
/-- The loop over the roots repairs the symbols at their places and no others. -/
theorem applyErrors_spec (is : List ℕ) (hsub : ∀ i ∈ is, i ∈ h.roots) (hnodup : is.Nodup) :
    let d := (is.map fun i => (i, chienLoc rs i)).foldl
      (applyError rs (lambdaOf rs first data' par') (h.omega first) h.places.card (rs.nn - (data.length + rs.nroots))) data'
    d.length = data.length ∧ ∀ q < data.length,
      d.getD q 0 = data'.getD q 0 ∧ (∀ i ∈ is, h.loc q * Symbol.alpha w ^ i ≠ 1) ∨
        d.getD q 0 = data.getD q 0 ∧ ∃ i ∈ is, h.loc q * Symbol.alpha w ^ i = 1 := by
  induction is using List.reverseRecOn with
  | nil => exact ⟨h.data_length, fun q _ => Or.inl ⟨rfl, fun i hi => absurd hi List.not_mem_nil⟩⟩
  | append_singleton is i ih =>
    have hnodup' := List.nodup_append.mp hnodup
    obtain ⟨hlen, hget⟩ := ih (fun j hj => hsub j (List.mem_append_left _ hj)) hnodup'.1
    have hi := hsub i (by simp)
    obtain ⟨h1, hle, q, hq, hroot⟩ := h.place_of_root hi
    rw [List.map_append, List.foldl_append]
    generalize (is.map fun i => (i, chienLoc rs i)).foldl
      (applyError rs (lambdaOf rs first data' par') (h.omega first) h.places.card (rs.nn - (data.length + rs.nroots))) data' = d at hlen hget ⊢
    -- Another root of the same place would be the same power.
    have hfresh : ∀ j ∈ is, h.loc q * Symbol.alpha w ^ j ≠ 1 := by
      intro j hj hroot'
      have hpow : Symbol.alpha w ^ j = Symbol.alpha w ^ i :=
        mul_left_cancel₀ (h.loc_ne_zero q) (hroot'.trans hroot.symm)
      have htried := (mem_rootsAmong.mp (hsub j (List.mem_append_left _ hj))).1
      have heq := alpha_pow_injOn_tried hs htried (mem_rootsAmong.mp hi).1 hpow
      exact hnodup'.2.2 j hj i (List.mem_singleton_self i) heq
    have hsame : q < data.length → d.getD q 0 = data'.getD q 0 := by
      intro hlt
      rcases hget q hlt with ⟨heq, -⟩ | ⟨-, j, hj, hroot'⟩
      · exact heq
      · exact absurd hroot' (hfresh j hj)
    simp only [List.map_cons, List.map_nil, List.foldl_cons, List.foldl_nil]
    rw [h.applyError_spec hs hi hq hroot hlen hsame]
    refine ⟨by split <;> simp [hlen], fun q' hq' => ?_⟩
    by_cases hqq : q' = q
    · subst hqq
      refine Or.inr ⟨?_, i, by simp, hroot⟩
      rw [if_pos hq', getD_set (by omega), if_pos rfl]
    · have hkeep : (if q < data.length then d.set q (data.getD q 0) else d).getD q' 0 = d.getD q' 0 := by
        split
        · next hlt => rw [getD_set (by omega), if_neg hqq]
        · rfl
      have hnot : h.loc q' * Symbol.alpha w ^ i ≠ 1 := by
        intro hroot'
        have heq : h.loc q' = h.loc q :=
          mul_right_cancel₀ (pow_ne_zero i Symbol.alpha_ne_zero) (hroot'.trans hroot.symm)
        have hlocs := h.chienLoc_of_root hs h1 (by omega) hroot'
        rw [h.chienLoc_of_root hs h1 (h.mem_places.mp hq).1 hroot] at hlocs
        omega
      rw [hkeep]
      rcases hget q' hq' with ⟨heq, hnone⟩ | ⟨heq, j, hj, hroot'⟩
      · refine Or.inl ⟨heq, fun j hj => ?_⟩
        rcases List.mem_append.mp hj with hj | hj
        · exact hnone j hj
        · rw [List.mem_singleton.mp hj]
          exact hnot
      · exact Or.inr ⟨heq, j, List.mem_append_left _ hj, hroot'⟩

end

end Damaged

/-! ## The whole decoder -/

section
variable {rs : RsControl} {w : ShiftRegister} {data par data' par' : List ℕ}

theorem eq_of_places_empty (h : Damaged rs w data par data' par') (hempty : h.places = ∅) : data' = data := by
  apply list_eq_of_getD h.data_length
  intro q hq
  rw [h.data_length] at hq
  by_contra hne
  have hmem : q ∈ h.places := by
    rw [h.mem_places, List.getD_append _ _ _ _ hq, List.getD_append _ _ _ _ (by rw [h.data_length]; exact hq)]
    exact ⟨by omega, fun heq => hne heq.symm⟩
  rw [hempty] at hmem
  exact Finset.notMem_empty q hmem

theorem correctErrors_spec (hs : Sound rs w) (h : Damaged rs w data par data' par') (first : ℕ) :
    correctErrors rs ((formSyndromes rs first data' par').map rs.index) data' (rs.nn - (data.length + rs.nroots)) =
      (data, (wrongSymbols (data ++ par) (data' ++ par') : ℤ)) := by
  obtain ⟨hroots, hdegree⟩ := h.roots_length hs
  have hone := coeff_zero_locator h.places h.loc
  have hsearch := chienSearch_tried hs hone h.natDegree_le (h.lambda_spec first hs)
  have hdeg := degLambda_spec hs (h.lambda_spec first hs) hone h.natDegree_le
  rw [correctErrors]
  dsimp only
  rw [← lambdaOf, hdeg, ← tried, hsearch, hdegree, List.length_map, ← Damaged.roots, hroots, if_neg (not_not.mpr rfl),
    h.card_places]
  refine Prod.ext ?_ rfl
  dsimp only
  rw [← List.map_reverse, ← h.card_places]
  obtain ⟨hlen, hget⟩ := h.applyErrors_spec hs h.roots.reverse (fun i hi => List.mem_reverse.mp hi)
    (List.nodup_reverse.mpr rootsAmong_tried_nodup)
  apply list_eq_of_getD hlen
  intro q hq
  rw [hlen] at hq
  rcases hget q hq with ⟨heq, hnone⟩ | ⟨heq, -⟩
  · -- No root at this place: the symbol was received as it was sent.
    refine heq.trans ?_
    by_contra hne
    have hmem : q ∈ h.places := by
      rw [h.mem_places, List.getD_append _ _ _ _ hq, List.getD_append _ _ _ _ (by rw [h.data_length]; exact hq)]
      exact ⟨by omega, fun heq => hne heq.symm⟩
    obtain ⟨i, hi, hroot⟩ := h.root_of_place hs hmem
    exact hnone i (List.mem_reverse.mpr hi) hroot
  · exact heq

theorem decodeRs_repairs (hs : Sound rs w) (h : Damaged rs w data par data' par') (first : ℕ) :
    decodeRs rs first data' par' = some (data, (wrongSymbols (data ++ par) (data' ++ par') : ℤ)) := by
  have hfits := h.fits
  have hnonempty := h.nonempty
  have hpad : rs.pad data'.length = ((rs.nn - (data.length + rs.nroots) : ℕ) : ℤ) := by
    rw [RsControl.pad, h.data_length]
    omega
  rw [decodeRs, hpad, if_neg (by omega)]
  dsimp only
  split
  case isTrue hzero =>
    -- All syndromes are zero: no symbol is wrong.
    have hempty : h.places = ∅ := by
      apply eq_empty_of_syndromes_zero (n := rs.nroots) (by have := h.two_mul_card_le; omega) _ (h.loc_injOn hs)
        (fun q _ => h.loc_ne_zero q) fun q hq => h.amp_ne_zero hq
      intro i hi
      obtain ⟨hlen, -, -⟩ := formSyndromes_spec hs first (by rw [h.data_length]; exact hnonempty) h.par_length'
      rw [← h.syndromes_spec first hs hi, List.getD_eq_getElem _ _ (by omega),
        of_decide_eq_true (List.all_eq_true.mp hzero _ (List.getElem_mem _)), Symbol.of_zero]
    rw [← h.card_places, hempty, eq_of_places_empty h hempty]
    rfl
  case isFalse _ =>
    rw [Int.toNat_natCast, correctErrors_spec hs h first]

end

/-! ## Encoding, damage, decoding -/

section
variable {symsize gfpoly fcr prim nroots : ℕ} {mem : Allocated} {rs : RsControl}

/-- **The library restores an encoded block** of which at most half as many symbols are wrong as it has parity
symbols, and counts the wrong ones, whatever field, roots and memory the control structure was made with. -/
theorem decodeRs_restores (h : Initialized symsize gfpoly fcr prim nroots mem rs) (first : ℕ) {data data' par' : List ℕ}
    (hdata : rs.Takes data) (hdata' : data'.length = data.length) (hpar' : par'.length = rs.nroots)
    (hsymbols : ∀ a ∈ data' ++ par', a < 2 ^ rs.mm)
    (hfew : 2 * wrongSymbols (data ++ rs.parityOf data) (data' ++ par') ≤ rs.nroots) :
    decodeRs rs first data' par' = some (data, (wrongSymbols (data ++ rs.parityOf data) (data' ++ par') : ℤ)) := by
  obtain ⟨hs, -, hpos⟩ := h.sound
  obtain ⟨hlen, hrange, hcode⟩ := parityOf_spec hs hpos hdata
  rw [hs.mm_eq] at hsymbols
  have hdamaged : Damaged rs _ data (rs.parityOf data) data' par' :=
    ⟨hcode, hdata.nonempty, hdata.fits, hdata', hlen, hpar', hrange, inRange_of_mem hsymbols, hfew⟩
  exact decodeRs_repairs hs hdamaged first

theorem small_takes : smallControl.Takes [1, 6] := ⟨by decide, by decide, by decide⟩

theorem decodeRs_restores_two_symbols :
    decodeRs smallControl 5 [5, 6] (smallControl.parityOf [1, 6]) = some ([1, 6], 1) :=
  decodeRs_restores small_initialized 5 small_takes rfl (by decide +kernel) (by decide +kernel) (by decide +kernel)

end

end CiotVlc.Codec
