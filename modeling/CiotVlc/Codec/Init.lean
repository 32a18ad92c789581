import CiotVlc.Codec.Encode
import CiotVlc.Codec.Generator
import CiotVlc.Foundations.RootCode

/-! # What `rs_init` returns

For a primitive polynomial the control structure is `Sound`, whatever the arrays held when they were
allocated. For any other polynomial that passes the check of `rs_init` it is not determined at all.
-/
namespace CiotVlc.Codec
open Foundations.ShiftField Foundations.RootCode Polynomial
set_option autoImplicit false

/-! ## The inverse of `prim` -/

section
variable {nn prim : ℕ}

theorem findIprim_some {fuel x k : ℕ} (h : findIprim nn prim fuel x = some k) :
    ∃ m < fuel, x + m * nn = k * prim := by
  induction fuel generalizing x with
  | zero => exact absurd h nofun
  | succ fuel ih =>
    rw [findIprim] at h
    split at h
    · obtain ⟨m, hm, heq⟩ := ih h
      exact ⟨m + 1, by omega, by rw [Nat.succ_mul]; omega⟩
    · next hdvd =>
      have hzero : x % prim = 0 := not_ne_iff.mp hdvd
      obtain rfl : x / prim = k := Option.some.inj h
      exact ⟨0, by omega, by rw [Nat.zero_mul, Nat.add_zero, Nat.div_mul_cancel (Nat.dvd_of_mod_eq_zero hzero)]⟩

theorem findIprim_of_dvd {fuel x m : ℕ} (hm : m < fuel) (hdvd : prim ∣ x + m * nn) :
    ∃ k, findIprim nn prim fuel x = some k := by
  induction fuel generalizing x m with
  | zero => exact absurd hm (Nat.not_lt_zero m)
  | succ fuel ih =>
    rw [findIprim]
    split
    · next hne =>
      cases m with
      | zero =>
        rw [Nat.zero_mul, Nat.add_zero] at hdvd
        exact absurd (Nat.mod_eq_zero_of_dvd hdvd) hne
      | succ m =>
        rw [Nat.succ_mul, Nat.add_comm (m * nn), ← Nat.add_assoc] at hdvd
        exact ih (Nat.lt_of_succ_lt_succ hm) hdvd
    · exact ⟨_, rfl⟩

/-- The loop ends exactly when `prim` has an inverse. -/
theorem findIprim_isSome_iff (hprim : 0 < prim) :
    (∃ k, findIprim nn prim prim 1 = some k) ↔ Nat.Coprime prim nn := by
  constructor
  · rintro ⟨k, hk⟩
    obtain ⟨m, -, heq⟩ := findIprim_some hk
    have hdvd : prim.gcd nn ∣ 1 := by
      apply (Nat.dvd_add_left (Dvd.dvd.mul_left (Nat.gcd_dvd_right prim nn) m)).mp
      rw [heq]
      exact Dvd.dvd.mul_left (Nat.gcd_dvd_left prim nn) k
    exact Nat.dvd_one.mp hdvd
  · intro hcop
    obtain ⟨m, hm⟩ : ∃ m, prim ∣ 1 + m * nn := by
      rcases Nat.lt_or_ge 1 prim with hlt | hle
      · obtain ⟨m, -, hm⟩ := Nat.exists_mul_mod_eq_one_of_coprime hcop.symm hlt
        -- `prim - 1` times the inverse of `nn` is the inverse of `-nn`.
        refine ⟨m * (prim - 1), nn * m / prim * (prim - 1) + 1, ?_⟩
        have hdiv := Nat.div_add_mod (nn * m) prim
        rw [hm] at hdiv
        obtain ⟨p, rfl⟩ : ∃ p, prim = p + 1 := ⟨prim - 1, by omega⟩
        rw [Nat.add_sub_cancel]
        calc 1 + m * p * nn = 1 + nn * m * p := by ring
          _ = 1 + ((p + 1) * (nn * m / (p + 1)) + 1) * p := by rw [hdiv]
          _ = (p + 1) * (nn * m / (p + 1) * p + 1) := by ring
      · obtain rfl : prim = 1 := by omega
        exact ⟨0, Nat.one_dvd _⟩
    refine findIprim_of_dvd (m := m % prim) (Nat.mod_lt _ hprim) ?_
    rw [Nat.dvd_iff_mod_eq_zero, Nat.add_mod, Nat.mod_mul_mod, ← Nat.add_mod]
    exact Nat.mod_eq_zero_of_dvd hm

end

/-! ## Control structures of a primitive polynomial -/

structure Sound (rs : RsControl) (w : ShiftRegister) : Prop where
  tables : LogTables w rs.alphaTo rs.indexOf
  mm_eq : rs.mm = w.bits
  nn_eq : rs.nn = w.order
  genpoly : ∀ j ≤ rs.nroots, rs.genpoly.getD j 0 ≤ w.order ∧
    ofLog w (rs.genpoly.getD j 0) = (generator w rs.fcr rs.prim rs.nroots).coeff j
  iprim_pos : 0 < rs.iprim
  iprim_le : rs.iprim ≤ w.order
  iprim_mul : rs.iprim * rs.prim % w.order = 1 % w.order

/-- Arguments that `init_rs` takes and for which the words of the library hold what the model keeps in ℕ: the
entries of the tables fit into `uint16_t`, and the exponents into `int`. Up to symbols of 15 bits only the checks
of `init_rs` are left. -/
structure FitsWords (symsize fcr prim nroots : ℕ) : Prop where
  symsize_pos : 0 < symsize
  symsize_le : symsize ≤ 16
  fcr_lt : fcr < 2 ^ min symsize 15
  prim_pos : 0 < prim
  prim_lt : prim < 2 ^ min symsize 15
  nroots_lt : nroots < 2 ^ min symsize 15

/-- The arrays have the sizes that `rs_init` asks for. -/
def Allocated.Sized (mem : Allocated) (symsize nroots : ℕ) : Prop :=
  mem.alphaTo.length = 2 ^ symsize ∧ mem.indexOf.length = 2 ^ symsize ∧ mem.genpoly.length = nroots + 1

section
variable {symsize gfpoly fcr prim nroots : ℕ} {mem : Allocated} {rs : RsControl}

theorem getD_map_of_lt {l : List ℕ} (f : ℕ → ℕ) {j : ℕ} (hj : j < l.length) :
    (l.map f).getD j 0 = f (l.getD j 0) := by
  rw [List.getD_eq_getElem _ _ (by simpa using hj), List.getElem_map, List.getD_eq_getElem _ _ hj]

theorem rsInit_sound (hsym : 0 < symsize) (h : Primitive symsize gfpoly) (hmem : mem.Sized symsize nroots)
    (hprim : 0 < prim) (hinit : rsInit symsize gfpoly fcr prim nroots mem = .ok rs) :
    Sound rs (fieldRegister hsym h) ∧ rs.fcr = fcr ∧ rs.prim = prim ∧ rs.nroots = nroots := by
  obtain ⟨halpha, hindex, hgen⟩ := hmem
  have htables := galoisTables_sound hsym h halpha hindex
  rw [rsInit] at hinit
  generalize galoisTables symsize gfpoly mem.alphaTo mem.indexOf = t at htables hinit
  dsimp only at hinit
  split at hinit
  · exact absurd hinit nofun
  · split at hinit
    · exact absurd hinit nofun
    · next iprim hiprim =>
      obtain rfl := Except.ok.inj hinit
      obtain ⟨hlen, hholds⟩ := generatorPoly_holds fcr prim htables hgen
      obtain ⟨m, hm, heq⟩ := findIprim_some hiprim
      have horder : (fieldRegister hsym h).order = 2 ^ symsize - 1 := rfl
      have hpos := ShiftRegister.order_pos (w := fieldRegister hsym h)
      refine ⟨⟨htables, rfl, rfl, ?_, ?_, ?_, ?_⟩, rfl, rfl, rfl⟩
      · intro j hj
        obtain ⟨hlt, hcoeff⟩ := hholds j hj
        have hlen' : (generatorPoly symsize (2 ^ symsize - 1) t fcr prim nroots mem.genpoly).length = nroots + 1 := hlen
        have hj' : j < (generatorPoly symsize (2 ^ symsize - 1) t fcr prim nroots mem.genpoly).length := by
          rw [hlen']
          exact Nat.lt_succ_of_le hj
        rw [getD_map_of_lt _ hj']
        exact ⟨htables.index_le hlt, (htables.ofLog_index hlt).trans hcoeff⟩
      · apply Nat.pos_of_ne_zero
        rintro rfl
        omega
      · have hnn : 0 < 2 ^ symsize - 1 := hpos
        apply Nat.le_of_mul_le_mul_right _ hprim
        calc iprim * prim = 1 + m * (2 ^ symsize - 1) := heq.symm
          _ ≤ (m + 1) * (2 ^ symsize - 1) := by rw [Nat.succ_mul]; omega
          _ ≤ prim * (2 ^ symsize - 1) := Nat.mul_le_mul_right _ hm
          _ = (fieldRegister hsym h).order * prim := by rw [horder, Nat.mul_comm]
      · rw [horder, ← heq]
        exact Nat.add_mul_mod_self_right ..

/-- `rs_init` made this control structure from a primitive polynomial. -/
structure Initialized (symsize gfpoly fcr prim nroots : ℕ) (mem : Allocated) (rs : RsControl) : Prop where
  fits : FitsWords symsize fcr prim nroots
  primitive : Primitive symsize gfpoly
  sized : mem.Sized symsize nroots
  nroots_pos : 0 < nroots
  init : rsInit symsize gfpoly fcr prim nroots mem = .ok rs

theorem Initialized.sound (h : Initialized symsize gfpoly fcr prim nroots mem rs) :
    Sound rs (fieldRegister h.fits.symsize_pos h.primitive) ∧ rs.nroots = nroots ∧ 0 < rs.nroots := by
  obtain ⟨hs, -, -, hroots⟩ := rsInit_sound h.fits.symsize_pos h.primitive h.sized h.fits.prim_pos h.init
  have hpos := h.nroots_pos
  exact ⟨hs, hroots, by omega⟩

end

theorem small_initialized : Initialized 3 11 0 1 2 smallMemory smallControl where
  fits := ⟨by decide, by decide, by decide, by decide, by decide, by decide⟩
  primitive := by
    have hrounds : ∀ i < 7, 0 < i → srAt 3 11 i ≠ 1 := by decide
    exact ⟨by decide, fun i hpos hlt => hrounds i hlt hpos⟩
  sized := ⟨rfl, rfl, rfl⟩
  nroots_pos := by decide
  init := smallControl_init

/-! ## What the check of `rs_init` lets through -/

section
variable {symsize gfpoly fcr prim nroots : ℕ} {mem mem' : Allocated}

theorem galoisTables_sr (alpha₀ index₀ : List ℕ) :
    (galoisTables symsize gfpoly alpha₀ index₀).sr = srAt symsize gfpoly (2 ^ symsize - 1) :=
  fillTables_sr rfl _

theorem galoisTables_alphaTo_zero (hsym : 0 < symsize) {alpha₀ index₀ : List ℕ}
    (halpha : alpha₀.length = 2 ^ symsize) : (galoisTables symsize gfpoly alpha₀ index₀).alphaTo.getD 0 0 = 1 := by
  have hpos := Nat.one_lt_two_pow (n := symsize) (by omega)
  rw [galoisTables_eq, fillTables_alphaTo rfl (by simp only [List.length_set]; omega), if_pos (by omega)]
  rfl

theorem rsInit_eq_ok (fcr : ℕ) (hsym : 0 < symsize) (hprim : 0 < prim) (hmem : mem.Sized symsize nroots)
    (hcycles : srAt symsize gfpoly (2 ^ symsize - 1) = 1) (hcop : Nat.Coprime prim (2 ^ symsize - 1)) :
    ∃ rs, rsInit symsize gfpoly fcr prim nroots mem = .ok rs ∧
      rs.indexOf = (galoisTables symsize gfpoly mem.alphaTo mem.indexOf).indexOf := by
  obtain ⟨iprim, hiprim⟩ := (findIprim_isSome_iff hprim).mpr hcop
  rw [rsInit]
  dsimp only
  rw [galoisTables_sr, galoisTables_alphaTo_zero hsym hmem.1, hcycles, if_neg (fun h => h rfl), hiprim]
  exact ⟨_, rfl, rfl⟩

theorem rsInit_accepts_iff (hsym : 0 < symsize) (hprim : 0 < prim) (hmem : mem.Sized symsize nroots) :
    (∃ rs, rsInit symsize gfpoly fcr prim nroots mem = .ok rs) ↔
      srAt symsize gfpoly (2 ^ symsize - 1) = 1 ∧ Nat.Coprime prim (2 ^ symsize - 1) := by
  constructor
  · rintro ⟨rs, hrs⟩
    rw [rsInit] at hrs
    dsimp only at hrs
    rw [galoisTables_sr, galoisTables_alphaTo_zero hsym hmem.1] at hrs
    split at hrs
    · exact absurd hrs nofun
    · next hcycles =>
      refine ⟨not_ne_iff.mp hcycles, ?_⟩
      split at hrs
      · exact absurd hrs nofun
      · next iprim hiprim => exact (findIprim_isSome_iff hprim).mp ⟨iprim, hiprim⟩
  · rintro ⟨hcycles, hcop⟩
    obtain ⟨rs, hrs, -⟩ := rsInit_eq_ok fcr hsym hprim hmem hcycles hcop
    exact ⟨rs, hrs⟩

theorem list_eq_of_getD {l l' : List ℕ} (hlen : l.length = l'.length) (h : ∀ j < l.length, l.getD j 0 = l'.getD j 0) :
    l = l' := by
  apply List.ext_getElem hlen
  intro j hj hj'
  have heq := h j hj
  rwa [List.getD_eq_getElem _ _ hj, List.getD_eq_getElem _ _ hj'] at heq

theorem LogTables.unique {w : ShiftRegister} {alphaTo indexOf alphaTo' indexOf' : List ℕ}
    (h : LogTables w alphaTo indexOf) (h' : LogTables w alphaTo' indexOf')
    (halpha : alphaTo.length = 2 ^ w.bits) (halpha' : alphaTo'.length = 2 ^ w.bits)
    (hindex : indexOf.length = 2 ^ w.bits) (hindex' : indexOf'.length = 2 ^ w.bits) :
    alphaTo = alphaTo' ∧ indexOf = indexOf' := by
  constructor
  · apply list_eq_of_getD (by rw [halpha, halpha'])
    intro j hj
    rcases Nat.lt_or_eq_of_le (ShiftRegister.lt_pow_iff.mp (by rwa [halpha] at hj)) with hlt | rfl
    · rw [h.alphaTo_power j hlt, h'.alphaTo_power j hlt]
    · rw [h.alphaTo_order, h'.alphaTo_order]
  · apply list_eq_of_getD (by rw [hindex, hindex'])
    intro a ha
    rcases Nat.eq_zero_or_pos a with rfl | hpos
    · rw [h.indexOf_zero, h'.indexOf_zero]
    · obtain ⟨i, hi, rfl⟩ := ShiftRegister.exists_power hpos (by rwa [hindex] at ha)
      rw [h.indexOf_power i hi, h'.indexOf_power i hi]

theorem HoldsFactors.unique {w : ShiftRegister} {n : ℕ} {g g' : List ℕ} (h : HoldsFactors w fcr prim n g)
    (h' : HoldsFactors w fcr prim n g') (hlen : g.length = n + 1) (hlen' : g'.length = n + 1) : g = g' := by
  apply list_eq_of_getD (by rw [hlen, hlen'])
  intro j hj
  obtain ⟨hlt, hcoeff⟩ := h j (by omega)
  obtain ⟨hlt', hcoeff'⟩ := h' j (by omega)
  exact Symbol.of_inj hlt hlt' (hcoeff.trans hcoeff'.symm)

theorem rsInit_eq_of_primitive (hsym : 0 < symsize) (h : Primitive symsize gfpoly) (hmem : mem.Sized symsize nroots)
    (hmem' : mem'.Sized symsize nroots) :
    rsInit symsize gfpoly fcr prim nroots mem = rsInit symsize gfpoly fcr prim nroots mem' := by
  obtain ⟨halpha, hindex, hgen⟩ := hmem
  obtain ⟨halpha', hindex', hgen'⟩ := hmem'
  have ht := galoisTables_sound hsym h halpha hindex
  have ht' := galoisTables_sound hsym h halpha' hindex'
  have hlengths := fun (alpha₀ index₀ : List ℕ) => @fillTables_lengths symsize gfpoly
    { alphaTo := alpha₀.set (2 ^ symsize - 1) 0, indexOf := index₀.set 0 (2 ^ symsize - 1), sr := 1 }
    (2 ^ symsize - 1)
  simp only [← galoisTables_eq, List.length_set] at hlengths
  have hsame := ht.unique ht' ((hlengths _ _).1.trans halpha) ((hlengths _ _).1.trans halpha')
    ((hlengths _ _).2.trans hindex) ((hlengths _ _).2.trans hindex')
  have htables : galoisTables symsize gfpoly mem.alphaTo mem.indexOf =
      galoisTables symsize gfpoly mem'.alphaTo mem'.indexOf := by
    have hsr := (@galoisTables_sr symsize gfpoly mem.alphaTo mem.indexOf).trans
      (@galoisTables_sr symsize gfpoly mem'.alphaTo mem'.indexOf).symm
    generalize galoisTables symsize gfpoly mem.alphaTo mem.indexOf = t at hsame hsr ⊢
    generalize galoisTables symsize gfpoly mem'.alphaTo mem'.indexOf = t' at hsame hsr ⊢
    cases t
    cases t'
    rw [Tables.mk.injEq]
    exact ⟨hsame.1, hsame.2, hsr⟩
  have hg := generatorPoly_holds fcr prim ht' hgen
  have hg' := generatorPoly_holds fcr prim ht' hgen'
  have hgenpoly : generatorPoly symsize (2 ^ symsize - 1) (galoisTables symsize gfpoly mem'.alphaTo mem'.indexOf)
      fcr prim nroots mem.genpoly =
      generatorPoly symsize (2 ^ symsize - 1) (galoisTables symsize gfpoly mem'.alphaTo mem'.indexOf) fcr prim nroots
        mem'.genpoly := hg.2.unique hg'.2 hg.1 hg'.1
  rw [rsInit, rsInit, htables]
  dsimp only
  rw [hgenpoly]

/-- If some symbol is never the content of `sr`, its entry of `index_of` stays as it was allocated. -/
theorem srAt_reaches_of_determined (hsym : 0 < symsize) (hprim : 0 < prim)
    (hcycles : srAt symsize gfpoly (2 ^ symsize - 1) = 1) (hcop : Nat.Coprime prim (2 ^ symsize - 1))
    (hdet : ∀ mem mem' : Allocated, mem.Sized symsize nroots → mem'.Sized symsize nroots →
      rsInit symsize gfpoly fcr prim nroots mem = rsInit symsize gfpoly fcr prim nroots mem')
    {a : ℕ} (h0 : 0 < a) (ha : a < 2 ^ symsize) : ∃ i < 2 ^ symsize - 1, srAt symsize gfpoly i = a := by
  by_contra hnever
  push Not at hnever
  let allocated (v : ℕ) : Allocated :=
    { alphaTo := List.replicate (2 ^ symsize) 0, indexOf := List.replicate (2 ^ symsize) v,
      genpoly := List.replicate (nroots + 1) 0 }
  have hsized : ∀ v, (allocated v).Sized symsize nroots := fun v =>
    ⟨List.length_replicate, List.length_replicate, List.length_replicate⟩
  have hentry : ∀ v, (galoisTables symsize gfpoly (allocated v).alphaTo (allocated v).indexOf).indexOf.getD a 0 = v := by
    intro v
    rw [galoisTables_eq, fillTables_indexOf_of_not_mem hsym rfl (by simp [allocated]) hnever,
      getD_set (by simp [allocated]), if_neg (by omega), List.getD_eq_getElem _ _ (by simpa [allocated] using ha)]
    simp [allocated]
  obtain ⟨rs, hrs, hindex⟩ := rsInit_eq_ok fcr hsym hprim (hsized 0) hcycles hcop
  obtain ⟨rs', hrs', hindex'⟩ := rsInit_eq_ok fcr hsym hprim (hsized 1) hcycles hcop
  have hsame : rs = rs' := Except.ok.inj (hrs.symm.trans ((hdet _ _ (hsized 0) (hsized 1)).trans hrs'))
  have hzero := hentry 0
  rw [← hindex, hsame, hindex', hentry 1] at hzero
  exact Nat.one_ne_zero hzero

/-- Among the polynomials that pass the check, exactly the primitive ones give a control structure that does
not depend on what the arrays held. -/
theorem rsInit_determined_iff (hfits : FitsWords symsize fcr prim nroots)
    (hcycles : srAt symsize gfpoly (2 ^ symsize - 1) = 1) (hcop : Nat.Coprime prim (2 ^ symsize - 1)) :
    (∀ mem mem' : Allocated, mem.Sized symsize nroots → mem'.Sized symsize nroots →
      rsInit symsize gfpoly fcr prim nroots mem = rsInit symsize gfpoly fcr prim nroots mem') ↔
    Primitive symsize gfpoly := by
  have hsym := hfits.symsize_pos
  have hprim := hfits.prim_pos
  constructor
  · intro hdet
    refine ⟨hcycles, fun i hi hlt hone => ?_⟩
    -- `2 ^ symsize - 1` rounds reach as many symbols, so none is reached twice.
    have hmaps : ∀ a ∈ Finset.Ioo 0 (2 ^ symsize),
        a ∈ (Finset.range (2 ^ symsize - 1)).image (srAt symsize gfpoly) := by
      intro a ha
      obtain ⟨h0, hlt⟩ := Finset.mem_Ioo.mp ha
      obtain ⟨j, hj, rfl⟩ := srAt_reaches_of_determined hsym hprim hcycles hcop hdet h0 hlt
      exact Finset.mem_image_of_mem _ (Finset.mem_range.mpr hj)
    have hcard : ((Finset.range (2 ^ symsize - 1)).image (srAt symsize gfpoly)).card =
        (Finset.range (2 ^ symsize - 1)).card := by
      apply le_antisymm Finset.card_image_le
      have hle := Finset.card_le_card hmaps
      rw [Nat.card_Ioo] at hle
      rw [Finset.card_range]
      omega
    have hinj := Finset.card_image_iff.mp hcard
    have hsame : srAt symsize gfpoly i = srAt symsize gfpoly 0 := hone
    have hzero := hinj (Finset.mem_coe.mpr (Finset.mem_range.mpr hlt))
      (Finset.mem_coe.mpr (Finset.mem_range.mpr (by omega))) hsame
    omega
  · exact fun h mem mem' hmem hmem' => rsInit_eq_of_primitive hsym h hmem hmem'

/-- The polynomial `0x11b` is irreducible and passes the check, but its root is not a generator of the field. -/
theorem rsInit_undetermined : ¬ ∀ mem mem' : Allocated, mem.Sized 8 16 → mem'.Sized 8 16 →
    rsInit 8 0x11b 0 1 16 mem = rsInit 8 0x11b 0 1 16 mem' := by
  rw [rsInit_determined_iff ⟨by decide, by decide, by decide, by decide, by decide, by decide⟩ (by decide +kernel)
    (by decide)]
  intro h
  have hearly : srAt 8 0x11b 51 = 1 := by decide +kernel
  exact h.2 51 (by decide) (by decide) hearly

end

end CiotVlc.Codec
