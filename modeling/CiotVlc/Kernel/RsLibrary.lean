import CiotVlc.Codec.Repairs
import CiotVlc.Kernel.Transparency

/-! # The library in the drivers

Transmitter and receiver each get a control structure from `init_rs` when their module is loaded, for symbols
of eight bits, the polynomial `0x11d` and sixteen roots. It does not matter what memory the two were given: the
receiver repairs any eight wrong bytes of a block that the transmitter encoded.
-/
namespace CiotVlc.Kernel
open Foundations.Bytes Foundations.BlockCode Foundations.ShiftField CiotVlc.Codec CiotVlc.Node
set_option autoImplicit false

/-! ## The field of the drivers -/

def symSize : ℕ := 8
def gfPoly : ℕ := 0x11d

theorem primitive_gfPoly : Primitive symSize gfPoly := by
  have hrounds : ∀ i < 255, 0 < i → srAt 8 0x11d i ≠ 1 := by decide +kernel
  exact ⟨by decide +kernel, fun i hpos hlt => hrounds i hlt hpos⟩

/-- `init_rs(8, 0x11d, 0, 1, ECC_LEN)` -/
def initRs (mem : Allocated) : Except InitFailure RsControl := rsInit symSize gfPoly 0 1 eccLen mem

/-- `encode_rs8` and `decode_rs8` over a control structure. A block of more than `nn - nroots` bytes stops the kernel
in the decoder; both drivers pass at most `block_size` bytes. -/
def rsLibrary (rs : RsControl) : ReedSolomon where
  encodeRs8 block par := (encodeRs rs (block.map UInt8.toNat) (par.map UInt16.toNat)).1.map UInt16.ofNat
  decodeRs8 first block par :=
    match decodeRs rs first.toNat (block.map UInt8.toNat) (par.map UInt16.toNat) with
    | some (data, numErr) => (data.map UInt8.ofNat, numErr)
    | none => (block, 0)

def bytesField : ShiftRegister := fieldRegister (by decide) primitive_gfPoly

/-- `init_rs` succeeds in both drivers, whatever the arrays held. -/
theorem initRs_ok {mem : Allocated} (hmem : mem.Sized symSize eccLen) : ∃ rs, initRs mem = .ok rs := by
  obtain ⟨rs, hrs, -⟩ := rsInit_eq_ok 0 (by decide) Nat.one_pos hmem primitive_gfPoly.1 (Nat.coprime_one_left _)
  exact ⟨rs, hrs⟩

def clearedMemory : Allocated := ⟨List.replicate 256 0, List.replicate 256 0, List.replicate 17 0⟩

theorem clearedMemory_sized : clearedMemory.Sized symSize eccLen :=
  ⟨List.length_replicate, List.length_replicate, List.length_replicate⟩

/-! ## Bytes as symbols -/

theorem map_ofNat_toNat (block : List UInt8) : (block.map UInt8.toNat).map UInt8.ofNat = block := by
  have hbyte : UInt8.ofNat ∘ UInt8.toNat = id := by
    funext b
    exact UInt8.ofNat_toNat
  rw [List.map_map, hbyte, List.map_id]

theorem map_toUInt16_toNat (parity : List UInt8) :
    (parity.map UInt8.toUInt16).map UInt16.toNat = parity.map UInt8.toNat := by
  have hbyte : UInt16.toNat ∘ UInt8.toUInt16 = UInt8.toNat := by
    funext b
    exact UInt8.toNat_toUInt16 b
  rw [List.map_map, hbyte]

theorem inRange_bytes (l : List UInt8) : InRange bytesField (l.map UInt8.toNat) := by
  apply inRange_of_mem
  intro a ha
  obtain ⟨b, -, rfl⟩ := List.mem_map.mp ha
  exact b.toNat_lt

theorem wrongSymbols_bytes (l l' : List UInt8) :
    wrongSymbols (l.map UInt8.toNat) (l'.map UInt8.toNat) = wrongSymbols l l' :=
  wrongSymbols_map fun _ _ _ _ => UInt8.toNat_inj.mp

/-! ## A block that the transmitter encoded -/

section
variable {mem mem' : Allocated} {rs : RsControl}

theorem initRs_sound (hmem : mem.Sized symSize eccLen) (h : initRs mem = .ok rs) :
    Sound rs bytesField ∧ rs.nn = 255 ∧ rs.nroots = 16 := by
  obtain ⟨hs, -, -, hroots⟩ := rsInit_sound (by decide) primitive_gfPoly hmem Nat.one_pos h
  exact ⟨hs, hs.nn_eq, hroots⟩

theorem initRs_agrees (hmem : mem.Sized symSize eccLen) (hmem' : mem'.Sized symSize eccLen) :
    initRs mem = initRs mem' := rsInit_eq_of_primitive (by decide) primitive_gfPoly hmem hmem'

/-- The symbols of the parity that goes into the ring. -/
theorem parity_toNat (hs : Sound rs bytesField) (hroots : rs.nroots = 16) {block : List UInt8}
    (hfits : block.length + 16 ≤ rs.nn) :
    ((rsLibrary rs).parity block).map UInt8.toNat =
      (encodeRs rs (block.map UInt8.toNat) (List.replicate rs.nroots 0)).1 := by
  have horder : bytesField.order = 255 := rfl
  have hzero : (List.replicate eccLen (0 : UInt16)).map UInt16.toNat = List.replicate rs.nroots 0 := by
    rw [hroots]
    rfl
  obtain ⟨hlen, hrange, -⟩ := encodeLoop_spec hs (by omega) (by omega) (block.map UInt8.toNat)
    (List.length_replicate (n := rs.nroots) (a := 0)) (inRange_replicate bytesField _)
  have hencode := @encodeRs_fits rs (block.map UInt8.toNat) (List.replicate rs.nroots 0)
    (by rw [List.length_map]; omega) (by omega)
  simp only [ReedSolomon.parity, rsLibrary, hzero]
  rw [hencode]
  generalize (block.map UInt8.toNat).foldl (encodeStep rs) (List.replicate rs.nroots 0) = par at hlen hrange
  apply list_eq_of_getD (by simp [hlen, hroots, eccLen])
  intro j hj
  have hj : j < 16 := by simpa [eccLen] using hj
  have hlt : par.getD j 0 < 256 := hrange j
  rw [List.getD_eq_getElem _ _ (by simpa [eccLen] using hj)]
  simp only [List.getElem_map, List.getElem_range]
  rw [List.getD_eq_getElem _ _ (by rw [List.length_map]; omega), List.getElem_map, UInt16.toNat_toUInt8,
    UInt16.toNat_ofNat', List.getD_eq_getElem _ _ (by omega)]
  rw [List.getD_eq_getElem _ _ (by omega)] at hlt
  omega

theorem decoderAt_eq_of_some {first : UInt8} {block parity : List UInt8} {data : List ℕ} {numErr : ℤ}
    (h : decodeRs rs first.toNat (block.map UInt8.toNat) (parity.map UInt8.toNat) = some (data, numErr)) :
    (rsLibrary rs).decoderAt first block parity = (data.map UInt8.ofNat, numErr) := by
  simp only [ReedSolomon.decoderAt, rsLibrary, map_toUInt16_toNat, h]

/-- The decoder works in place, whatever it is called on. -/
theorem decoderAt_length (rs : RsControl) (first : UInt8) (block parity : List UInt8) :
    ((rsLibrary rs).decoderAt first block parity).1.length = block.length := by
  simp only [ReedSolomon.decoderAt, rsLibrary]
  split
  · next data numErr hdecode =>
    rw [List.length_map, (decodeRs_effect hdecode).1, List.length_map]
  · rfl

/-- The parity of zeros is zero. -/
theorem parity_zeros (hmem : mem.Sized symSize eccLen) (h : initRs mem = .ok rs) {n : ℕ} (hn : n ≤ 239) :
    (rsLibrary rs).parity (List.replicate n 0) = List.replicate eccLen 0 := by
  obtain ⟨hs, hnn, hroots⟩ := initRs_sound hmem h
  have hpar := @parity_toNat rs hs hroots (List.replicate n 0) (by rw [List.length_replicate]; omega)
  have hencode := @encodeRs_fits rs (List.replicate n 0) (List.replicate rs.nroots 0)
    (by rw [List.length_replicate]; omega) (by omega)
  have hzeros : (List.replicate n (0 : UInt8)).map UInt8.toNat = List.replicate n 0 := List.map_replicate
  rw [hzeros, hencode, encodeLoop_zeros hs (by omega), hroots] at hpar
  apply List.map_injective_iff.mpr (fun _ _ => UInt8.toNat_inj.mp)
  rw [hpar, List.map_replicate]
  rfl

theorem library_repairs (hmem : mem.Sized symSize eccLen) (h : initRs mem = .ok rs) {block : List UInt8}
    (hpos : 0 < block.length) (hfits : block.length ≤ 239) :
    Repairs (rsLibrary rs).decoder block ((rsLibrary rs).parity block) 8 := by
  obtain ⟨hs, hnn, hroots⟩ := initRs_sound hmem h
  have horder : bytesField.order = 255 := rfl
  intro data' parity' hdata hparity hfew
  rw [ReedSolomon.parity_length] at hparity
  have hpar := @parity_toNat rs hs hroots block (by omega)
  have hcode := @encodeRs_isCodeWord rs bytesField hs (by omega) (by omega) (block.map UInt8.toNat)
    (by rw [List.length_map]; omega)
  rw [← hpar] at hcode
  have hwrong := wrongSymbols_bytes (block ++ (rsLibrary rs).parity block) (data' ++ parity')
  rw [List.map_append, List.map_append] at hwrong
  have hdamaged : Damaged rs bytesField (block.map UInt8.toNat) (((rsLibrary rs).parity block).map UInt8.toNat)
      (data'.map UInt8.toNat) (parity'.map UInt8.toNat) :=
    { code := hcode
      nonempty := by rw [List.length_map]; exact hpos
      fits := by rw [List.length_map]; omega
      data_length := by rw [List.length_map, List.length_map, hdata]
      par_length := by rw [List.length_map, ReedSolomon.parity_length, hroots]; rfl
      par_length' := by rw [List.length_map, hparity, hroots]; rfl
      range := by rw [← List.map_append]; exact inRange_bytes _
      range' := by rw [← List.map_append]; exact inRange_bytes _
      few := by omega }
  rw [ReedSolomon.decoder, decoderAt_eq_of_some (decodeRs_repairs hs hdamaged _), map_ofNat_toNat, hwrong]

end

end CiotVlc.Kernel
