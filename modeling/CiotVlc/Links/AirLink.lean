import CiotVlc.Kernel.RsLibrary
import CiotVlc.Pru.DamagedFrames

/-! # A packet through the air

From the buffer of the transmitting driver to the process queue of the node: the driver adds the parity, the
firmware sends the frame as symbols, some of them are heard wrong, the other firmware stores the frame, and its
driver corrects it.
-/
namespace CiotVlc.Links
open Foundations.Bytes Foundations.BitPack Foundations.LineCode Foundations.BlockCode Foundations.Runs
open CiotVlc.Kernel CiotVlc.Pru
open CiotVlc.Node (receiveVlc)
open CiotVlc.Codec (Allocated RsControl)
set_option autoImplicit false

/-! ## Symbols and bytes -/

theorem chunk_encodeBytes (bytes : List UInt8) {k : ℕ} (hk : k < bytes.length) :
    chunk (encodeBytes bytes) k = encode (msbBits 8 (bytes.get ⟨k, hk⟩).toNat) := by
  induction bytes generalizing k with
  | nil => exact absurd hk (Nat.not_lt_zero k)
  | cons b bytes ih =>
    have hlen : (encode (msbBits 8 b.toNat)).length = 16 := by simp
    have hcons : encodeBytes (b :: bytes) = encode (msbBits 8 b.toNat) ++ encodeBytes bytes := rfl
    cases k with
    | zero =>
      rw [chunk, hcons, Nat.mul_zero, List.drop_zero, List.take_left' hlen]
      rfl
    | succ k =>
      rw [chunk_succ, hcons, List.drop_left' hlen]
      exact ih (Nat.lt_of_succ_lt_succ hk)

theorem decodedBody_encodeBytes {bytes : List UInt8} (hlen : bytes.length = bodyLen) :
    decodedBody (encodeBytes bytes) = bytes := by
  apply List.ext_getElem
  · rw [decodedBody_length, hlen]
  · intro k hk hk'
    simp only [decodedBody, List.getElem_map, List.getElem_range]
    rw [chunk_encodeBytes bytes hk', decodeByte_encode]
    rfl

/-- The bytes of a body of which some symbol is wrong. -/
def bytesHit (sent got : List Bool) : ℕ := (List.range bodyLen).countP fun k => chunk sent k ≠ chunk got k

theorem wrongSymbols_decodedBody_le (sent got : List Bool) :
    wrongSymbols (decodedBody sent) (decodedBody got) ≤ bytesHit sent got := by
  rw [decodedBody, decodedBody, wrongSymbols_map_map, bytesHit]
  apply List.countP_mono_left
  intro k _ hk
  simp only [ne_eq, decide_not, Bool.not_eq_true', decide_eq_false_iff_not] at hk ⊢
  exact fun hsame => hk (congrArg decodeByte hsame)

section
variable {p : VlcPacket}

theorem frame_split (rs : ReedSolomon) (hlen : p.payload.length = Kernel.payloadLen) :
    ∃ body, p.frame rs = littleEndian 2 Pru.payloadLen ++ body ∧ body.length = bodyLen := by
  refine ⟨(p.frame rs).drop 2, ?_, ?_⟩
  · have htake : (p.frame rs).take 2 = littleEndian 2 Pru.payloadLen := by
      rw [VlcPacket.frame, VlcPacket.bytes, VlcPacket.header, List.append_assoc, List.append_assoc,
        List.take_left' (littleEndian_length _ _), hlen]
      rfl
    rw [← htake, List.take_append_drop]
  · rw [List.length_drop, VlcPacket.frame_length, hlen]
    rfl

end

/-! ## The whole way -/

section
variable {memTx memRx : Allocated} {rsTx rsRx : RsControl} {p : VlcPacket} {data : PacketData}

/-- What the receiving driver makes of a frame with at most eight wrong bytes. -/
theorem decodeFrame_restores (hmemTx : memTx.Sized symSize eccLen) (hmemRx : memRx.Sized symSize eccLen)
    (hrsTx : initRs memTx = .ok rsTx) (hrsRx : initRs memRx = .ok rsRx) (hlen : p.payload.length = Kernel.payloadLen)
    {got : List UInt8} (hgot : got.length = (p.frame (rsLibrary rsTx)).length)
    (hfew : wrongSymbols (p.frame (rsLibrary rsTx)) got ≤ 8) :
    decodeFrame (rsLibrary rsRx) p.bytes.length got =
      (p.marked (wrongSymbols (p.frame (rsLibrary rsTx)) got)).bytes := by
  -- Both drivers have the same control structure.
  obtain rfl : rsTx = rsRx := by
    rw [initRs_agrees hmemTx hmemRx, hrsRx] at hrsTx
    exact (Except.ok.inj hrsTx).symm
  have hsize := p.bytes_length
  have hpayload : Kernel.payloadLen = 74 := rfl
  rw [VlcPacket.frame_length] at hgot
  have hsplit := List.take_append_drop p.bytes.length got
  have hdata : (got.take p.bytes.length).length = p.bytes.length := by
    rw [List.length_take]
    omega
  have hparity : (got.drop p.bytes.length).length = eccLen := by
    rw [List.length_drop, eccLen]
    omega
  have hrepairs := @library_repairs memTx rsTx hmemTx hrsTx p.bytes (by omega) (by omega)
  have hdecode := hrepairs (got.take p.bytes.length) (got.drop p.bytes.length) hdata
    (by rw [hparity, ReedSolomon.parity_length])
  rw [hsplit] at hdecode
  have hnum : wrongSymbols (p.frame (rsLibrary rsTx)) got < 2 ^ 32 := by omega
  have hframe := decodeFrame_eq (p := p) (by omega) (by simp only [blockSize]; omega) hdata hparity hnum
    (hdecode hfew)
  rwa [hsplit] at hframe

end

end CiotVlc.Links
