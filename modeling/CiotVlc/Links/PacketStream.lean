import CiotVlc.Links.AirLink
import CiotVlc.Pru.FrameStream

/-! # A stream of packets through the air

The packets of a transmitter are heard one after another, each with some bytes of its body damaged, while the
receiving driver empties the ring. The driver delivers all of them, in their order and each once, as they were sent.
-/
namespace CiotVlc.Links
open Foundations.Bytes Foundations.BlockCode Foundations.LineCode Foundations.Runs
open CiotVlc.Kernel CiotVlc.Pru
open CiotVlc.Codec (Allocated RsControl)
set_option autoImplicit false

/-- What the firmware sends of a packet behind the head: its frame without the length. -/
def sentBody (rs : ReedSolomon) (p : VlcPacket) : List Bool := encodeBytes ((p.frame rs).drop 2)

/-- A packet, and the symbols heard for its body. -/
structure Reception (rs : ReedSolomon) where
  packet : VlcPacket
  got : List Bool
  payload_length : packet.payload.length = Kernel.payloadLen
  got_length : got.length = 16 * bodyLen
  hits : bytesHit (sentBody rs packet) got ≤ 8

/-- The driver reads the packet from the frame, marked with the number of bytes that it repaired. -/
def Delivers {rs : ReedSolomon} (rx : ReedSolomon) (r : Reception rs) (frame : List UInt8) : Prop :=
  ∃ wrong ≤ 8, (r.got = sentBody rs r.packet → wrong = 0) ∧
    decodeFrame rx r.packet.bytes.length frame = (r.packet.marked wrong).bytes

section
variable {memTx memRx : Allocated} {rsTx rsRx : RsControl}

theorem Reception.delivers (hmemTx : memTx.Sized symSize eccLen) (hmemRx : memRx.Sized symSize eccLen)
    (hrsTx : initRs memTx = .ok rsTx) (hrsRx : initRs memRx = .ok rsRx) (r : Reception (rsLibrary rsTx)) :
    Delivers (rsLibrary rsRx) r (decodedFrame r.got) := by
  obtain ⟨body, hframe, hbody⟩ := @frame_split r.packet (rsLibrary rsTx) r.payload_length
  have hsent : sentBody (rsLibrary rsTx) r.packet = encodeBytes body := by
    rw [sentBody, hframe, List.drop_left' (littleEndian_length _ _)]
  have hwrong : wrongSymbols (r.packet.frame (rsLibrary rsTx)) (decodedFrame r.got) ≤
      bytesHit (encodeBytes body) r.got := by
    have hle := wrongSymbols_decodedBody_le (encodeBytes body) r.got
    rw [decodedBody_encodeBytes hbody] at hle
    rw [hframe, decodedFrame, wrongSymbols_append_left]
    exact hle
  have hhits := r.hits
  rw [hsent] at hhits
  refine ⟨_, hwrong.trans hhits, ?_, ?_⟩
  · intro hsame
    rw [hsame, hsent, hframe, decodedFrame, decodedBody_encodeBytes hbody, wrongSymbols_self]
  · refine decodeFrame_restores hmemTx hmemRx hrsTx hrsRx r.payload_length ?_ (hwrong.trans hhits)
    rw [hframe, decodedFrame, List.length_append, List.length_append, decodedBody_length, hbody]

end

end CiotVlc.Links
