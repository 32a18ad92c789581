import Mathlib
import CiotVlc.Report.Format

/-! # The report format round-trips

Both encoders write the wire format of the contents they are given, and the decoder reads those
contents back, whatever follows them in the receive buffer.
-/
namespace CiotVlc.Report
open Foundations.Bytes Foundations.Checked Foundations.BitPack CiotVlc.Node
set_option autoImplicit false

/-- The packet record carries these contents: a pattern entry counts by its lowest bit. -/
structure StatusReportPacket.HasContents (packet : StatusReportPacket) (c : Contents) : Prop where
  nodeId : packet.nodeId = c.nodeId.toNat
  ackNumber : packet.ackNumber = c.ackNumber
  patternLength : packet.patternLength = c.bits.length
  bits : packet.ackBitPattern.map (fun b => decide (b.toNat % 2 = 1)) = c.bits
  vlc : packet.vlcData.map (fun e => (e.vlcTxId, e.vlcLinkQuality)) =
    c.vlc.map fun e => ((e.1.toNat : ℤ), (e.2.toNat : ℤ))

/-- A report sent from this status carries these contents: the window lies in `rcv_state`. -/
structure SendsContents (nodeId : UInt8) (status : NodeStatus) (nVlc : ℕ) (in255Range : ℕ → ℤ)
    (c : Contents) : Prop where
  nodeId : nodeId = c.nodeId
  ackNumber : status.rcvSeq = c.ackNumber
  patternLength : Report.patternLength status = c.bits.length
  bits : ∀ k (h : k < c.bits.length), 0 ≤ status.rcvSeq + k ∧ status.rcvSeq + k < status.size ∧
    status.rcvState (status.rcvSeq + k).toNat % 2 = c.bits[k].toNat
  vlc : c.vlc = (List.range nVlc).map fun i => (UInt8.ofNat (i + 1), UInt8.ofInt (in255Range i))

theorem StatusReportPacket.HasContents.cellBits {packet : StatusReportPacket} {c : Contents}
    (h : packet.HasContents c) : CellBits packet.patternByte 0 c.bits := by
  intro k hk
  have hk' : k < packet.ackBitPattern.length := by rwa [← h.bits, List.length_map] at hk
  have hget : c.bits[k] = decide (packet.ackBitPattern[k].toNat % 2 = 1) := by
    simp only [← h.bits, List.getElem_map]
  refine ⟨packet.ackBitPattern[k].toNat, ?_, ?_⟩
  · simp [StatusReportPacket.patternByte, readByte, hk']
  · rw [hget]
    by_cases hodd : packet.ackBitPattern[k].toNat % 2 = 1
    · rw [decide_eq_true hodd, Bool.toNat_true]
      omega
    · rw [decide_eq_false hodd, Bool.toNat_false]
      omega

theorem StatusReportPacket.HasContents.entryBytes {packet : StatusReportPacket} {c : Contents}
    (h : packet.HasContents c) : EntryBytes packet.vlcEntry 0 c.vlc := by
  intro k hk
  have hlen : packet.vlcData.length = c.vlc.length := by
    have := congrArg List.length h.vlc
    rwa [List.length_map, List.length_map] at this
  have hk' : k < packet.vlcData.length := by omega
  have hget := congrArg (fun l => l[k]?) h.vlc
  simp only [List.getElem?_map, List.getElem?_eq_getElem hk', List.getElem?_eq_getElem hk,
    Option.map_some, Option.some.injEq, Prod.mk.injEq] at hget
  refine ⟨packet.vlcData[k], ?_, ?_, ?_⟩
  · simp [StatusReportPacket.vlcEntry, hk']
  · rw [hget.1, uint8_ofInt_natCast, UInt8.ofNat_toNat]
  · rw [hget.2, uint8_ofInt_natCast, UInt8.ofNat_toNat]

theorem convertReportPacketToString_ok {packet : StatusReportPacket} {c : Contents}
    (h : packet.HasContents c) (hfit : c.bytes.length ≤ reportBuffer) :
    convertReportPacketToString packet c.vlc.length = .ok c.bytes := by
  have hid : UInt8.ofInt packet.nodeId = c.nodeId := by
    rw [h.nodeId, uint8_ofInt_natCast, UInt8.ofNat_toNat]
  have hout := @encodeReport_ok _ _ _ _ [] _ hid h.cellBits h.entryBytes (by simpa using hfit)
  rw [List.nil_append] at hout
  rw [convertReportPacketToString, h.ackNumber, h.patternLength, hout]

theorem sendReport_ok {eh : EtherHeader} {nodeId : UInt8} {status : NodeStatus} {nVlc : ℕ}
    {in255Range : ℕ → ℤ} {c : Contents} (h : SendsContents nodeId status nVlc in255Range c)
    (hfit : 14 + c.bytes.length ≤ bufSiz) :
    sendReport eh nodeId status nVlc in255Range = .ok (eh.bytes ++ c.bytes) := by
  have hcell : CellBits (fun j => readCell status.size status.rcvState (status.rcvSeq + j)) 0 c.bits := by
    intro k hk
    obtain ⟨h0, h1, hbit⟩ := h.bits k hk
    exact ⟨_, by rw [Nat.zero_add]; exact if_pos ⟨h0, h1⟩, hbit⟩
  have hlen : c.vlc.length = nVlc := by rw [h.vlc, List.length_map, List.length_range]
  have hentry : EntryBytes (fun i => .ok { vlcTxId := i + 1, vlcLinkQuality := in255Range i }) 0 c.vlc := by
    intro k hk
    refine ⟨_, rfl, ?_, ?_⟩
    · simp only [h.vlc, List.getElem_map, List.getElem_range, Nat.zero_add]
      exact_mod_cast uint8_ofInt_natCast (k + 1)
    · simp only [h.vlc, List.getElem_map, List.getElem_range, Nat.zero_add]
  have hid : UInt8.ofInt (nodeId.toNat : ℤ) = c.nodeId := by
    rw [uint8_ofInt_natCast, UInt8.ofNat_toNat, h.nodeId]
  have hout := @encodeReport_ok bufSiz _ _ _ eh.bytes _ hid hcell hentry
    (by rw [eh.size]; exact hfit)
  rw [← h.ackNumber, ← h.patternLength, hlen] at hout
  exact hout

theorem Contents.packet_hasContents (c : Contents) : c.packet.HasContents c where
  nodeId := rfl
  ackNumber := rfl
  patternLength := rfl
  bits := by
    have hbit : ∀ b, decide ((bitByte b).toNat % 2 = 1) = b := by decide
    simp [Contents.packet, Function.comp_def, hbit]
  vlc := by simp [Contents.packet, Function.comp_def]

/-- **The report format round-trips.** Both encoders write the same bytes for the same contents, and the
decoder returns those contents and stops right behind them. -/
theorem report_round_trip (c : Contents) :
    (∀ packet : StatusReportPacket, packet.HasContents c → c.bytes.length ≤ reportBuffer →
      convertReportPacketToString packet c.vlc.length = .ok c.bytes) ∧
    (∀ (eh : EtherHeader) (nodeId : UInt8) (status : NodeStatus) (nVlc : ℕ) (in255Range : ℕ → ℤ),
      SendsContents nodeId status nVlc in255Range c → 14 + c.bytes.length ≤ bufSiz →
      sendReport eh nodeId status nVlc in255Range = .ok (eh.bytes ++ c.bytes)) ∧
    (∀ rest : List UInt8, 14 + c.bytes.length ≤ bufSiz →
      generateStatusReportFromString (c.bytes ++ rest) = .ok (c.packet, c.bytes.length)) := by
  refine ⟨fun packet h hfit => convertReportPacketToString_ok h hfit,
    fun eh nodeId status nVlc in255Range h hfit => sendReport_ok h hfit, fun rest hfit => ?_⟩
  refine generateStatusReportFromString_ok c rest ?_
  have hlen := c.bytes_length
  have hbits := byteCount_spec c.bits.length
  simp only [bufSiz] at hfit
  omega

/-- A nine-bit window, whose last byte is partial, sent from a status and from the packet record. -/
theorem report_round_trip_nine_bits :
    let c : Contents := ⟨1, 3, by constructor <;> norm_num,
      [true, true, false, true, false, false, false, true, true], [(1, 100)], by decide⟩
    let status : NodeStatus := ⟨3, fun s => if s ∈ [3, 4, 6, 10, 11] then 1 else 0, 11, 20⟩
    let eh : EtherHeader := ⟨List.replicate 14 0, rfl⟩
    convertReportPacketToString c.packet 1 = .ok c.bytes ∧
      sendReport eh 1 status 1 (fun _ => 100) = .ok (eh.bytes ++ c.bytes) ∧
      generateStatusReportFromString (c.bytes ++ [7]) = .ok (c.packet, c.bytes.length) := by
  intro c status eh
  obtain ⟨hconvert, hsend, hdecode⟩ := report_round_trip c
  refine ⟨hconvert c.packet c.packet_hasContents (by decide), hsend eh 1 status 1 _ ?_ (by decide),
    hdecode [7] (by decide)⟩
  exact ⟨rfl, rfl, rfl, by decide, rfl⟩

end CiotVlc.Report
