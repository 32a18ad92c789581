import CiotVlc.Gateway.Acknowledged
import CiotVlc.Report.DecodeBounds

/-! # Report frames in the gateway's buffer

`receive_report` takes whatever is in its receive buffer behind a node's address: it does not look at the
number of bytes that came, and checks the node's id, but neither the lengths in the report nor the
indices they lead to.
-/
namespace CiotVlc.Gateway
open Foundations.Bytes Foundations.Checked CiotVlc.Node CiotVlc.Report
set_option autoImplicit false

/-- The report names a node of the gateway. -/
def NamesNode (cfg : Config) (content : List UInt8) : Prop :=
  0 < nodeField content ∧ nodeField content ≤ cfg.nNode

/-- The report ends inside the buffer, and where it names a node, no index that its pattern leads to is
negative and every transmitter it lists exists. -/
structure ReportInBounds (cfg : Config) (content : List UInt8) : Prop where
  ends : EndsInside content
  indices : NamesNode cfg content → ∀ i < (lengthField content).toNat, 0 ≤ wrap32 (ackField content + i - 1)
  transmitters : NamesNode cfg content → ∀ k < countField content,
    1 ≤ (entryAt content (countIndex content + 1) k).vlcTxId ∧
      (entryAt content (countIndex content + 1) k).vlcTxId ≤ cfg.nVlc

section
variable {cfg : Config} {g : Globals} {buf : List UInt8} {report : StatusReportPacket} {idx : ℕ}

theorem applicable_iff {content : List UInt8} (h : DecodedFrom content report) :
    Applicable cfg report ↔ (∀ i < (lengthField content).toNat, 0 ≤ wrap32 (ackField content + i - 1)) ∧
      ∀ k < countField content, 1 ≤ (entryAt content (countIndex content + 1) k).vlcTxId ∧
        (entryAt content (countIndex content + 1) k).vlcTxId ≤ cfg.nVlc := by
  have htake : report.vlcData.take report.nVlc.toNat = report.vlcData := by
    refine List.take_of_length_le ?_
    rw [h.nVlc, h.vlcData, List.length_map, List.length_range]
    exact le_rfl
  have hall : (∀ info ∈ report.vlcData, 1 ≤ info.vlcTxId ∧ info.vlcTxId ≤ cfg.nVlc) ↔
      ∀ k < countField content, 1 ≤ (entryAt content (countIndex content + 1) k).vlcTxId ∧
        (entryAt content (countIndex content + 1) k).vlcTxId ≤ cfg.nVlc := by
    rw [h.vlcData, List.forall_mem_map]
    simp only [List.mem_range]
  constructor
  · rintro ⟨hindices, hids⟩
    rw [htake] at hids
    rw [h.patternLength, h.ackNumber] at hindices
    exact ⟨hindices, hall.mp hids⟩
  · rintro ⟨hindices, hids⟩
    refine ⟨?_, ?_⟩
    · rw [h.patternLength, h.ackNumber]
      exact hindices
    · rw [htake]
      exact hall.mpr hids

theorem namesNode_iff {content : List UInt8} (h : DecodedFrom content report) :
    (0 < report.nodeId ∧ report.nodeId ≤ cfg.nNode) ↔ NamesNode cfg content := by
  rw [h.nodeId]
  exact_mod_cast Iff.rfl

/-- A report of an unknown node is decoded and dropped. -/
theorem receiveReport_unknown (hfrom : isFromNode cfg buf = true)
    (hdecode : generateStatusReportFromString (buf.drop 14) = .ok (report, idx))
    (hid : ¬ (0 < report.nodeId ∧ report.nodeId ≤ cfg.nNode)) : receiveReport cfg g buf = .ok g := by
  rw [receiveReport, if_pos hfrom, hdecode, ok_bind]
  simp only [gt_iff_lt, if_neg hid]
  rfl

end

/-- **When a report frame is handled in bounds.** Of the frames from a node's address, exactly those whose
report ends inside the buffer and, if it names a node, leads to no negative packet index and to existing
transmitters only. -/
theorem receive_report_in_bounds_iff (cfg : Config) (g : Globals) (buf : List UInt8) (hlen : buf.length = bufSiz)
    (hfrom : isFromNode cfg buf = true) :
    (∃ g', receiveReport cfg g buf = .ok g') ↔ ReportInBounds cfg (buf.drop 14) := by
  have hcontent : 9 ≤ (buf.drop 14).length := by
    rw [List.length_drop, hlen]
    decide
  have hdecodes := generateStatusReportFromString_returns_iff hcontent
  constructor
  · rintro ⟨g', hrun⟩
    obtain ⟨⟨report, idx⟩, hdecode⟩ : ∃ r, generateStatusReportFromString (buf.drop 14) = .ok r := by
      rw [receiveReport, if_pos hfrom] at hrun
      obtain ⟨r, hr, -⟩ := bind_eq_ok.mp hrun
      exact ⟨r, hr⟩
    obtain ⟨hends, hfields⟩ := generateStatusReportFromString_fields hdecode
    have happ : NamesNode cfg (buf.drop 14) → Applicable cfg report := fun hnames =>
      applicable_of_ok hfrom hdecode ((namesNode_iff hfields).mpr hnames) hrun
    exact ⟨hends, fun hnames => ((applicable_iff hfields).mp (happ hnames)).1,
      fun hnames => ((applicable_iff hfields).mp (happ hnames)).2⟩
  · intro h
    obtain ⟨⟨report, idx⟩, hdecode⟩ := hdecodes.mpr h.ends
    obtain ⟨-, hfields⟩ := generateStatusReportFromString_fields hdecode
    by_cases hid : 0 < report.nodeId ∧ report.nodeId ≤ cfg.nNode
    · have hnames := (namesNode_iff hfields).mp hid
      obtain ⟨g', hrun, -⟩ := receiveReport_ok (g := g) hfrom hdecode hid
        ((applicable_iff hfields).mpr ⟨h.indices hnames, h.transmitters hnames⟩)
      exact ⟨g', hrun⟩
    · exact ⟨g, receiveReport_unknown hfrom hdecode hid⟩

/-- The first report of a node, before any packet has come: its window is packet 0 alone, and the gateway reads
`pkt_state[0][-1]`. -/
theorem first_report_out_of_bounds :
    let eh : EtherHeader := ⟨rfMac ++ shipped.nodeAddresses 0 ++ [0, 3], rfl⟩
    let frame : List UInt8 := eh.bytes ++ [1, 0, 0, 0, 0, 1, 0, 0, 0, 0, 1, 1, 0]
    let buf : List UInt8 := frame ++ List.replicate 997 0
    sendReport eh 1 (initializeNodeStatus Node.maxSeqNumber) shipped.nVlc (fun _ => 0) = .ok frame ∧
      buf.length = bufSiz ∧ isFromNode shipped buf = true ∧
      ¬ ∃ g', receiveReport shipped (initialGlobals shipped) buf = .ok g' := by
  intro eh frame buf
  have hs : Sendable shipped (initializeNodeStatus Node.maxSeqNumber) :=
    ⟨rfl, by decide, by decide, by decide, by decide⟩
  have hsend : sendReport eh 1 (initializeNodeStatus Node.maxSeqNumber) shipped.nVlc (fun _ => 0) = .ok frame := rfl
  have hfault := @ackRound_fault shipped (initialGlobals shipped) eh 1 _ (fun _ => 0) (List.replicate 997 0) hs
    (by decide) (by decide) (by decide) rfl (by decide)
  rw [ackRound, hsend, ok_bind] at hfault
  refine ⟨hsend, ?_, by decide, ?_⟩
  · rw [List.length_append, List.length_replicate]
    rfl
  · rintro ⟨g', hrun⟩
    cases hfault.symm.trans hrun

/-- The report of a window that starts at packet 1, in an otherwise empty buffer. -/
theorem receive_report_in_bounds_iff_from_one :
    let buf : List UInt8 := rfMac ++ shipped.nodeAddresses 0 ++ [0, 3] ++ [1, 1, 0, 0, 0, 1, 0, 0, 0, 0x80, 0] ++
      List.replicate 999 0
    (∃ g', receiveReport shipped (initialGlobals shipped) buf = .ok g') ↔
      ReportInBounds shipped (buf.drop 14) := by
  intro buf
  refine receive_report_in_bounds_iff shipped _ buf ?_ (by decide)
  rw [List.length_append, List.length_replicate]
  rfl

end CiotVlc.Gateway
