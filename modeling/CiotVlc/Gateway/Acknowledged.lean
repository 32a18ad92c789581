import CiotVlc.Gateway.ReceiveReport

/-! # Acknowledged packets in the retransmission table

What a report should do to `unacked_vlc_packet`, and when it does. A decoded pattern holds the bytes 0 and
1, so the table stays as it is; the cumulative acknowledgement is not looked at.
-/
namespace CiotVlc.Gateway
open Foundations.Bytes Foundations.Checked CiotVlc.Report
set_option autoImplicit false

/-- The report acknowledges the packet of this table entry, cumulatively or by a set bit. -/
def Acknowledges (node : ℕ) (report : StatusReportPacket) (p : GatewayPacket) : Prop :=
  p.nodeId.toNat = node + 1 ∧
    ((p.seqNumber.toNat : ℤ) < report.ackNumber ∨
      ∃ i < report.ackBitPattern.length, report.ackBitPattern[i]? = some 1 ∧ p.seqNumber.toNat = report.ackNumber + i)

instance (node : ℕ) (report : StatusReportPacket) (p : GatewayPacket) : Decidable (Acknowledges node report p) :=
  inferInstanceAs (Decidable (_ ∧ _))

/-- Exactly the acknowledged entries have left the table. -/
structure TableAcked (before after : Globals) (node : ℕ) (report : StatusReportPacket) : Prop where
  noneLeft : ∀ p ∈ after.unackedVlcPacket, ¬ Acknowledges node report p
  others : ∀ p, ¬ Acknowledges node report p → after.unackedVlcPacket.count p = before.unackedVlcPacket.count p
  length : after.unackedVlcPacket.length =
    before.unackedVlcPacket.countP fun p => ¬ Acknowledges node report p

theorem tableAcked_iff_of_unchanged {before after : Globals} {node : ℕ} {report : StatusReportPacket}
    (h : after.unackedVlcPacket = before.unackedVlcPacket) :
    TableAcked before after node report ↔ ∀ p ∈ before.unackedVlcPacket, ¬ Acknowledges node report p := by
  constructor
  · intro ht p hp
    exact ht.noneLeft p (h ▸ hp)
  · intro hnone
    refine ⟨fun p hp => hnone p (h ▸ hp), fun p _ => by rw [h], ?_⟩
    rw [h, eq_comm, List.countP_eq_length]
    exact fun p hp => decide_eq_true (hnone p hp)

/-- What a report needs to be applied without a fault: no index that its pattern leads to is negative, and it
names existing transmitters only. -/
structure Applicable (cfg : Config) (report : StatusReportPacket) : Prop where
  indices : ∀ i < report.patternLength.toNat, 0 ≤ wrap32 (report.ackNumber + i - 1)
  transmitters : ∀ info ∈ report.vlcData.take report.nVlc.toNat, 1 ≤ info.vlcTxId ∧ info.vlcTxId ≤ cfg.nVlc

section
variable {cfg : Config} {g : Globals} {buf : List UInt8} {report : StatusReportPacket} {idx : ℕ}

theorem receiveReport_eq (hfrom : isFromNode cfg buf = true)
    (hdecode : generateStatusReportFromString (buf.drop 14) = .ok (report, idx))
    (hid : 0 < report.nodeId ∧ report.nodeId ≤ cfg.nNode) :
    receiveReport cfg g buf =
      let node := (report.nodeId - 1).toNat
      (do
        let g ← applyAckBits node report.ackBitPattern report.patternLength.toNat 0
          (withUnackedSeq g node report.ackNumber)
        let e ← applyLinkQuality cfg node (report.vlcData.take report.nVlc.toNat) g.e
        return { g with e }) := by
  rw [receiveReport, if_pos hfrom, hdecode, ok_bind]
  simp only [gt_iff_lt, if_pos hid]
  rfl

/-- **A report that can be applied leaves the table as it is.** -/
theorem receiveReport_ok (hfrom : isFromNode cfg buf = true)
    (hdecode : generateStatusReportFromString (buf.drop 14) = .ok (report, idx))
    (hid : 0 < report.nodeId ∧ report.nodeId ≤ cfg.nNode) (happ : Applicable cfg report) :
    ∃ g', receiveReport cfg g buf = .ok g' ∧ g'.unackedVlcPacket = g.unackedVlcPacket := by
  obtain ⟨hbits, hlen⟩ := generateStatusReportFromString_bits hdecode
  have hchar : ∀ b ∈ report.ackBitPattern, b ≠ 0x31 := by
    intro b hb
    rcases hbits b hb with rfl | rfl <;> decide
  set node := (report.nodeId - 1).toNat with hnode
  have hseq : (withUnackedSeq g node report.ackNumber).status.unackedSeq node = report.ackNumber :=
    Function.update_self _ _ _
  have hacks : applyAckBits node report.ackBitPattern report.patternLength.toNat 0
      (withUnackedSeq g node report.ackNumber) = .ok (withUnackedSeq g node report.ackNumber) := by
    refine applyAckBits_ok hchar (by omega) fun k hk => ?_
    rw [hseq, Nat.zero_add]
    exact happ.indices k hk
  obtain ⟨e', he'⟩ := @applyLinkQuality_ok cfg node _ g.e happ.transmitters
  refine ⟨{ withUnackedSeq g node report.ackNumber with e := e' }, ?_, rfl⟩
  rw [receiveReport_eq hfrom hdecode hid]
  simp only [← hnode, hacks, ok_bind]
  change (applyLinkQuality cfg node _ g.e >>= _) = _
  rw [he']
  rfl

theorem applicable_of_ok {g' : Globals} (hfrom : isFromNode cfg buf = true)
    (hdecode : generateStatusReportFromString (buf.drop 14) = .ok (report, idx))
    (hid : 0 < report.nodeId ∧ report.nodeId ≤ cfg.nNode) (hrun : receiveReport cfg g buf = .ok g') :
    Applicable cfg report := by
  rw [receiveReport_eq hfrom hdecode hid] at hrun
  obtain ⟨g1, hacks, hrun⟩ := bind_eq_ok.mp hrun
  obtain ⟨e, he, _⟩ := bind_eq_ok.mp hrun
  refine ⟨fun i hi => ?_, ids_of_applyLinkQuality he⟩
  have hseq : (withUnackedSeq g (report.nodeId - 1).toNat report.ackNumber).status.unackedSeq
      (report.nodeId - 1).toNat = report.ackNumber := Function.update_self _ _ _
  have hindex := applyAckBits_index hacks i hi
  rwa [hseq, Nat.zero_add] at hindex

end

/-- Node 1 reports that everything below packet 3 has arrived, and packet 3 as well. -/
theorem acknowledged_packets_stay :
    let buf : List UInt8 := rfMac ++ shipped.nodeAddresses 0 ++ [0, 3] ++ [1, 3, 0, 0, 0, 1, 0, 0, 0, 0x80, 0]
    let g : Globals := { initialGlobals shipped with
      unackedVlcPacket := [⟨1, 1, 74, 2, []⟩, ⟨1, 1, 74, 3, []⟩] }
    ∃ report idx g', generateStatusReportFromString (buf.drop 14) = .ok (report, idx) ∧
      receiveReport shipped g buf = .ok g' ∧ ¬ TableAcked g g' 0 report := by
  intro buf g
  have hdecode : generateStatusReportFromString (buf.drop 14) = .ok (⟨1, 3, 1, [1], 0, []⟩, 11) := by decide
  obtain ⟨g', hrun, htable⟩ := @receiveReport_ok shipped g buf _ _ (by decide) hdecode (by decide)
    ⟨by decide, fun _ hinfo => absurd hinfo List.not_mem_nil⟩
  refine ⟨_, _, g', hdecode, hrun, fun h => ?_⟩
  exact (tableAcked_iff_of_unchanged htable).mp h _ List.mem_cons_self (by decide)

/-- **When a report clears the table.** It can be applied, and there is no entry that it acknowledges. -/
theorem tableAcked_iff (cfg : Config) (g : Globals) (buf : List UInt8) (report : StatusReportPacket) (idx : ℕ)
    (hfrom : isFromNode cfg buf = true)
    (hdecode : generateStatusReportFromString (buf.drop 14) = .ok (report, idx))
    (hid : 0 < report.nodeId ∧ report.nodeId ≤ cfg.nNode) :
    (∃ g', receiveReport cfg g buf = .ok g' ∧ TableAcked g g' (report.nodeId - 1).toNat report) ↔
      Applicable cfg report ∧
        ∀ p ∈ g.unackedVlcPacket, ¬ Acknowledges (report.nodeId - 1).toNat report p := by
  constructor
  · rintro ⟨g', hrun, hacked⟩
    have happ := applicable_of_ok hfrom hdecode hid hrun
    obtain ⟨g'', hrun', htable⟩ := @receiveReport_ok _ g _ _ _ hfrom hdecode hid happ
    rw [hrun] at hrun'
    cases hrun'
    exact ⟨happ, (tableAcked_iff_of_unchanged htable).mp hacked⟩
  · rintro ⟨happ, hnone⟩
    obtain ⟨g', hrun, htable⟩ := @receiveReport_ok _ g _ _ _ hfrom hdecode hid happ
    exact ⟨g', hrun, (tableAcked_iff_of_unchanged htable).mpr hnone⟩

/-- The same report when only packet 4 is waiting. -/
theorem tableAcked_iff_later_packet :
    let buf : List UInt8 := rfMac ++ shipped.nodeAddresses 0 ++ [0, 3] ++ [1, 3, 0, 0, 0, 1, 0, 0, 0, 0x80, 0]
    let g : Globals := { initialGlobals shipped with unackedVlcPacket := [⟨1, 1, 74, 4, []⟩] }
    let report : StatusReportPacket := ⟨1, 3, 1, [1], 0, []⟩
    ∃ g', receiveReport shipped g buf = .ok g' ∧ TableAcked g g' 0 report := by
  intro buf g report
  have hdecode : generateStatusReportFromString (buf.drop 14) = .ok (report, 11) := by decide
  refine (tableAcked_iff shipped g buf report 11 (by decide) hdecode (by decide)).mpr ⟨?_, ?_⟩
  · exact ⟨by decide, fun _ hinfo => absurd hinfo List.not_mem_nil⟩
  · exact fun p hp => by
      rw [List.mem_singleton.mp hp]
      decide

end CiotVlc.Gateway
