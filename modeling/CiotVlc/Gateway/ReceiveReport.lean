import CiotVlc.Gateway.State
import CiotVlc.Report.RoundTrip

/-! # Applying a status report

`receive_report` of the gateway, end to end with the node's `send_report`. The decoder stores the
pattern as bytes 0 and 1, and `receive_report` compares them with the character `'1'`, so no report
ever acknowledges a packet; and the first index it reads is one below the acknowledgement number.
`ackRound_exact_iff` is the exact condition under which a report nevertheless has the effect it
should have.
-/
namespace CiotVlc.Gateway
open Foundations.Bytes Foundations.Checked Foundations.BitPack CiotVlc.Node CiotVlc.Report
set_option autoImplicit false

/-- Whether the addresses of the link-layer header are those of a node and of the gateway. -/
def isFromNode (cfg : Config) (eh : List UInt8) : Bool :=
  (List.range cfg.nNode).any fun i =>
    (eh.drop 6).take 6 = cfg.nodeAddresses i && eh.take 6 = rfMac

/-- The table entry of a packet: the comparison is between a `uint32_t` and an `int`. -/
def isEntryOf (node : ℕ) (curr : ℤ) (entry : GatewayPacket) : Bool :=
  (entry.nodeId.toNat : ℤ) - 1 = node && entry.seqNumber.toNat = ofInt32 curr

/-- Overwrite the first entry that fits by the last one, and shorten the table. -/
def removeUnacked (node : ℕ) (curr : ℤ) (table : List GatewayPacket) : List GatewayPacket :=
  match table.findIdx? (isEntryOf node curr), table.getLast? with
  | some l, some last => (table.set l last).dropLast
  | _, _ => table

/-- One iteration of the loop over the pattern. -/
def applyAckBit (g : Globals) (node : ℕ) (pattern : List UInt8) (i : ℕ) : Except Fault Globals := do
  let curr := wrap32 (g.status.unackedSeq node + i - 1)
  if curr < maxSeqNumber then
    let state ← readCell maxSeqNumber (g.status.pktState node) curr
    if state = .vlcUnacked then
      let bit ← readByte pattern i
      if bit = 0x31 then -- the character '1'
        let row ← writeCell maxSeqNumber (g.status.pktState node) curr .vlcAcked
        return { g with
          status := { g.status with pktState := Function.update g.status.pktState node row }
          unackedVlcPacket := removeUnacked node curr g.unackedVlcPacket }
      else return g
    else return g
  else return g

/-- `for (i = 0; i < report.pattern_length; i++)` -/
def applyAckBits (node : ℕ) (pattern : List UInt8) : (count i : ℕ) → Globals → Except Fault Globals
  | 0, _, g => .ok g
  | count + 1, i, g => do
    let g ← applyAckBit g node pattern i
    applyAckBits node pattern count (i + 1) g

/-- `for (i = 0; i < report.n_vlc; i++)` -/
def applyLinkQuality (cfg : Config) (node : ℕ) :
    List VlcInformation → (ℕ → ℕ → ℚ) → Except Fault (ℕ → ℕ → ℚ)
  | [], e => .ok e
  | info :: infos, e => do
    let i := info.vlcTxId - 1
    let row ← readCell cfg.nVlc e i
    let e ← writeCell cfg.nVlc e i (Function.update row node (1 - (info.vlcLinkQuality : ℚ) / 255))
    applyLinkQuality cfg node infos e

/-- What `receive_report` does with one received frame. -/
def receiveReport (cfg : Config) (g : Globals) (buf : List UInt8) : Except Fault Globals := do
  if isFromNode cfg buf then
    let (report, _) ← generateStatusReportFromString (buf.drop 14)
    if report.nodeId > 0 ∧ report.nodeId ≤ cfg.nNode then
      let node := (report.nodeId - 1).toNat
      let g := { g with
        status := { g.status with
          unackedSeq := Function.update g.status.unackedSeq node report.ackNumber } }
      let g ← applyAckBits node report.ackBitPattern report.patternLength.toNat 0 g
      let e ← applyLinkQuality cfg node (report.vlcData.take report.nVlc.toNat) g.e
      return { g with e }
    else return g
  else return g

/-! ## What the loops do -/

/-- A bit other than the character `'1'` changes nothing; the entry is looked at all the same. -/
theorem applyAckBit_ok {g : Globals} {node i : ℕ} {pattern : List UInt8} (hi : i < pattern.length)
    (hbit : pattern[i] ≠ 0x31) (h0 : 0 ≤ wrap32 (g.status.unackedSeq node + i - 1)) :
    applyAckBit g node pattern i = .ok g := by
  have hread : readByte pattern i = .ok pattern[i] := by simp [readByte, hi]
  simp only [applyAckBit]
  split
  case isFalse => rfl
  case isTrue h1 =>
    simp only [readCell, if_pos (And.intro h0 h1), hread, ok_bind, pure_eq_ok, if_neg hbit]
    split <;> rfl

theorem applyAckBits_ok {g : Globals} {node : ℕ} {pattern : List UInt8} (hbits : ∀ b ∈ pattern, b ≠ 0x31)
    {count i : ℕ} (hlen : i + count ≤ pattern.length)
    (h0 : ∀ k < count, 0 ≤ wrap32 (g.status.unackedSeq node + (i + k : ℕ) - 1)) :
    applyAckBits node pattern count i g = .ok g := by
  induction count generalizing i with
  | zero => rfl
  | succ count ih =>
    have hstep := @applyAckBit_ok g node i pattern (by omega) (hbits _ (List.getElem_mem _)) (h0 0 (Nat.succ_pos _))
    have hrest : ∀ k < count, 0 ≤ wrap32 (g.status.unackedSeq node + (i + 1 + k : ℕ) - 1) := by
      intro k hk
      rw [Nat.add_assoc, Nat.add_comm 1 k]
      exact h0 (k + 1) (by omega)
    rw [applyAckBits, hstep, ok_bind, ih (by omega) hrest]

theorem applyAckBit_index {g g' : Globals} {node i : ℕ} {pattern : List UInt8}
    (h : applyAckBit g node pattern i = .ok g') :
    0 ≤ wrap32 (g.status.unackedSeq node + i - 1) ∧ g'.status.unackedSeq = g.status.unackedSeq := by
  simp only [applyAckBit] at h
  split at h
  case isFalse hge =>
    cases h
    exact ⟨by omega, rfl⟩
  case isTrue =>
    obtain ⟨state, hread, h⟩ := bind_eq_ok.mp h
    refine ⟨(readCell_eq_ok hread).1, ?_⟩
    split at h
    case isFalse =>
      cases h
      rfl
    case isTrue =>
      obtain ⟨bit, -, h⟩ := bind_eq_ok.mp h
      split at h
      case isFalse =>
        cases h
        rfl
      case isTrue =>
        obtain ⟨row, -, h⟩ := bind_eq_ok.mp h
        cases h
        rfl

/-- The loop over the pattern has looked at entries from 0 on only. -/
theorem applyAckBits_index {g g' : Globals} {node : ℕ} {pattern : List UInt8} {count i : ℕ}
    (h : applyAckBits node pattern count i g = .ok g') :
    ∀ k < count, 0 ≤ wrap32 (g.status.unackedSeq node + (i + k : ℕ) - 1) := by
  induction count generalizing i g with
  | zero => exact fun k hk => absurd hk (Nat.not_lt_zero k)
  | succ count ih =>
    rw [applyAckBits] at h
    obtain ⟨g1, hstep, hrest⟩ := bind_eq_ok.mp h
    obtain ⟨h0, hseq⟩ := applyAckBit_index hstep
    intro k hk
    cases k with
    | zero => exact h0
    | succ k =>
      have hnext := ih hrest k (by omega)
      rwa [hseq, Nat.add_assoc, Nat.add_comm 1 k] at hnext

/-- With the acknowledgement number 0, the first index read is -1. -/
theorem applyAckBits_fault {g : Globals} {node : ℕ} {pattern : List UInt8} {count : ℕ}
    (h0 : g.status.unackedSeq node = 0) (hcount : 0 < count) :
    applyAckBits node pattern count 0 g = .error (.outOfBounds (-1)) := by
  obtain ⟨n, rfl⟩ : ∃ n, count = n + 1 := ⟨count - 1, by omega⟩
  have hwrap : wrap32 (0 + ((0 : ℕ) : ℤ) - 1) = -1 := by decide
  have hstep : applyAckBit g node pattern 0 = .error (.outOfBounds (-1)) := by
    simp only [applyAckBit, h0, hwrap]
    rfl
  rw [applyAckBits, hstep]
  rfl

theorem applyLinkQuality_ok {cfg : Config} {node : ℕ} {infos : List VlcInformation} (e : ℕ → ℕ → ℚ)
    (h : ∀ info ∈ infos, 1 ≤ info.vlcTxId ∧ info.vlcTxId ≤ cfg.nVlc) :
    ∃ e', applyLinkQuality cfg node infos e = .ok e' := by
  induction infos generalizing e with
  | nil => exact ⟨e, rfl⟩
  | cons info infos ih =>
    obtain ⟨hge, hle⟩ := h info List.mem_cons_self
    have hin : 0 ≤ info.vlcTxId - 1 ∧ info.vlcTxId - 1 < cfg.nVlc := ⟨by omega, by omega⟩
    obtain ⟨e', he'⟩ := ih _ fun info' hm => h info' (List.mem_cons_of_mem _ hm)
    refine ⟨e', ?_⟩
    simp only [applyLinkQuality, readCell, writeCell, if_pos hin, ok_bind]
    exact he'

theorem ids_of_applyLinkQuality {cfg : Config} {node : ℕ} {infos : List VlcInformation} {e e' : ℕ → ℕ → ℚ}
    (h : applyLinkQuality cfg node infos e = .ok e') :
    ∀ info ∈ infos, 1 ≤ info.vlcTxId ∧ info.vlcTxId ≤ cfg.nVlc := by
  induction infos generalizing e with
  | nil => exact fun _ hinfo => absurd hinfo List.not_mem_nil
  | cons info infos ih =>
    rw [applyLinkQuality] at h
    obtain ⟨row, hrow, h⟩ := bind_eq_ok.mp h
    obtain ⟨e1, _, h⟩ := bind_eq_ok.mp h
    obtain ⟨hge, hlt, _⟩ := readCell_eq_ok hrow
    intro info' hinfo
    rcases List.mem_cons.mp hinfo with rfl | hinfo
    · exact ⟨by omega, by omega⟩
    · exact ih h info' hinfo

/-! ## End to end -/

/-- The node sends a report, and the gateway applies it; `rest` is what else is in its buffer. -/
def ackRound (cfg : Config) (g : Globals) (eh : EtherHeader) (nodeId : UInt8) (status : NodeStatus)
    (in255Range : ℕ → ℤ) (rest : List UInt8) : Except Fault Globals := do
  let frame ← sendReport eh nodeId status cfg.nVlc in255Range
  receiveReport cfg g (frame ++ rest)

/-- The statuses that can be sent: the window lies in the tables, and its report in the buffer. -/
structure Sendable (cfg : Config) (status : NodeStatus) : Prop where
  size : status.size = Node.maxSeqNumber
  rcvSeq_nonneg : 0 ≤ status.rcvSeq
  length_nonneg : 0 ≤ patternLength status
  last_lt : status.lastRcvSeq < maxSeqNumber
  fits : 24 + byteCount (patternLength status).toNat + 2 * cfg.nVlc ≤ bufSiz

def statusContents (cfg : Config) (nodeId : UInt8) (status : NodeStatus) (in255Range : ℕ → ℤ)
    (hs : Sendable cfg status) : Contents where
  nodeId := nodeId
  ackNumber := status.rcvSeq
  ackFits := by
    have h0 := hs.rcvSeq_nonneg
    have h1 := hs.length_nonneg
    have h2 := hs.last_lt
    simp only [patternLength, maxSeqNumber] at h1 h2
    exact ⟨by omega, by omega⟩
  bits := (List.range (patternLength status).toNat).map fun (k : ℕ) =>
    decide (status.rcvState (status.rcvSeq + k).toNat % 2 = 1)
  vlc := (List.range cfg.nVlc).map fun i => (UInt8.ofNat (i + 1), UInt8.ofInt (in255Range i))
  vlcFits := by simpa using cfg.nVlc_le

theorem sendsContents_status {cfg : Config} {nodeId : UInt8} {status : NodeStatus} {in255Range : ℕ → ℤ}
    (hs : Sendable cfg status) : SendsContents nodeId status cfg.nVlc in255Range
      (statusContents cfg nodeId status in255Range hs) where
  nodeId := rfl
  ackNumber := rfl
  patternLength := by
    have h := hs.length_nonneg
    simp only [statusContents, List.length_map, List.length_range]
    rw [Int.toNat_of_nonneg h, patternLength]
  bits := by
    intro k hk
    simp only [statusContents, List.length_map, List.length_range] at hk
    have h0 := hs.rcvSeq_nonneg
    have h2 := hs.last_lt
    have hsize := hs.size
    simp only [patternLength, maxSeqNumber, Node.maxSeqNumber] at hk h2 hsize
    refine ⟨by omega, by omega, ?_⟩
    simp only [statusContents, List.getElem_map, List.getElem_range]
    by_cases hodd : status.rcvState (status.rcvSeq + k).toNat % 2 = 1
    · rw [decide_eq_true hodd, hodd]
      rfl
    · rw [decide_eq_false hodd, Bool.toNat_false]
      omega
  vlc := rfl

theorem statusContents_bytes_length {cfg : Config} {nodeId : UInt8} {status : NodeStatus}
    {in255Range : ℕ → ℤ} (hs : Sendable cfg status) :
    (statusContents cfg nodeId status in255Range hs).bytes.length =
      10 + byteCount (patternLength status).toNat + 2 * cfg.nVlc := by
  rw [Contents.bytes_length]
  simp [statusContents]

theorem isFromNode_append (cfg : Config) (eh : EtherHeader) (bytes : List UInt8) :
    isFromNode cfg (eh.bytes ++ bytes) = isFromNode cfg eh.bytes := by
  have hsize := eh.size
  unfold isFromNode
  rw [List.drop_append_of_le_length (by omega), List.take_append_of_le_length (by simp; omega),
    List.take_append_of_le_length (by omega)]

section
variable {cfg : Config} {g : Globals} {eh : EtherHeader} {nodeId : UInt8} {status : NodeStatus}
  {in255Range : ℕ → ℤ} {rest : List UInt8}

def withUnackedSeq (g : Globals) (node : ℕ) (ack : ℤ) : Globals :=
  { g with status := { g.status with unackedSeq := Function.update g.status.unackedSeq node ack } }

variable (g in255Range rest) in
theorem ackRound_eq (hs : Sendable cfg status) (hid : 0 < nodeId.toNat) (hid' : nodeId.toNat ≤ cfg.nNode)
    (hfrom : isFromNode cfg eh.bytes = true) :
    ackRound cfg g eh nodeId status in255Range rest =
      let c := statusContents cfg nodeId status in255Range hs
      (do
        let g ← applyAckBits (nodeId.toNat - 1) (c.bits.map bitByte) (patternLength status).toNat 0
          (withUnackedSeq g (nodeId.toNat - 1) status.rcvSeq)
        let e ← applyLinkQuality cfg (nodeId.toNat - 1) c.packet.vlcData g.e
        return { g with e }) := by
  set c := statusContents cfg nodeId status in255Range hs with hc
  have hbytes : c.bytes.length = _ := statusContents_bytes_length hs
  have hfit := hs.fits
  have hsend := @sendReport_ok eh nodeId status cfg.nVlc in255Range _ (sendsContents_status hs)
    (by rw [statusContents_bytes_length]; omega)
  have hdrop : (eh.bytes ++ c.bytes ++ rest).drop 14 = c.bytes ++ rest := by
    rw [List.append_assoc, ← eh.size, List.drop_left]
  have hbits : c.bits.length < 2 ^ 31 := by
    have h0 := hs.rcvSeq_nonneg
    have h1 := hs.last_lt
    simp only [hc, statusContents, List.length_map, List.length_range, patternLength, maxSeqNumber] at h1 ⊢
    omega
  have hdecode := generateStatusReportFromString_ok c rest hbits
  have hnode : (c.packet.nodeId - 1).toNat = nodeId.toNat - 1 := by
    simp only [hc, Contents.packet, statusContents]
    omega
  have hlen : c.packet.patternLength.toNat = (patternLength status).toNat := by
    simp only [hc, Contents.packet, statusContents, Int.toNat_natCast, List.length_map, List.length_range]
  have hvlc : c.packet.vlcData.take c.packet.nVlc.toNat = c.packet.vlcData := by
    refine List.take_of_length_le ?_
    simp [Contents.packet]
  have hcond : c.packet.nodeId > 0 ∧ c.packet.nodeId ≤ cfg.nNode := by
    simp only [hc, Contents.packet, statusContents]
    omega
  rw [ackRound, hsend, ok_bind, receiveReport, List.append_assoc, isFromNode_append, if_pos hfrom,
    ← List.append_assoc, hdrop, hdecode, ok_bind]
  simp only [if_pos hcond, hlen, hvlc, hnode]
  rfl

/-- The decoded pattern never holds the character `'1'`. -/
theorem bitByte_ne_one_char (bits : List Bool) : ∀ b ∈ bits.map bitByte, b ≠ 0x31 := by
  have h : ∀ b, bitByte b ≠ 0x31 := by decide
  intro b hb
  obtain ⟨a, _, rfl⟩ := List.mem_map.mp hb
  exact h a

/-- **A report never changes a packet state or the table.** It is applied without a fault when its window
is empty or starts above 0. -/
theorem ackRound_ok (hs : Sendable cfg status) (hid : 0 < nodeId.toNat) (hid' : nodeId.toNat ≤ cfg.nNode)
    (hfrom : isFromNode cfg eh.bytes = true) (hack : patternLength status = 0 ∨ 0 < status.rcvSeq) :
    ∃ g', ackRound cfg g eh nodeId status in255Range rest = .ok g' ∧
      g'.status.pktState = g.status.pktState ∧ g'.unackedVlcPacket = g.unackedVlcPacket := by
  have heq := ackRound_eq g in255Range rest hs hid hid' hfrom
  set c := statusContents cfg nodeId status in255Range hs with hc
  set node := nodeId.toNat - 1
  have hacks : applyAckBits node (c.bits.map bitByte) (patternLength status).toNat 0
      (withUnackedSeq g node status.rcvSeq) = .ok (withUnackedSeq g node status.rcvSeq) := by
    rcases hack with hempty | hpos
    · rw [hempty]
      rfl
    · have hseq : (withUnackedSeq g node status.rcvSeq).status.unackedSeq node = status.rcvSeq :=
        Function.update_self _ _ _
      refine applyAckBits_ok (bitByte_ne_one_char c.bits) (by simp [hc, statusContents]) fun k hk => ?_
      have hlast := hs.last_lt
      simp only [patternLength, maxSeqNumber] at hk hlast
      rw [hseq, wrap32_of_fits ⟨by omega, by omega⟩]
      omega
  have hids : ∀ info ∈ c.packet.vlcData, 1 ≤ info.vlcTxId ∧ info.vlcTxId ≤ cfg.nVlc := by
    intro info hinfo
    have hle := cfg.nVlc_le
    simp only [hc, Contents.packet, statusContents, List.map_map, List.mem_map, List.mem_range] at hinfo
    obtain ⟨i, hi, rfl⟩ := hinfo
    simp only [Function.comp_apply, UInt8.toNat_ofNat']
    omega
  obtain ⟨e', he'⟩ := @applyLinkQuality_ok _ node _ g.e hids
  refine ⟨{ withUnackedSeq g node status.rcvSeq with e := e' }, ?_, rfl, rfl⟩
  rw [heq]
  simp only [hacks, ok_bind]
  change (applyLinkQuality cfg node c.packet.vlcData g.e >>= _) = _
  rw [he']
  rfl

/-- A nonempty window that starts at 0 makes the gateway read below its table. -/
theorem ackRound_fault (hs : Sendable cfg status) (hid : 0 < nodeId.toNat) (hid' : nodeId.toNat ≤ cfg.nNode)
    (hfrom : isFromNode cfg eh.bytes = true) (hzero : status.rcvSeq = 0) (hlen : 0 < patternLength status) :
    ackRound cfg g eh nodeId status in255Range rest = .error (.outOfBounds (-1)) := by
  have hseq : (withUnackedSeq g (nodeId.toNat - 1) status.rcvSeq).status.unackedSeq (nodeId.toNat - 1) = 0 := by
    rw [← hzero]
    exact Function.update_self _ _ _
  rw [ackRound_eq _ _ _ hs hid hid' hfrom]
  simp only [applyAckBits_fault hseq (show 0 < (patternLength status).toNat by omega), error_bind]

end

/-! ## Exact acknowledgement -/

/-- The packets that the report should acknowledge: in the window, received, and waiting for it. -/
def NewlyAcked (g : Globals) (node : ℕ) (status : NodeStatus) (s : ℕ) : Prop :=
  status.rcvSeq ≤ s ∧ s ≤ status.lastRcvSeq ∧ g.status.pktState node s = .vlcUnacked ∧
    status.rcvState s = 1

instance (g : Globals) (node : ℕ) (status : NodeStatus) (s : ℕ) : Decidable (NewlyAcked g node status s) :=
  inferInstanceAs (Decidable (_ ∧ _))

/-- The report acknowledged exactly what it should. -/
structure AckExact (before after : Globals) (node : ℕ) (status : NodeStatus) : Prop where
  acked : ∀ s, NewlyAcked before node status s → after.status.pktState node s = .vlcAcked
  unchanged : ∀ n s, ¬ (n = node ∧ NewlyAcked before node status s) →
    after.status.pktState n s = before.status.pktState n s
  removed : ∀ p, after.unackedVlcPacket.count p =
    if p.nodeId.toNat = node + 1 ∧ NewlyAcked before node status p.seqNumber.toNat then 0
    else before.unackedVlcPacket.count p

theorem AckExact.of_unchanged {before after : Globals} {node : ℕ} {status : NodeStatus}
    (hstate : after.status.pktState = before.status.pktState)
    (htable : after.unackedVlcPacket = before.unackedVlcPacket)
    (hnone : ∀ s, ¬ NewlyAcked before node status s) : AckExact before after node status where
  acked := fun s h => absurd h (hnone s)
  unchanged := fun n s _ => by rw [hstate]
  removed := fun p => by rw [htable, if_neg (fun h => hnone _ h.2)]

theorem not_ackExact_of_unchanged {before after : Globals} {node : ℕ} {status : NodeStatus} {s : ℕ}
    (hstate : after.status.pktState = before.status.pktState) (hdue : NewlyAcked before node status s) :
    ¬ AckExact before after node status := by
  intro h
  have hacked := h.acked s hdue
  rw [hstate, hdue.2.2.1] at hacked
  cases hacked

/-- Packet 2 has overtaken packet 1: the report says so, and the gateway still waits for packet 2. -/
theorem ackRound_misses_received :
    let status : NodeStatus := ⟨1, fun s => if s = 0 ∨ s = 2 then 1 else 0, 2, 500000⟩
    let p : GatewayPacket := ⟨1, 1, 74, 2, []⟩
    let g0 := initialGlobals shipped
    let g : Globals := { g0 with
      status := { g0.status with pktState := fun _ s => if s = 2 then .vlcUnacked else .unset }
      unackedVlcPacket := [p] }
    let eh : EtherHeader := ⟨rfMac ++ shipped.nodeAddresses 0 ++ [0, 3], rfl⟩
    ¬ ∃ g', ackRound shipped g eh 1 status (fun _ => 255) [] = .ok g' ∧ AckExact g g' 0 status := by
  intro status p g0 g eh
  rintro ⟨g', hrun, hexact⟩
  have hs : Sendable shipped status := ⟨rfl, by decide, by decide, by decide, by decide⟩
  obtain ⟨g'', hrun', hstate, _⟩ := @ackRound_ok shipped g eh 1 status (fun _ => 255) [] hs (by decide)
    (by decide) (by decide) (Or.inr (by decide))
  rw [hrun] at hrun'
  cases hrun'
  exact not_ackExact_of_unchanged (s := 2) hstate ⟨by decide, by decide, rfl, rfl⟩ hexact

/-- **When a report is applied exactly.** Its window is empty or starts above 0, and no packet of the
window is both received and waiting for an acknowledgement. -/
theorem ackRound_exact_iff (cfg : Config) (g : Globals) (eh : EtherHeader) (nodeId : UInt8)
    (status : NodeStatus) (in255Range : ℕ → ℤ) (rest : List UInt8) (hs : Sendable cfg status)
    (hid : 0 < nodeId.toNat) (hid' : nodeId.toNat ≤ cfg.nNode) (hfrom : isFromNode cfg eh.bytes = true) :
    (∃ g', ackRound cfg g eh nodeId status in255Range rest = .ok g' ∧
      AckExact g g' (nodeId.toNat - 1) status) ↔
    (patternLength status = 0 ∨ 0 < status.rcvSeq) ∧
      ∀ s, ¬ NewlyAcked g (nodeId.toNat - 1) status s := by
  constructor
  · rintro ⟨g', hrun, hexact⟩
    have hack : patternLength status = 0 ∨ 0 < status.rcvSeq := by
      by_contra hneg
      have h0 := hs.rcvSeq_nonneg
      have h1 := hs.length_nonneg
      rw [ackRound_fault hs hid hid' hfrom (by omega) (by omega)] at hrun
      cases hrun
    obtain ⟨g'', hrun', hstate, _⟩ := @ackRound_ok _ g _ _ _ in255Range rest hs hid hid' hfrom hack
    rw [hrun] at hrun'
    cases hrun'
    exact ⟨hack, fun s hdue => not_ackExact_of_unchanged hstate hdue hexact⟩
  · rintro ⟨hack, hnone⟩
    obtain ⟨g', hrun, hstate, htable⟩ := @ackRound_ok _ g _ _ _ in255Range rest hs hid hid' hfrom hack
    exact ⟨g', hrun, .of_unchanged hstate htable hnone⟩

/-- A report of a window in which nothing has been received yet. -/
theorem ackRound_exact_iff_nothing_received :
    let status : NodeStatus := ⟨5, fun s => if s < 5 then 1 else 0, 6, 500000⟩
    let g := initialGlobals shipped
    let eh : EtherHeader := ⟨rfMac ++ shipped.nodeAddresses 0 ++ [0, 3], rfl⟩
    ∃ g', ackRound shipped g eh 1 status (fun _ => 255) [] = .ok g' ∧ AckExact g g' 0 status := by
  intro status g eh
  have hs : Sendable shipped status := ⟨rfl, by decide, by decide, by decide, by decide⟩
  refine (ackRound_exact_iff shipped g eh 1 status (fun _ => 255) [] hs (by decide) (by decide)
    (by decide)).mpr ⟨Or.inr (by decide), ?_⟩
  rintro s ⟨_, _, hstate, _⟩
  cases hstate

end CiotVlc.Gateway
