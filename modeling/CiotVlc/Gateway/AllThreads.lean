import CiotVlc.Gateway.PayloadOwnership
import CiotVlc.Report.DecodeBounds

/-! # All threads of the gateway

One iteration of any thread a step: the VLC path with the RF threads behind it, both modes of the dispatcher,
`check_unacked` number by number, and any frames for `receive_report`. Every packet that the dispatcher takes
should be kept in one place until it has been sent over RF.
-/
namespace CiotVlc.Gateway
open Foundations.Runs Foundations.Checked Foundations.LinkedQueue Foundations.SwapRemove CiotVlc.Report
set_option autoImplicit false

/-! ## The dispatcher in RF mode -/

/-- The body of `schedule_packet` for node `i` in `RF_MODE`. -/
def VlcPath.scheduleRf (cfg : Config) (s : VlcPath) (i : ℕ) : VlcPath :=
  let unschedPktIdx := s.unschedSeq i
  let unschedSeq := Function.update s.unschedSeq i (nextSeq unschedPktIdx)
  match s.nodeQueues i with
  | [] => { s with unschedSeq }
  | temp :: q =>
    { s with
      unschedSeq
      nodeQueues := Function.update s.nodeQueues i q
      gn := Function.update s.gn i (s.gn i - 1)
      rfQueue := Fifo.push (capacity cfg.rfQueueSize) s.rfQueue temp
      pktState := Function.update s.pktState i (Function.update (s.pktState i) unschedPktIdx.toNat .rf)
      r := s.r + 1 }

/-- The packet as it goes to transmitter `tx`. -/
def Parcel.toTx {cfg : Config} (temp : Parcel) (tx : Fin cfg.nVlc) : Parcel :=
  { temp with packet := { temp.packet with vlcId := UInt16.ofNat tx } }

/-! ## The threads -/

/-- `checkNode` and `checkSeq` are the loop variables of `check_unacked`; the last three fields are histories:
what the dispatcher took, and what has been sent. -/
structure GatewaySystem where
  path : VlcPath
  tbfQueue : List Parcel
  tbfQueueLength : ℤ
  nToken : ℤ
  checkNode : ℕ
  checkSeq : ℤ
  scheduled : List Parcel
  vlcSent : List Parcel
  rfSent : List Parcel

def initialGateway : GatewaySystem where
  path := initialVlcPath
  tbfQueue := []
  tbfQueueLength := 0
  nToken := 0
  checkNode := 0
  checkSeq := 0
  scheduled := []
  vlcSent := []
  rfSent := []

inductive ThreadAction (cfg : Config)
  | generate (i : Fin cfg.nNode) (payloads : ℕ → Payload)
  | scheduleRf (i : Fin cfg.nNode)
  | scheduleVlc (i : Fin cfg.nNode) (tx : Fin cfg.nVlc) (now : Timespec)
  | transmitVlc
  | report (buf : List UInt8)
  | check (now : Timespec)
  | transmitRf
  | addToken
  | tbfTransmit (sendSucceeds : Bool)

namespace GatewaySystem

/-- One iteration of `transmit_rf`. -/
def transmitRf (cfg : Config) (s : GatewaySystem) : GatewaySystem :=
  match s.path.rfQueue with
  | [] => s
  | temp :: q =>
    if s.tbfQueueLength < cfg.limit then
      { s with
        path := { s.path with rfQueue := q, r := s.path.r - 1 }
        tbfQueue := Fifo.push (capacity cfg.limit) s.tbfQueue temp
        tbfQueueLength := s.tbfQueueLength + 1 }
    else s

/-- One iteration of `add_token`. -/
def addToken (cfg : Config) (s : GatewaySystem) : GatewaySystem :=
  if cfg.burst - s.nToken ≥ cfg.tokenRate then { s with nToken := s.nToken + cfg.tokenRate } else s

/-- One iteration of `tbf_transmit`: a packet that cannot be sent is not put back. -/
def tbfTransmit (s : GatewaySystem) (sendSucceeds : Bool) : GatewaySystem :=
  match s.tbfQueue with
  | [] => s
  | temp :: q =>
    if s.nToken > 0 then
      if sendSucceeds then
        { s with
          tbfQueue := q
          nToken := s.nToken - 1
          tbfQueueLength := s.tbfQueueLength - 1
          rfSent := s.rfSent ++ [temp] }
      else { s with tbfQueue := q }
    else s

/-- One iteration of the inner loop of `check_unacked`, or the step to the next node. -/
def check (cfg : Config) (now : Timespec) (s : GatewaySystem) : Except Fault GatewaySystem :=
  if s.checkSeq < s.path.unschedSeq s.checkNode then do
    let path ← s.path.checkPacket cfg now s.checkNode s.checkSeq
    return { s with path, checkSeq := s.checkSeq + 1 }
  else
    let node := nextNode cfg s.checkNode
    .ok { s with checkNode := node, checkSeq := s.path.unackedSeq node }

end GatewaySystem

/-- A step that faults has no successor. -/
def gatewayStep (cfg : Config) (s : GatewaySystem) : ThreadAction cfg → Option GatewaySystem
  | .generate i payloads => some { s with path := s.path.generatePacket cfg i payloads }
  | .scheduleRf i =>
    some { s with path := s.path.scheduleRf cfg i, scheduled := s.scheduled ++ (s.path.nodeQueues i).take 1 }
  | .scheduleVlc i tx now =>
    some { s with
      path := s.path.schedulePacket cfg i tx now
      scheduled := s.scheduled ++ ((s.path.nodeQueues i).take 1).map (Parcel.toTx · tx) }
  | .transmitVlc => some { s with path := s.path.transmitVlc, vlcSent := s.vlcSent ++ s.path.vlcQueue.take 1 }
  | .report buf =>
    match s.path.receiveReport cfg buf with
    | .ok path => some { s with path }
    | .error _ => none
  | .check now => (s.check cfg now).toOption
  | .transmitRf => some (s.transmitRf cfg)
  | .addToken => some (s.addToken cfg)
  | .tbfTransmit sendSucceeds => some (s.tbfTransmit sendSucceeds)

/-! ## What each step does -/

section
variable {cfg : Config} {s t : VlcPath}

/-- The bytes of a decoded pattern are 0 or 1, never the character that acknowledges. -/
theorem applyAckBit_of_bits {node i : ℕ} {pattern : List UInt8} (hbits : ∀ b ∈ pattern, IsBit b)
    (h : s.applyAckBit node pattern i = .ok t) : t = s := by
  simp only [VlcPath.applyAckBit] at h
  split at h
  case isFalse =>
    cases h
    rfl
  case isTrue =>
    obtain ⟨state, -, h⟩ := bind_eq_ok.mp h
    split at h
    case isFalse =>
      cases h
      rfl
    case isTrue =>
      obtain ⟨bit, hread, h⟩ := bind_eq_ok.mp h
      obtain ⟨hlt, hbit⟩ := readByte_eq_ok hread
      have hmem : bit ∈ pattern := by
        rw [hbit, List.getD_eq_getElem _ _ hlt]
        exact List.getElem_mem hlt
      rw [if_neg] at h
      · cases h
        rfl
      · rintro rfl
        rcases hbits _ hmem with hbit | hbit <;> exact absurd hbit (by decide)

theorem receiveReport_cases {buf : List UInt8} (h : s.receiveReport cfg buf = .ok t) :
    t = s ∨ ∃ report idx e, generateStatusReportFromString (buf.drop 14) = .ok (report, idx) ∧
      (0 < report.nodeId ∧ report.nodeId ≤ cfg.nNode) ∧
      t = { s with unackedSeq := Function.update s.unackedSeq (report.nodeId - 1).toNat report.ackNumber, e } := by
  simp only [VlcPath.receiveReport] at h
  split at h
  case isFalse =>
    cases h
    exact Or.inl rfl
  case isTrue =>
    obtain ⟨⟨report, idx⟩, hdecode, h⟩ := bind_eq_ok.mp h
    simp only at h
    split at h
    case isFalse =>
      cases h
      exact Or.inl rfl
    case isTrue hid =>
      obtain ⟨s', hacks, h⟩ := bind_eq_ok.mp h
      obtain ⟨e, -, h⟩ := bind_eq_ok.mp h
      have hbits := (generateStatusReportFromString_bits hdecode).1
      rw [foldlM_invariant (I := fun u => u = _) hacks rfl
        fun u _ v _ hu hv => (applyAckBit_of_bits hbits hv).trans hu] at h
      cases h
      exact Or.inr ⟨report, idx, e, hdecode, hid, rfl⟩

/-- The table entry that the iteration for packet `j` of node `i` finds to be due. -/
def VlcPath.dueEntry (now : Timespec) (s : VlcPath) (i : ℕ) (j : ℤ) : Option Parcel :=
  if s.pktState i j.toNat = .vlcUnacked ∧ VlcPath.expired (s.expireTime i j.toNat) now then
    s.unacked.find? fun p => isEntryOf i j p.packet
  else none

theorem checkPacket_cases {now : Timespec} {i : ℕ} {j : ℤ} (h : s.checkPacket cfg now i j = .ok t) :
    s.dueEntry now i j = none ∧ t = s ∨
      ∃ entry, s.dueEntry now i j = some entry ∧
        s.unacked.find? (fun p => isEntryOf i j p.packet) = some entry ∧
        t = { s with
          rfQueue := Fifo.push (capacity cfg.rfQueueSize) s.rfQueue entry
          pktState := Function.update s.pktState i (Function.update (s.pktState i) j.toNat .rf)
          r := s.r + 1
          unacked := swapRemove (fun p => isEntryOf i j p.packet) s.unacked } := by
  simp only [VlcPath.checkPacket] at h
  obtain ⟨expire, hexpire, h⟩ := bind_eq_ok.mp h
  obtain ⟨state, hstate, h⟩ := bind_eq_ok.mp h
  obtain ⟨-, -, rfl⟩ := readCell_eq_ok hexpire
  obtain ⟨-, -, rfl⟩ := readCell_eq_ok hstate
  unfold VlcPath.dueEntry
  split at h
  case isFalse hnot =>
    cases h
    exact Or.inl ⟨if_neg hnot, rfl⟩
  case isTrue hdue =>
    rw [if_pos hdue]
    split at h
    case h_2 hfind =>
      cases h
      exact Or.inl ⟨hfind, rfl⟩
    case h_1 entry hfind =>
      obtain ⟨row, hrow, h⟩ := bind_eq_ok.mp h
      obtain ⟨-, -, rfl⟩ := writeCell_eq_ok hrow
      cases h
      exact Or.inr ⟨entry, hfind, hfind, rfl⟩

end

end CiotVlc.Gateway
