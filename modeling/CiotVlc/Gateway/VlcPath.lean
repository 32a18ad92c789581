import CiotVlc.Foundations.LinkedQueue
import CiotVlc.Foundations.SwapRemove
import CiotVlc.Gateway.ReceiveReport
import CiotVlc.Gateway.RfPath

/-! # The VLC path of the gateway

The globals that packets scheduled to VLC pass through, and one iteration of each thread that works on
them: `generate_packet`, `schedule_packet` in VLC mode, `transmit_vlc`, `receive_report` and
`check_unacked`. A queue is the list of its packets, and the serial number of a packet stands for its
payload buffer: copies of `struct gateway_packet` share it, and `released` lists what `transmit_vlc`
has freed. `schedule` names one transmitter, as the repository's own version does.
-/
namespace CiotVlc.Gateway
open Foundations.Checked Foundations.LinkedQueue Foundations.SwapRemove Foundations.Bytes CiotVlc.Report
set_option autoImplicit false

/-- `unacked` lists the first `n_unacked_vlc_packet` entries of `unacked_vlc_packet`. -/
structure VlcPath where
  nodeQueues : ℕ → List Parcel
  vlcQueue : List Parcel
  rfQueue : List Parcel
  unacked : List Parcel
  arrSeq : ℕ → ℤ
  unackedSeq : ℕ → ℤ
  unschedSeq : ℕ → ℤ
  pktState : ℕ → ℕ → PktState
  expireTime : ℕ → ℕ → Timespec
  gn : ℕ → ℤ
  r : ℤ
  dVlc : ℕ → ℤ
  e : ℕ → ℕ → ℚ
  serial : ℕ
  released : List ℕ

def initialVlcPath : VlcPath where
  nodeQueues := fun _ => []
  vlcQueue := []
  rfQueue := []
  unacked := []
  arrSeq := fun _ => 0
  unackedSeq := fun _ => 0
  unschedSeq := fun _ => 0
  pktState := fun _ _ => .unset
  expireTime := fun _ _ => ⟨0, 0⟩
  gn := fun _ => 0
  r := 0
  dVlc := fun _ => 0
  e := fun _ _ => 0
  serial := 0
  released := []

/-! ## generate_packet and schedule_packet -/

namespace VlcPath

/-- One iteration of the loop over `n_generated_packets`. -/
def generateOne (cfg : Config) (i : ℕ) (s : VlcPath) (payload : Payload) : VlcPath :=
  let packet : GatewayPacket :=
    { nodeId := UInt16.ofNat (i + 1), vlcId := 1, payloadLen := UInt16.ofNat payloadSize,
      seqNumber := seqField (s.arrSeq i), data := payload.val }
  { s with
    serial := s.serial + 1
    arrSeq := Function.update s.arrSeq i (nextSeq (s.arrSeq i))
    nodeQueues := Function.update s.nodeQueues i
      (Fifo.push (capacity cfg.nodeQueueSize) (s.nodeQueues i) ⟨i, s.serial, packet⟩)
    gn := Function.update s.gn i (s.gn i + 1) }

/-- The body of `generate_packet` for node `i`. -/
def generatePacket (cfg : Config) (s : VlcPath) (i : ℕ) (payloads : ℕ → Payload) : VlcPath :=
  if s.gn i + cfg.generatedPackets < cfg.nodeQueueSize then
    ((List.range cfg.generatedPackets).map payloads).foldl (generateOne cfg i) s
  else s

/-- A full table discards the packet. -/
def addUnacked (s : VlcPath) (temp : Parcel) : VlcPath :=
  if s.unacked.length + 1 < maxUnackedVlcPacket then { s with unacked := s.unacked ++ [temp] } else s

/-- The body of `schedule_packet` for node `i`, which `schedule` sends over transmitter `tx`. -/
def schedulePacket (cfg : Config) (s : VlcPath) (i : ℕ) (tx : Fin cfg.nVlc) (now : Timespec) : VlcPath :=
  let unschedPktIdx := s.unschedSeq i
  let unschedSeq := Function.update s.unschedSeq i (nextSeq unschedPktIdx)
  match s.nodeQueues i with
  | [] => { s with unschedSeq }
  | temp :: q =>
    let temp := { temp with packet := { temp.packet with vlcId := UInt16.ofNat tx } }
    let s := { s with
      unschedSeq
      nodeQueues := Function.update s.nodeQueues i q
      gn := Function.update s.gn i (s.gn i - 1)
      vlcQueue := Fifo.push (capacity cfg.rfQueueSize) s.vlcQueue temp
      dVlc := Function.update s.dVlc tx (s.dVlc tx + 1)
      pktState := Function.update s.pktState i
        (Function.update (s.pktState i) unschedPktIdx.toNat .vlcUnacked)
      expireTime := Function.update s.expireTime i
        (Function.update (s.expireTime i) unschedPktIdx.toNat (addTimeout now)) }
    -- a shallow copy: the entry and the queued packet share their payload
    s.addUnacked temp

/-! ## transmit_vlc -/

/-- One iteration of `transmit_vlc`; it sends until the send succeeds, and then frees the payload. -/
def transmitVlc (s : VlcPath) : VlcPath :=
  match s.vlcQueue with
  | [] => s
  | temp :: q =>
    { s with
      vlcQueue := q
      released := s.released ++ [temp.serial]
      dVlc := Function.update s.dVlc temp.packet.vlcId.toNat (s.dVlc temp.packet.vlcId.toNat - 1) }

/-! ## receive_report -/

/-- One iteration of the loop over the pattern. -/
def applyAckBit (node : ℕ) (pattern : List UInt8) (s : VlcPath) (i : ℕ) : Except Fault VlcPath := do
  let curr := wrap32 (s.unackedSeq node + i - 1)
  if curr < maxSeqNumber then
    let state ← readCell maxSeqNumber (s.pktState node) curr
    if state = .vlcUnacked then
      let bit ← readByte pattern i
      if bit = 0x31 then -- the character '1'
        let row ← writeCell maxSeqNumber (s.pktState node) curr .vlcAcked
        return { s with
          pktState := Function.update s.pktState node row
          unacked := swapRemove (fun p => isEntryOf node curr p.packet) s.unacked }
      else return s
    else return s
  else return s

/-- `for (i = 0; i < report.pattern_length; i++)` -/
def applyAckBits (node : ℕ) (pattern : List UInt8) (s : VlcPath) (count : ℕ) : Except Fault VlcPath :=
  (List.range count).foldlM (applyAckBit node pattern) s

/-- What `receive_report` does with one received frame. -/
def receiveReport (cfg : Config) (s : VlcPath) (buf : List UInt8) : Except Fault VlcPath := do
  if isFromNode cfg buf then
    let (report, _) ← generateStatusReportFromString (buf.drop 14)
    if report.nodeId > 0 ∧ report.nodeId ≤ cfg.nNode then
      let node := (report.nodeId - 1).toNat
      let s := { s with unackedSeq := Function.update s.unackedSeq node report.ackNumber }
      let s ← s.applyAckBits node report.ackBitPattern report.patternLength.toNat
      let e ← applyLinkQuality cfg node (report.vlcData.take report.nVlc.toNat) s.e
      return { s with e }
    else return s
  else return s

/-! ## check_unacked -/

/-- `diff <= 0`, in nanoseconds. -/
def expired (expire now : Timespec) : Bool :=
  (expire.tvSec - now.tvSec) * 1000000000 + (expire.tvNsec - now.tvNsec) ≤ 0

/-- The first table entry of packet `j` of node `i` goes to `rf_queue`. -/
def resend (cfg : Config) (s : VlcPath) (i : ℕ) (j : ℤ) (entry : Parcel) : Except Fault VlcPath := do
  let row ← writeCell maxSeqNumber (s.pktState i) j .rf
  -- the result of the push is not looked at
  return { s with
    rfQueue := Fifo.push (capacity cfg.rfQueueSize) s.rfQueue entry
    pktState := Function.update s.pktState i row
    r := s.r + 1
    unacked := swapRemove (fun p => isEntryOf i j p.packet) s.unacked }

/-- One iteration of the loop over the sequence numbers. -/
def checkPacket (cfg : Config) (now : Timespec) (i : ℕ) (s : VlcPath) (j : ℤ) : Except Fault VlcPath := do
  let expire ← readCell maxSeqNumber (s.expireTime i) j
  let state ← readCell maxSeqNumber (s.pktState i) j
  if state = .vlcUnacked ∧ expired expire now then
    match s.unacked.find? (fun p => isEntryOf i j p.packet) with
    | some entry => resend cfg s i j entry
    | none => return s
  else return s

/-- `j = unacked_seq[i]; j < unsched_seq[i]; j++` -/
def scanned (s : VlcPath) (i : ℕ) : List ℤ :=
  (List.range (s.unschedSeq i - s.unackedSeq i).toNat).map fun (k : ℕ) => s.unackedSeq i + k

def checkNode (cfg : Config) (now : Timespec) (s : VlcPath) (i : ℕ) : Except Fault VlcPath :=
  (s.scanned i).foldlM (checkPacket cfg now i) s

def checkUnacked (cfg : Config) (now : Timespec) (s : VlcPath) : Except Fault VlcPath :=
  (List.range cfg.nNode).foldlM (checkNode cfg now) s

end VlcPath

end CiotVlc.Gateway
