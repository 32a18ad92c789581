import CiotVlc.Foundations.Bytes
import CiotVlc.Foundations.Runs
import CiotVlc.Gateway.State

/-! # Generating and scheduling packets

The loop bodies of `generate_packet` and `schedule_packet` for one node, on the gateway's globals and
its heap, and the system in which the two threads take turns in any order. What `schedule` decides
is an input (the repository's own version always answers RF mode), so both branches of the
dispatcher are modelled.
-/
namespace CiotVlc.Gateway
open Foundations.Bytes Foundations.Checked Foundations.Runs
set_option autoImplicit false

/-! ## generate_packet -/

/-- The random bytes of a generated packet. -/
abbrev Payload := { data : List UInt8 // data.length = payloadSize }

def generateRandomNode (heap : Heap) (nodeId : ℕ) (payload : Payload) : ℕ × Heap :=
  heap.alloc
    { nodeId := UInt16.ofNat nodeId, vlcId := 1, payloadLen := UInt16.ofNat payloadSize, seqNumber := 0,
      data := payload.val }

def Heap.setSeqNumber (heap : Heap) (a : ℕ) (seq : UInt32) : Heap :=
  { heap with data := Function.update heap.data a { heap.data a with seqNumber := seq } }

def Heap.setVlcId (heap : Heap) (a : ℕ) (vlcId : UInt16) : Heap :=
  { heap with data := Function.update heap.data a { heap.data a with vlcId := vlcId } }

/-- `arr_seq`, `unsched_seq`: one further, modulo `MAX_SEQ_NUMBER`. -/
def nextSeq (seq : ℤ) : ℤ := (seq + 1).tmod maxSeqNumber

/-- `arr_seq` stored in the `uint32_t` field of a packet. -/
def seqField (arrSeq : ℤ) : UInt32 := UInt32.ofNat (ofInt32 arrSeq)

def Globals.countGenerated (g : Globals) (i : ℕ) : Globals :=
  { g with
    status := { g.status with
      arrSeq := Function.update g.status.arrSeq i (nextSeq (g.status.arrSeq i)) }
    gn := Function.update g.gn i (g.gn i + 1) }

def Globals.setNodeQueue (g : Globals) (i : ℕ) (heap : Heap) (q : PacketQueue) : Globals :=
  { g with heap, nodeQueues := Function.update g.nodeQueues i q }

/-- One iteration of the loop over `n_generated_packets`. -/
def generateOne (g : Globals) (i : ℕ) (payload : Payload) : Except Fault Globals := do
  let (pN, heap) := generateRandomNode g.heap (i + 1) payload
  let heap := heap.setSeqNumber pN (seqField (g.status.arrSeq i))
  let (_, heap, q) ← push heap (g.nodeQueues i) pN
  return (g.setNodeQueue i heap q).countGenerated i

def generateMany (i : ℕ) : List Payload → Globals → Except Fault Globals
  | [], g => .ok g
  | payload :: payloads, g => do
    let g ← generateOne g i payload
    generateMany i payloads g

/-- The body of `generate_packet` for node `i`; the payloads are what `rand` gives. -/
def generatePacket (cfg : Config) (g : Globals) (i : ℕ) (payloads : ℕ → Payload) :
    Except Fault Globals :=
  if g.gn i + cfg.generatedPackets < cfg.nodeQueueSize then
    generateMany i ((List.range cfg.generatedPackets).map payloads) g
  else .ok g

/-! ## schedule_packet -/

inductive Mode
  | idle
  | rf
  | vlc
  deriving DecidableEq, Repr

/-- What `schedule` returns: the targets are existing transmitters. -/
structure SchedulingResult (cfg : Config) where
  mode : Mode
  vlcTgtSet : List (Fin cfg.nVlc)

/-- What a pass wrote: the index into `pkt_state[node]`, the one into `expire_time[node]` if any, and
the sequence number stored in the packet. -/
structure Dispatch where
  node : ℕ
  index : ℤ
  expireIndex : Option ℤ
  seqNumber : ℕ
  deriving DecidableEq, Repr

/-- `for (j = 0; j < VLC_Tx_set_size; j++)` -/
def pushVlc {cfg : Config} (item : ℕ) : List (Fin cfg.nVlc) → Globals → Except Fault Globals
  | [], g => .ok g
  | tx :: txs, g => do
    let (_, heap, q) ← push (g.heap.setVlcId item (UInt16.ofNat tx)) g.vlcQueue item
    pushVlc item txs { g with
      heap, vlcQueue := q, dVlc := Function.update g.dVlc tx (g.dVlc tx + 1) }

/-- `TIMEOUT_SECOND` and `TIMEOUT_NANOSECOND` added to the current time. -/
def addTimeout (now : Timespec) : Timespec := ⟨now.tvSec + 0, now.tvNsec + 600000⟩

def setPktState (g : Globals) (i : ℕ) (k : ℤ) (state : PktState) : Except Fault Globals := do
  let row ← writeCell maxSeqNumber (g.status.pktState i) k state
  return { g with status := { g.status with pktState := Function.update g.status.pktState i row } }

def setExpireTime (g : Globals) (i : ℕ) (k : ℤ) (time : Timespec) : Except Fault Globals := do
  let row ← writeCell maxSeqNumber (g.status.expireTime i) k time
  return { g with status := { g.status with expireTime := Function.update g.status.expireTime i row } }

/-- A full table discards the packet. -/
def Globals.addUnacked (g : Globals) (packet : GatewayPacket) : Globals :=
  if g.unackedVlcPacket.length + 1 < maxUnackedVlcPacket then
    { g with unackedVlcPacket := g.unackedVlcPacket ++ [packet] }
  else g

def Globals.countPopped (g : Globals) (i : ℕ) : Globals :=
  { g with gn := Function.update g.gn i (g.gn i - 1) }

def dispatchPacket (cfg : Config) (g : Globals) (i : ℕ) (result : SchedulingResult cfg) (now : Timespec)
    (temp : ℕ) (unschedPktIdx : ℤ) : Except Fault (Globals × Dispatch) := do
  let seqNumber := (g.heap.data temp).seqNumber.toNat
  let g := g.countPopped i
  if result.mode = .rf then
    let (_, heap, q) ← push g.heap g.rfQueue temp
    let g ← setPktState { g with heap, rfQueue := q } i unschedPktIdx .rf
    return ({ g with r := g.r + 1 }, ⟨i, unschedPktIdx, none, seqNumber⟩)
  else
    let g ← pushVlc temp result.vlcTgtSet g
    let g ← setPktState g i unschedPktIdx .vlcUnacked
    let g ← setExpireTime g i unschedPktIdx (addTimeout now)
    return (g.addUnacked (g.heap.data temp), ⟨i, unschedPktIdx, some unschedPktIdx, seqNumber⟩)

def Globals.advanceUnsched (g : Globals) (i : ℕ) : Globals :=
  { g with
    status := { g.status with
      unschedSeq := Function.update g.status.unschedSeq i (nextSeq (g.status.unschedSeq i)) } }

/-- The body of `schedule_packet` for node `i`. -/
def schedulePacket (cfg : Config) (g : Globals) (i : ℕ) (result : SchedulingResult cfg) (now : Timespec) :
    Except Fault (Globals × Option Dispatch) := do
  if result.mode = .idle then return (g, none)
  else
    let (temp, q) ← pop g.heap (g.nodeQueues i)
    let unschedPktIdx := g.status.unschedSeq i
    -- `unsched_seq` advances before the popped pointer is tested
    let g := (g.setNodeQueue i g.heap q).advanceUnsched i
    match temp with
    | none => return (g, none)
    | some temp =>
      let (g, dispatch) ← dispatchPacket cfg g i result now temp unschedPktIdx
      return (g, some dispatch)

/-! ## The two threads -/

/-- The globals, the loop variable of each thread, and two histories: how often a pass found the queue
of a node empty, and what was dispatched. -/
structure DispatchSystem where
  globals : Globals
  genNode : ℕ
  schedNode : ℕ
  emptyPasses : ℕ → ℕ
  dispatched : List Dispatch

inductive DispatchAction (cfg : Config)
  | generate (payloads : ℕ → Payload)
  | schedule (result : SchedulingResult cfg) (now : Timespec)

def initialDispatch (cfg : Config) : DispatchSystem where
  globals := initialGlobals cfg
  genNode := 0
  schedNode := 0
  emptyPasses := fun _ => 0
  dispatched := []

/-- One iteration of one of the loops over the nodes. -/
def dispatchStep (cfg : Config) (s : DispatchSystem) : DispatchAction cfg → Option DispatchSystem
  | .generate payloads =>
    if s.genNode < cfg.nNode then
      match generatePacket cfg s.globals s.genNode payloads with
      | .ok g => some { s with globals := g, genNode := (s.genNode + 1) % cfg.nNode }
      | .error _ => none
    else none
  | .schedule result now =>
    let i := s.schedNode
    if i < cfg.nNode then
      match schedulePacket cfg s.globals i result now with
      | .ok (g, dispatch) =>
        some { s with
          globals := g
          schedNode := (i + 1) % cfg.nNode
          emptyPasses :=
            if result.mode ≠ .idle ∧ (s.globals.nodeQueues i).isEmpty then
              Function.update s.emptyPasses i (s.emptyPasses i + 1)
            else s.emptyPasses
          dispatched := s.dispatched ++ dispatch.toList }
      | .error _ => none
    else none

end CiotVlc.Gateway
