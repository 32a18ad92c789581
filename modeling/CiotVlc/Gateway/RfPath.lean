import CiotVlc.Gateway.Dispatch

/-! # The RF path of the gateway

The five threads `generate_packet`, `schedule_packet` (in RF mode, as shipped), `transmit_rf`,
`add_token` and `tbf_transmit` as program counters over the shared queues and counters. Each test,
queue operation and counter update is one step. A queue is the list of its packets: `push_ok`,
`push_full` and `pop_cons` say that the linked queue behaves so. `transmit_packet_rf` succeeds or
fails as the action says.
-/
namespace CiotVlc.Gateway
open Foundations.LinkedQueue
set_option autoImplicit false

/-- A generated packet: the node it is for, and a serial number that tells it from every other. -/
structure Parcel where
  node : ℕ
  serial : ℕ
  packet : GatewayPacket
  deriving DecidableEq, Repr

/-- `generate_packet`, at node `i` and packet `j` of its round. -/
inductive GenPc
  | check (i : ℕ)
  | make (i j : ℕ)
  | push (i j : ℕ) (pN : Parcel)
  | count (i j : ℕ)

/-- `schedule_packet`, at node `i`. -/
inductive SchedPc
  | pop (i : ℕ)
  | unsched (i : ℕ) (temp : Option Parcel)
  | decGn (i : ℕ) (unschedPktIdx : ℤ) (temp : Parcel)
  | push (i : ℕ) (unschedPktIdx : ℤ) (temp : Parcel)
  | state (i : ℕ) (unschedPktIdx : ℤ)
  | incR (i : ℕ)

/-- `transmit_rf` -/
inductive RfPc
  | testQueue
  | testLength
  | pop
  | push (temp : Parcel)
  | incLength
  | decR

/-- `add_token` -/
inductive TokenPc
  | test
  | add

/-- `tbf_transmit` -/
inductive TbfPc
  | testQueue
  | testToken
  | pop
  | send (temp : Parcel)
  | decToken
  | decLength

/-- The threads, the shared queues and counters, and the histories of generated and sent packets. -/
structure RfSystem where
  gen : GenPc
  sched : SchedPc
  rf : RfPc
  token : TokenPc
  tbf : TbfPc
  nodeQueues : ℕ → List Parcel
  rfQueue : List Parcel
  tbfQueue : List Parcel
  arrSeq : ℕ → ℤ
  unschedSeq : ℕ → ℤ
  pktState : ℕ → ℕ → PktState
  gn : ℕ → ℤ
  r : ℤ
  nToken : ℤ
  tbfQueueLength : ℤ
  serial : ℕ
  generated : List Parcel
  sent : List Parcel

def initialRf : RfSystem where
  gen := .check 0
  sched := .pop 0
  rf := .testQueue
  token := .test
  tbf := .testQueue
  nodeQueues := fun _ => []
  rfQueue := []
  tbfQueue := []
  arrSeq := fun _ => 0
  unschedSeq := fun _ => 0
  pktState := fun _ _ => .unset
  gn := fun _ => 0
  r := 0
  nToken := 0
  tbfQueueLength := 0
  serial := 0
  generated := []
  sent := []

inductive RfAction
  | gen (payload : Payload)
  | sched
  | rf
  | token
  | tbf (sendSucceeds : Bool)

/-- The number of packets that a queue constructed with this limit holds. -/
def capacity (limit : ℤ) : ℕ := (constructQueue limit).limit.toNat

/-- The loop `for (i = 0; i < N_NODE; i++)` inside `for (;;)`. -/
def nextNode (cfg : Config) (i : ℕ) : ℕ := if i + 1 < cfg.nNode then i + 1 else 0

/-- The loop over `n_generated_packets`. -/
def genLoop (cfg : Config) (i j : ℕ) : GenPc :=
  if j < cfg.generatedPackets then .make i j else .check (nextNode cfg i)

def genStep (cfg : Config) (s : RfSystem) (payload : Payload) : Option RfSystem :=
  match s.gen with
  | .check i =>
    if i < cfg.nNode then
      some { s with
        gen :=
          if s.gn i + cfg.generatedPackets < cfg.nodeQueueSize then genLoop cfg i 0
          else .check (nextNode cfg i) }
    else none
  | .make i j =>
    let packet : GatewayPacket :=
      { nodeId := UInt16.ofNat (i + 1), vlcId := 1, payloadLen := UInt16.ofNat payloadSize,
        seqNumber := seqField (s.arrSeq i), data := payload.val }
    some { s with
      gen := .push i j ⟨i, s.serial, packet⟩
      serial := s.serial + 1
      arrSeq := Function.update s.arrSeq i (nextSeq (s.arrSeq i)) }
  | .push i j pN =>
    some { s with
      gen := .count i j
      nodeQueues := Function.update s.nodeQueues i
        (Fifo.push (capacity cfg.nodeQueueSize) (s.nodeQueues i) pN)
      generated := s.generated ++ [pN] }
  | .count i j =>
    some { s with gen := genLoop cfg i (j + 1), gn := Function.update s.gn i (s.gn i + 1) }

def schedStep (cfg : Config) (s : RfSystem) : Option RfSystem :=
  match s.sched with
  | .pop i =>
    if i < cfg.nNode then
      match s.nodeQueues i with
      | [] => some { s with sched := .unsched i none }
      | temp :: q =>
        some { s with sched := .unsched i (some temp), nodeQueues := Function.update s.nodeQueues i q }
    else none
  | .unsched i temp =>
    some { s with
      sched :=
        match temp with
        | none => .pop (nextNode cfg i)
        | some temp => .decGn i (s.unschedSeq i) temp
      unschedSeq := Function.update s.unschedSeq i (nextSeq (s.unschedSeq i)) }
  | .decGn i idx temp =>
    some { s with sched := .push i idx temp, gn := Function.update s.gn i (s.gn i - 1) }
  | .push i idx temp =>
    some { s with
      sched := .state i idx
      rfQueue := Fifo.push (capacity cfg.rfQueueSize) s.rfQueue temp }
  | .state i idx =>
    some { s with
      sched := .incR i
      pktState := Function.update s.pktState i (Function.update (s.pktState i) idx.toNat .rf) }
  | .incR i => some { s with sched := .pop (nextNode cfg i), r := s.r + 1 }

def rfStep (cfg : Config) (s : RfSystem) : Option RfSystem :=
  match s.rf with
  | .testQueue => some { s with rf := if s.rfQueue = [] then .testQueue else .testLength }
  | .testLength => some { s with rf := if s.tbfQueueLength < cfg.limit then .pop else .testQueue }
  | .pop =>
    match s.rfQueue with
    | [] => some { s with rf := .testQueue }
    | temp :: q => some { s with rf := .push temp, rfQueue := q }
  | .push temp =>
    some { s with rf := .incLength, tbfQueue := Fifo.push (capacity cfg.limit) s.tbfQueue temp }
  | .incLength => some { s with rf := .decR, tbfQueueLength := s.tbfQueueLength + 1 }
  | .decR => some { s with rf := .testQueue, r := s.r - 1 }

def tokenStep (cfg : Config) (s : RfSystem) : Option RfSystem :=
  match s.token with
  | .test => some { s with token := if cfg.burst - s.nToken ≥ cfg.tokenRate then .add else .test }
  | .add => some { s with token := .test, nToken := s.nToken + cfg.tokenRate }

def tbfStep (s : RfSystem) (sendSucceeds : Bool) : Option RfSystem :=
  match s.tbf with
  | .testQueue => some { s with tbf := if s.tbfQueue = [] then .testQueue else .testToken }
  | .testToken => some { s with tbf := if s.nToken > 0 then .pop else .testQueue }
  | .pop =>
    match s.tbfQueue with
    | [] => some { s with tbf := .testQueue }
    | temp :: q => some { s with tbf := .send temp, tbfQueue := q }
  | .send temp =>
    -- a failed send goes back to the loop; the packet was popped already
    if sendSucceeds then some { s with tbf := .decToken, sent := s.sent ++ [temp] }
    else some { s with tbf := .testQueue }
  | .decToken => some { s with tbf := .decLength, nToken := s.nToken - 1 }
  | .decLength => some { s with tbf := .testQueue, tbfQueueLength := s.tbfQueueLength - 1 }

def rfPathStep (cfg : Config) (s : RfSystem) : RfAction → Option RfSystem
  | .gen payload => genStep cfg s payload
  | .sched => schedStep cfg s
  | .rf => rfStep cfg s
  | .token => tokenStep cfg s
  | .tbf sendSucceeds => tbfStep s sendSucceeds

/-! ## What each thread leaves alone -/

section
variable {cfg : Config} {s t : RfSystem}

theorem genStep_frame {payload : Payload} (h : genStep cfg s payload = some t) :
    ∃ gen nodeQueues arrSeq gn serial generated,
      t = { s with gen, nodeQueues, arrSeq, gn, serial, generated } := by
  unfold genStep at h
  split at h
  case h_1 =>
    split at h
    · exact ⟨_, _, _, _, _, _, (Option.some.inj h).symm⟩
    · cases h
  all_goals exact ⟨_, _, _, _, _, _, (Option.some.inj h).symm⟩

theorem schedStep_frame (h : schedStep cfg s = some t) :
    ∃ sched nodeQueues rfQueue unschedSeq pktState gn r,
      t = { s with sched, nodeQueues, rfQueue, unschedSeq, pktState, gn, r } := by
  unfold schedStep at h
  split at h
  case h_1 =>
    split at h
    · split at h <;> exact ⟨_, _, _, _, _, _, _, (Option.some.inj h).symm⟩
    · cases h
  all_goals exact ⟨_, _, _, _, _, _, _, (Option.some.inj h).symm⟩

theorem rfStep_frame (h : rfStep cfg s = some t) :
    ∃ rf rfQueue tbfQueue r tbfQueueLength, t = { s with rf, rfQueue, tbfQueue, r, tbfQueueLength } := by
  unfold rfStep at h
  split at h
  case h_3 => split at h <;> exact ⟨_, _, _, _, _, (Option.some.inj h).symm⟩
  all_goals exact ⟨_, _, _, _, _, (Option.some.inj h).symm⟩

theorem tokenStep_frame (h : tokenStep cfg s = some t) :
    ∃ token nToken, t = { s with token := token, nToken := nToken } := by
  unfold tokenStep at h
  split at h <;> exact ⟨_, _, (Option.some.inj h).symm⟩

theorem tbfStep_frame {sendSucceeds : Bool} (h : tbfStep s sendSucceeds = some t) :
    ∃ tbf tbfQueue nToken tbfQueueLength sent,
      t = { s with tbf, tbfQueue, nToken, tbfQueueLength, sent } := by
  unfold tbfStep at h
  split at h
  case h_3 => split at h <;> exact ⟨_, _, _, _, _, (Option.some.inj h).symm⟩
  case h_4 => split at h <;> exact ⟨_, _, _, _, _, (Option.some.inj h).symm⟩
  all_goals exact ⟨_, _, _, _, _, (Option.some.inj h).symm⟩

end

/-! ## Where packets are -/

/-- What the dispatcher holds between its pop and its push. -/
def SchedPc.held : SchedPc → List Parcel
  | .unsched _ (some temp) => [temp]
  | .decGn _ _ temp => [temp]
  | .push _ _ temp => [temp]
  | _ => []

/-- What `transmit_rf` holds between its pop and its push. -/
def RfPc.held : RfPc → List Parcel
  | .push temp => [temp]
  | _ => []

/-- What `tbf_transmit` holds between its pop and its send. -/
def TbfPc.held : TbfPc → List Parcel
  | .send temp => [temp]
  | _ => []

/-- The packets behind the node queues, the oldest first. -/
def RfSystem.pipeline (s : RfSystem) : List Parcel :=
  s.sent ++ s.tbf.held ++ s.tbfQueue ++ s.rf.held ++ s.rfQueue ++ s.sched.held

/-- Every generated packet is in exactly one place, and a node's packets are sent in order. -/
structure Conserved (s : RfSystem) : Prop where
  once : ∀ p, s.pipeline.count p + (s.nodeQueues p.node).count p = if p ∈ s.generated then 1 else 0
  ownQueue : ∀ i, ∀ p ∈ s.nodeQueues i, p.node = i
  ordered : ∀ i, (s.sent.filter fun p => p.node = i).Sublist (s.generated.filter fun p => p.node = i)

end CiotVlc.Gateway
