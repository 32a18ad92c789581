import CiotVlc.Links.Acknowledgements

/-! # Delivery in order over RF

The dispatcher in its shipped RF mode, queues that have room, and a link that delivers what was sent in order: the
node gets the packets in the order in which they were made, with their payloads, and its window has no gap.
-/
namespace CiotVlc.Links
open Foundations.Bytes Foundations.Checked Foundations.Runs Foundations.LinkedQueue Foundations.SlidingWindow
open Foundations.SwapRemove
open CiotVlc.Gateway
open CiotVlc.Node (NodePacket NodeStatus processAll initializeNodeStatus seqNumbers windowWidth)
set_option autoImplicit false

/-! ## The pipeline of the gateway -/

/-- The packets made, from the first one sent to the last one that waits; none has gone out over VLC. -/
structure Piped (s : GatewaySystem) : Prop where
  pipeline : s.scheduled = s.rfSent ++ s.tbfQueue ++ s.path.rfQueue
  serials : (s.scheduled ++ s.path.nodeQueues 0).map Parcel.serial = List.range s.path.serial
  gn : s.path.gn 0 = (s.path.nodeQueues 0).length
  unacked : s.path.unacked = []
  vlcQueue : s.path.vlcQueue = []
  released : s.path.released = []
  tbfRoom : (s.tbfQueue.length : ℤ) ≤ s.tbfQueueLength

theorem piped_initial : Piped initialGateway := ⟨rfl, rfl, rfl, rfl, rfl, rfl, le_rfl⟩

section
variable {cfg : Config} {s t : GatewaySystem}

/-- The part of the pipeline in front of the dispatcher. -/
structure Waiting (scheduled : List Parcel) (s : VlcPath) : Prop where
  serials : (scheduled ++ s.nodeQueues 0).map Parcel.serial = List.range s.serial
  gn : s.gn 0 = (s.nodeQueues 0).length

theorem Waiting.generateOne {scheduled : List Parcel} {s : VlcPath} (h : Waiting scheduled s)
    (hroom : s.gn 0 < cfg.nodeQueueSize) (payload : Payload) :
    Waiting scheduled (s.generateOne cfg 0 payload) ∧ (s.generateOne cfg 0 payload).gn 0 = s.gn 0 + 1 := by
  have hlt : (s.nodeQueues 0).length < capacity cfg.nodeQueueSize := by
    apply lt_capacity
    rw [← h.gn]
    exact hroom
  refine ⟨⟨?_, ?_⟩, by simp only [VlcPath.generateOne, Function.update_self]⟩
  · simp only [VlcPath.generateOne, Function.update_self, Fifo.push_of_lt _ hlt]
    rw [← List.append_assoc, List.map_append, h.serials, List.range_succ]
    rfl
  · simp only [VlcPath.generateOne, Function.update_self, Fifo.push_of_lt _ hlt]
    rw [h.gn, List.length_append, List.length_singleton]
    push_cast
    rfl

theorem Waiting.generateMany {scheduled : List Parcel} {s : VlcPath} (h : Waiting scheduled s) (payloads : List Payload)
    (hroom : s.gn 0 + payloads.length ≤ cfg.nodeQueueSize) :
    Waiting scheduled (payloads.foldl (VlcPath.generateOne cfg 0) s) := by
  induction payloads generalizing s with
  | nil => exact h
  | cons payload payloads ih =>
    rw [List.length_cons] at hroom
    push_cast at hroom
    obtain ⟨hnext, hgn⟩ := @Waiting.generateOne cfg _ _ h (by omega) payload
    exact ih hnext (by rw [hgn]; omega)

theorem Waiting.generatePacket {scheduled : List Parcel} {s : VlcPath} (h : Waiting scheduled s)
    (payloads : ℕ → Payload) : Waiting scheduled (s.generatePacket cfg 0 payloads) := by
  unfold VlcPath.generatePacket
  split
  · exact h.generateMany _ (by rw [List.length_map, List.length_range]; omega)
  · exact h

theorem Piped.scheduleRf (hone : cfg.nNode = 1) (h : Piped s) {i : Fin cfg.nNode}
    (hgood : KeepsAll cfg s (.scheduleRf i)) (hstep : gatewayStep cfg s (.scheduleRf i) = some t) : Piped t := by
  have hi : (i : ℕ) = 0 := by omega
  cases hstep
  rcases hq : s.path.nodeQueues i with _ | ⟨temp, q⟩
  · simp only [VlcPath.scheduleRf_nil hq, List.take_nil, List.append_nil]
    exact ⟨h.pipeline, h.serials, h.gn, h.unacked, h.vlcQueue, h.released, h.tbfRoom⟩
  · have hroom := hgood (by rw [hq]; exact List.cons_ne_nil _ _)
    rw [hi] at hq
    rw [VlcPath.scheduleRf, hi]
    simp only [hq, Fifo.push_of_lt temp hroom, List.take_one, List.head?_cons, Option.toList_some]
    refine ⟨?_, ?_, ?_, h.unacked, h.vlcQueue, h.released, h.tbfRoom⟩
    · rw [h.pipeline]
      simp only [List.append_assoc]
    · have hserials := h.serials
      rw [hq] at hserials
      simp only [Function.update_self]
      rw [List.append_assoc]
      exact hserials
    · have hgn := h.gn
      rw [hq, List.length_cons] at hgn
      push_cast at hgn
      simp only [Function.update_self]
      omega

theorem Piped.transmitRf (h : Piped s) : Piped (s.transmitRf cfg) := by
  unfold GatewaySystem.transmitRf
  split
  case h_1 => exact h
  case h_2 temp q hq =>
    split
    case isFalse => exact h
    case isTrue hlt =>
      have hroom := lt_capacity (h.tbfRoom.trans_lt hlt)
      simp only [Fifo.push_of_lt temp hroom]
      refine ⟨?_, h.serials, h.gn, h.unacked, h.vlcQueue, h.released, ?_⟩
      · rw [h.pipeline, hq]
        simp only [List.append_assoc, List.singleton_append]
      · have := h.tbfRoom
        rw [List.length_append, List.length_singleton]
        push_cast
        omega

theorem Piped.tbfTransmit (h : Piped s) {sendSucceeds : Bool} (hgood : KeepsAll cfg s (.tbfTransmit sendSucceeds)) :
    Piped (s.tbfTransmit sendSucceeds) := by
  unfold GatewaySystem.tbfTransmit
  split
  case h_1 => exact h
  case h_2 temp q hq =>
    split
    case isFalse => exact h
    case isTrue htoken =>
      rw [if_pos (hgood (by rw [hq]; exact List.cons_ne_nil _ _) htoken)]
      refine ⟨?_, h.serials, h.gn, h.unacked, h.vlcQueue, h.released, ?_⟩
      · rw [h.pipeline, hq]
        simp only [List.append_assoc, List.cons_append, List.nil_append]
      · have hroom := h.tbfRoom
        rw [hq, List.length_cons] at hroom
        push_cast at hroom
        simp only
        omega

/-- The steps of the shipped mode keep the order. -/
theorem Piped.step (hone : cfg.nNode = 1) {a : ThreadAction cfg} (h : Piped s) (hgood : KeepsAll cfg s a)
    (hmode : ∀ i tx now, a ≠ .scheduleVlc i tx now) (hstep : gatewayStep cfg s a = some t) : Piped t := by
  cases a with
  | generate i payloads =>
    cases hstep
    have hi : (i : ℕ) = 0 := by omega
    have hwaiting := @Waiting.generatePacket cfg _ _ ⟨h.serials, h.gn⟩ payloads
    obtain ⟨_, _, _, _, hpath⟩ := @VlcPath.generatePacket_frame cfg s.path 0 payloads
    rw [hi]
    refine ⟨?_, hwaiting.serials, hwaiting.gn, ?_, ?_, ?_, h.tbfRoom⟩
    · rw [hpath]
      exact h.pipeline
    · rw [hpath]
      exact h.unacked
    · rw [hpath]
      exact h.vlcQueue
    · rw [hpath]
      exact h.released
  | scheduleRf i => exact h.scheduleRf hone hgood hstep
  | scheduleVlc i tx now => exact absurd rfl (hmode i tx now)
  | transmitVlc =>
    cases hstep
    rw [VlcPath.transmitVlc]
    simp only [h.vlcQueue]
    exact ⟨h.pipeline, h.serials, h.gn, h.unacked, h.vlcQueue, h.released, h.tbfRoom⟩
  | report buf =>
    rw [gatewayStep] at hstep
    split at hstep
    case h_2 => cases hstep
    case h_1 path hpath =>
      cases hstep
      rcases receiveReport_cases hpath with rfl | ⟨_, _, _, -, -, rfl⟩
      · exact h
      · exact ⟨h.pipeline, h.serials, h.gn, h.unacked, h.vlcQueue, h.released, h.tbfRoom⟩
  | check now =>
    rcases check_cases (toOption_eq_some.mp hstep) with ⟨_, _, rfl⟩ | ⟨path, -, hpath, rfl⟩
    · exact ⟨h.pipeline, h.serials, h.gn, h.unacked, h.vlcQueue, h.released, h.tbfRoom⟩
    · rcases checkPacket_cases hpath with ⟨-, rfl⟩ | ⟨entry, -, hfind, -⟩
      · exact ⟨h.pipeline, h.serials, h.gn, h.unacked, h.vlcQueue, h.released, h.tbfRoom⟩
      · -- the table is empty
        rw [h.unacked] at hfind
        cases hfind
  | transmitRf =>
    cases hstep
    exact h.transmitRf
  | addToken =>
    cases hstep
    unfold GatewaySystem.addToken
    split
    · exact ⟨h.pipeline, h.serials, h.gn, h.unacked, h.vlcQueue, h.released, h.tbfRoom⟩
    · exact h
  | tbfTransmit sendSucceeds =>
    cases hstep
    exact h.tbfTransmit hgood

end

/-! ## The link and the node -/

/-- The steps of the shipped mode over a link that delivers in order: every packet finds room in its queue, every RF
send succeeds, the dispatcher chooses RF, and the next frame heard is the next one sent. -/
def OverRf (cfg : Config) (s : AckLoop) : LoopAction cfg → Prop
  | .thread a => KeepsAll cfg s.gateway a ∧ ∀ i tx now, a ≠ .scheduleVlc i tx now
  | .hearRf k => k = s.rfHeard
  | _ => True

/-- The packets that the node has heard, in the order in which they were sent. -/
structure HeardInOrder (s : AckLoop) : Prop where
  air : s.rfAir = s.gateway.rfSent.map fun p => rfFrame p.packet
  vlcAir : s.vlcAir = []
  heard_le : s.rfHeard ≤ s.gateway.rfSent.length
  heard : s.gateway.path.serial < Gateway.maxSeqNumber → s.processed ++ s.node.processQueue =
    (s.gateway.rfSent.take s.rfHeard).map fun p => asNodePacket p.packet 0

structure InOrderInv (cfg : Config) (s : AckLoop) : Prop where
  sound : LoopInv cfg s
  piped : Piped s.gateway
  order : HeardInOrder s

theorem inOrderInv_initial (cfg : Config) (buf buff : Buffer) : InOrderInv cfg (initialLoop buf buff) :=
  ⟨loopInv_initial cfg buf buff, piped_initial, rfl, rfl, le_rfl, fun _ => rfl⟩

section
variable {cfg : Config} {s t : AckLoop} {g : GatewaySystem}

/-- A step of the gateway that sends nothing. -/
theorem HeardInOrder.gateway (h : HeardInOrder s) (hsent : g.rfSent = s.gateway.rfSent)
    (hserial : s.gateway.path.serial ≤ g.path.serial) : HeardInOrder { s with gateway := g } := by
  refine ⟨?_, h.vlcAir, ?_, ?_⟩
  · rw [hsent]
    exact h.air
  · rw [hsent]
    exact h.heard_le
  · intro hfew
    rw [hsent]
    exact h.heard (hserial.trans_lt hfew)

theorem gatewayStep_rfSent {a : ThreadAction cfg} {g g' : GatewaySystem} (hint : a ≠ .tbfTransmit true)
    (hstep : gatewayStep cfg g a = some g') : g'.rfSent = g.rfSent := by
  cases a with
  | generate i payloads =>
    cases hstep
    rfl
  | scheduleRf i =>
    cases hstep
    rfl
  | scheduleVlc i tx now =>
    cases hstep
    rfl
  | transmitVlc =>
    cases hstep
    rfl
  | report buf =>
    rw [gatewayStep] at hstep
    split at hstep
    · cases hstep
      rfl
    · cases hstep
  | check now =>
    rcases check_cases (toOption_eq_some.mp hstep) with ⟨_, _, rfl⟩ | ⟨path, -, -, rfl⟩
    · rfl
    · rfl
  | transmitRf =>
    cases hstep
    unfold GatewaySystem.transmitRf
    split
    · rfl
    · split <;> rfl
  | addToken =>
    cases hstep
    unfold GatewaySystem.addToken
    split <;> rfl
  | tbfTransmit sendSucceeds =>
    cases sendSucceeds with
    | true => exact absurd rfl hint
    | false =>
      cases hstep
      unfold GatewaySystem.tbfTransmit
      split
      · rfl
      · split <;> rfl

/-- No more packets are heard than were made. -/
theorem InOrderInv.heard_lt (h : InOrderInv cfg s) : s.gateway.rfSent.length ≤ s.gateway.path.serial := by
  have hserials := congrArg List.length h.piped.serials
  have hpipeline := congrArg List.length h.piped.pipeline
  simp only [List.length_map, List.length_append, List.length_range] at hserials hpipeline
  omega

theorem InOrderInv.sendRf (h : InOrderInv cfg s) {memory : Payload}
    (hstep : loopStep cfg s (.sendRf memory) = some t) : Piped t.gateway ∧ HeardInOrder t := by
  rw [loopStep] at hstep
  split at hstep
  case isFalse =>
    cases hstep
    exact ⟨h.piped, h.order⟩
  case isTrue htoken =>
    obtain ⟨g, hg, hstep⟩ := Option.bind_eq_some_iff.mp hstep
    obtain ⟨sent, hsent, hstep⟩ := Option.bind_eq_some_iff.mp hstep
    cases hstep
    cases hg
    refine ⟨@Piped.tbfTransmit cfg _ h.piped _ (fun _ _ => rfl), ?_⟩
    rcases hq : s.gateway.tbfQueue with _ | ⟨temp, q⟩
    · have hnil : sent = [] := by
        rw [hq] at hsent
        cases hsent
        rfl
      rw [hnil, GatewaySystem.tbfTransmit, hq, List.append_nil]
      exact h.order
    · have hnum := h.sound.numbered.taken temp (by rw [mem_taken, hq]; simp)
      -- no payload has been freed
      have hcontent : rfContent s.gateway.path.released memory temp = temp.packet := by
        rw [h.piped.released]
        exact if_neg List.not_mem_nil
      have hsend : [temp].mapM (fun temp =>
          transmitPacketRf gatewayMac (rfContent s.gateway.path.released memory temp)) =
          .ok [rfFrame temp.packet] := by
        rw [List.mapM_cons, hcontent, transmitPacketRf_eq hnum.fits]
        rfl
      rw [hq, List.take_one, List.head?_cons, Option.toList_some, hsend] at hsent
      cases hsent
      simp only [GatewaySystem.tbfTransmit, hq, if_pos htoken, if_true]
      have hle := h.order.heard_le
      refine ⟨?_, h.order.vlcAir, ?_, ?_⟩
      · rw [h.order.air, List.map_append]
        rfl
      · rw [List.length_append]
        exact Nat.le_add_right_of_le hle
      · intro hfew
        rw [List.take_append_of_le_length hle]
        exact h.order.heard hfew

theorem InOrderInv.hearRf (h : InOrderInv cfg s) (hstep : loopStep cfg s (.hearRf s.rfHeard) = some t) :
    HeardInOrder t := by
  obtain ⟨frame, hframe, hstep⟩ := Option.bind_eq_some_iff.mp hstep
  obtain ⟨node, hnode, hstep⟩ := Option.bind_eq_some_iff.mp hstep
  cases hstep
  rw [h.order.air, List.getElem?_map] at hframe
  obtain ⟨p, hp, rfl⟩ := Option.map_eq_some_iff.mp hframe
  obtain ⟨hlt, hget⟩ := List.getElem?_eq_some_iff.mp hp
  have hnum := h.sound.numbered.taken p (by rw [mem_taken]; have := List.mem_of_getElem? hp; tauto)
  obtain ⟨buf, hrecv⟩ := nodeStep_receiveRf s.node hnum.fits
  cases (toOption_eq_some.mp hnode).symm.trans hrecv
  refine ⟨h.order.air, h.order.vlcAir, hlt, ?_⟩
  intro hfew
  have hfew : s.gateway.path.serial < Gateway.maxSeqNumber := hfew
  have hheard := h.order.heard hfew
  -- the process queue holds more packets than there are sequence numbers
  have hroom : s.node.processQueue.length < Node.maxProcessQueue := by
    have hlen := congrArg List.length hheard
    have hmade := h.heard_lt
    have hmax : Gateway.maxSeqNumber = 500000 := rfl
    have hqueue : Node.maxProcessQueue = 1000000 := rfl
    simp only [List.length_append, List.length_map, List.length_take] at hlen
    omega
  simp only [Fifo.push_of_lt _ hroom]
  rw [← List.append_assoc, hheard, List.take_add_one, hp, List.map_append]
  rfl

theorem HeardInOrder.processData (h : HeardInOrder s) (hstep : loopStep cfg s .processData = some t) :
    HeardInOrder t ∧ t.gateway = s.gateway := by
  obtain ⟨node, hnode, hstep⟩ := Option.bind_eq_some_iff.mp hstep
  cases hstep
  refine ⟨⟨h.air, h.vlcAir, h.heard_le, ?_⟩, rfl⟩
  intro hfew
  rw [← h.heard hfew]
  have hnode := toOption_eq_some.mp hnode
  rw [nodeStep] at hnode
  split at hnode
  case h_1 hq =>
    cases hnode
    simp only [hq, List.take_nil, List.append_nil]
  case h_2 temp q hq =>
    obtain ⟨status, -, hnode⟩ := bind_eq_ok.mp hnode
    cases hnode
    simp only [hq, List.take_one, List.head?_cons, Option.toList_some, List.append_assoc, List.singleton_append]

theorem InOrderInv.step (hone : cfg.nNode = 1) {a : LoopAction cfg} (h : InOrderInv cfg s) (hgood : OverRf cfg s a)
    (hstep : loopStep cfg s a = some t) : InOrderInv cfg t := by
  have hsound := h.sound.step hone hstep
  cases a with
  | thread a =>
    rw [loopStep] at hstep
    split at hstep
    case isFalse => cases hstep
    case isTrue hint =>
      obtain ⟨g, hg, hstep⟩ := Option.bind_eq_some_iff.mp hstep
      cases hstep
      have hreport : ∀ buf, a ≠ .report buf := by
        rintro buf rfl
        cases hint
      have hsend : a ≠ .tbfTransmit true := by
        rintro rfl
        cases hint
      obtain ⟨-, -, -, hserial⟩ := gatewayStep_keeps hone h.sound.numbered hreport hg
      exact ⟨hsound, h.piped.step hone hgood.1 hgood.2 hg, h.order.gateway (gatewayStep_rfSent hsend hg) hserial⟩
  | sendVlc =>
    rw [loopStep] at hstep
    obtain ⟨g, hg, hstep⟩ := Option.bind_eq_some_iff.mp hstep
    obtain ⟨sent, hsent, hstep⟩ := Option.bind_eq_some_iff.mp hstep
    cases hstep
    rw [h.piped.vlcQueue] at hsent
    cases hsent
    have hreport : ∀ buf, (.transmitVlc : ThreadAction cfg) ≠ .report buf := by
      rintro buf h
      cases h
    obtain ⟨-, -, -, hserial⟩ := gatewayStep_keeps hone h.sound.numbered hreport hg
    have horder := h.order.gateway (gatewayStep_rfSent (a := .transmitVlc) (by rintro h; cases h) hg) hserial
    have hpiped := h.piped.step (a := .transmitVlc) hone trivial (by rintro i tx now h; cases h) hg
    refine ⟨hsound, hpiped, horder.air, ?_, horder.heard_le, horder.heard⟩
    rw [h.order.vlcAir]
    rfl
  | sendRf memory =>
    obtain ⟨hpiped, horder⟩ := h.sendRf hstep
    exact ⟨hsound, hpiped, horder⟩
  | hearReport frame rest =>
    rw [loopStep] at hstep
    split at hstep
    case isFalse => cases hstep
    case isTrue =>
      obtain ⟨g, hg, hstep⟩ := Option.bind_eq_some_iff.mp hstep
      cases hstep
      have hpiped := h.piped.step (a := .report _) hone trivial (by rintro i tx now h; cases h) hg
      refine ⟨hsound, hpiped, h.order.gateway (gatewayStep_rfSent (a := .report _) (by rintro h; cases h) hg) ?_⟩
      rw [gatewayStep] at hg
      split at hg
      case h_2 => cases hg
      case h_1 path hpath =>
        cases hg
        rcases receiveReport_cases hpath with rfl | ⟨_, _, _, -, -, rfl⟩
        · exact le_rfl
        · exact le_rfl
  | hearVlc packet wrong =>
    rw [loopStep, if_neg] at hstep
    · cases hstep
    · rw [h.order.vlcAir]
      exact fun hair => List.not_mem_nil hair.1
  | hearRf k =>
    have hk : k = s.rfHeard := hgood
    subst hk
    have horder := h.hearRf hstep
    obtain ⟨frame, -, hstep⟩ := Option.bind_eq_some_iff.mp hstep
    obtain ⟨node, -, hstep⟩ := Option.bind_eq_some_iff.mp hstep
    cases hstep
    exact ⟨hsound, h.piped, horder⟩
  | processData =>
    obtain ⟨horder, hgateway⟩ := h.order.processData hstep
    exact ⟨hsound, by rw [hgateway]; exact h.piped, horder⟩
  | sendReport in255Range =>
    obtain ⟨frame, -, hstep⟩ := Option.bind_eq_some_iff.mp hstep
    cases hstep
    exact ⟨hsound, h.piped, h.order.air, h.order.vlcAir, h.order.heard_le, h.order.heard⟩

end

/-! ## What the node has -/

/-- The node has processed the first packets made, as they were made, and its window starts right behind them. -/
structure DeliveredInOrder (s : AckLoop) : Prop where
  packets : ∃ made : List Parcel, made <+: s.gateway.scheduled ∧ made.map Parcel.serial = List.range s.processed.length ∧
    s.processed = made.map fun p => asNodePacket p.packet 0
  rcvSeq : s.node.status.rcvSeq = s.processed.length
  lastRcvSeq : s.node.status.lastRcvSeq = (s.processed.length - 1 : ℕ)
  rcvState : ∀ n < Node.maxSeqNumber, s.node.status.rcvState n = 1 ↔ n < s.processed.length

/-- **RF delivers in order.** With the dispatcher in its shipped mode, room in the queues, RF sends that succeed, and a
link that delivers in order, the node gets the packets in the order in which they were made, with their payloads,
and its window has no gap, until the sequence numbers run out. -/
theorem rf_delivers_in_order (cfg : Config) (hone : cfg.nNode = 1) (buf buff : Buffer) (as : List (LoopAction cfg))
    (t : AckLoop) (hrun : Run (loopStep cfg) (initialLoop buf buff) as t)
    (hgood : EveryStep (loopStep cfg) (initialLoop buf buff) as (OverRf cfg))
    (hfew : t.gateway.path.serial < Gateway.maxSeqNumber) : DeliveredInOrder t := by
  have h : InOrderInv cfg t := hrun.invariant_of_everyStep (inOrderInv_initial cfg buf buff)
    (fun _ _ _ h hstep => h.step hone hstep) hgood
  have hheard := h.order.heard hfew
  have hprefix : t.processed <+: (t.gateway.rfSent.take t.rfHeard).map fun p => asNodePacket p.packet 0 :=
    ⟨t.node.processQueue, hheard⟩
  obtain ⟨made, hmade, hprocessed⟩ : ∃ made, made <+: t.gateway.rfSent ∧
      t.processed = made.map fun p => asNodePacket p.packet 0 := by
    refine ⟨(t.gateway.rfSent.take t.rfHeard).take t.processed.length, ?_, ?_⟩
    · exact (List.take_prefix _ _).trans (List.take_prefix _ _)
    · rw [List.map_take]
      exact List.prefix_iff_eq_take.mp hprefix
  have hscheduled : made <+: t.gateway.scheduled := by
    rw [h.piped.pipeline, List.append_assoc]
    exact hmade.trans (List.prefix_append _ _)
  have hlen : made.length = t.processed.length := by rw [hprocessed, List.length_map]
  have hserials : made.map Parcel.serial = List.range t.processed.length := by
    have hall : made.map Parcel.serial <+: List.range t.gateway.path.serial := by
      rw [← h.piped.serials, List.map_append]
      exact (hscheduled.map _).trans (List.prefix_append _ _)
    have htake := List.prefix_iff_eq_take.mp hall
    rw [htake, List.take_range, List.length_map, hlen]
    congr 1
    have hle := hall.length_le
    rw [List.length_map, List.length_range, hlen] at hle
    exact min_eq_left hle
  -- the numbers are the serial numbers
  have hnumbers : seqNumbers t.processed = List.range t.processed.length := by
    rw [← hserials, hprocessed, seqNumbers, List.map_map]
    apply List.map_congr_left
    intro p hp
    have hnum := h.sound.numbered.taken p (by rw [mem_taken]; have := hscheduled.subset hp; tauto)
    have hlt := hnum.serial_lt
    change p.packet.seqNumber.toNat = p.serial
    rw [hnum.seqNumber]
    exact Nat.mod_eq_of_lt (by omega)
  obtain ⟨status, hrun', hsize, ht⟩ := Node.processAll_tracks (by decide) (show 1 < Node.maxSeqNumber by decide)
    t.processed (h.sound.processed_lt hfew)
  cases h.sound.status.symm.trans hrun'
  rw [hnumbers, acceptAll_range (show 0 < windowWidth by decide)] at ht
  refine ⟨⟨made, hscheduled, hserials, hprocessed⟩, ht.rcvSeq, ht.lastRcvSeq, ?_⟩
  intro n hn
  rw [ht.rcvState n (by rw [hsize]; exact hn), Finset.mem_range]

/-- One packet through both queues, and over RF. -/
def onceOverRf : List (LoopAction shipped) :=
  [.thread (.generate ⟨0, Nat.one_pos⟩ fun _ => zeroPayload),
    .thread (.scheduleRf ⟨0, Nat.one_pos⟩), .thread .transmitRf, .thread .addToken,
    .sendRf zeroPayload, .hearRf 0]

theorem onceOverRf_good :
    EveryStep (loopStep shipped) (initialLoop zeroBuffer zeroBuffer) onceOverRf (OverRf shipped) := by
  refine (everyStep_cons rfl).mpr ⟨⟨trivial, nofun⟩, ?_⟩
  refine (everyStep_cons rfl).mpr ⟨⟨fun _ => by decide, nofun⟩, ?_⟩
  refine (everyStep_cons rfl).mpr ⟨⟨trivial, nofun⟩, ?_⟩
  refine (everyStep_cons rfl).mpr ⟨⟨trivial, nofun⟩, ?_⟩
  refine (everyStep_cons rfl).mpr ⟨trivial, ?_⟩
  exact (everyStep_snoc Run.refl).mpr ⟨everyStep_nil _ _ _, rfl⟩

/-- The node takes the packet. -/
theorem rf_delivers_in_order_one_packet :
    ∃ as t, Run (loopStep shipped) (initialLoop zeroBuffer zeroBuffer) as t ∧ t.processed.length = 1 ∧
      DeliveredInOrder t := by
  obtain ⟨s, hs⟩ := Option.isSome_iff_exists.mp
    (show (exec (loopStep shipped) (initialLoop zeroBuffer zeroBuffer) onceOverRf).isSome = true by decide +kernel)
  have hrun := run_of_exec hs
  have hinv : InOrderInv shipped s := hrun.invariant_of_everyStep (inOrderInv_initial shipped _ _)
    (fun _ _ _ h hstep => h.step rfl hstep) onceOverRf_good
  have hmade : (exec (loopStep shipped) (initialLoop zeroBuffer zeroBuffer) onceOverRf).map (fun s =>
      (s.node.processQueue.map NodePacket.seqNumber, s.processed, s.gateway.path.serial)) = some ([0], [], 1) := by
    decide +kernel
  rw [hs, Option.map_some, Option.some.injEq, Prod.mk.injEq, Prod.mk.injEq] at hmade
  obtain ⟨hqueue, hprocessed, hserial⟩ := hmade
  obtain ⟨q, hq, hnum⟩ := List.map_eq_singleton_iff.mp hqueue
  have hstatus : s.node.status = initializeNodeStatus Node.maxSeqNumber := by
    have hstart := hinv.sound.status
    rw [hprocessed] at hstart
    exact (Except.ok.inj hstart).symm
  obtain ⟨t, ht, htprocessed, hgateway⟩ : ∃ t, loopStep shipped s .processData = some t ∧
      t.processed = s.processed ++ [q] ∧ t.gateway = s.gateway := by
    simp only [loopStep, nodeStep, hq, hstatus, processData_first hnum, ok_bind]
    exact ⟨_, rfl, rfl, rfl⟩
  have hend := hrun.snoc ht
  refine ⟨_, t, hend, by rw [htprocessed, hprocessed]; rfl,
    rf_delivers_in_order shipped rfl _ _ _ t hend ((everyStep_snoc hrun).mpr ⟨onceOverRf_good, trivial⟩) ?_⟩
  rw [hgateway, hserial]
  decide

end CiotVlc.Links
