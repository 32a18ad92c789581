import CiotVlc.Gateway.DispatchIndex
import CiotVlc.Gateway.KeptPackets
import CiotVlc.Links.SameContent

/-! # The numbers of the packets in the gateway

With one node, the packets are numbered in the order in which they are made: wherever a packet is, its sequence
number is its serial number modulo `MAX_SEQ_NUMBER`. It keeps its node, its length and a payload of this length.
-/
namespace CiotVlc.Gateway
open Foundations.Bytes Foundations.Runs Foundations.Checked Foundations.LinkedQueue Foundations.SwapRemove
open CiotVlc.Links (PayloadFits)
set_option autoImplicit false

/-- A packet for the only node, made as number `p.serial`, one of the first `made`. -/
structure Numbered (made : ℕ) (p : Parcel) : Prop where
  serial_lt : p.serial < made
  seqNumber : p.packet.seqNumber.toNat = p.serial % maxSeqNumber
  nodeId : p.packet.nodeId = 1
  payloadLen : p.packet.payloadLen.toNat = payloadSize
  payload : p.packet.data.length = payloadSize

theorem Numbered.fits {made : ℕ} {p : Parcel} (h : Numbered made p) : PayloadFits p.packet where
  length := h.payload.trans h.payloadLen.symm
  fits := by
    rw [h.payloadLen]
    decide

theorem Numbered.mono {made made' : ℕ} {p : Parcel} (h : Numbered made p) (hle : made ≤ made') : Numbered made' p :=
  ⟨h.serial_lt.trans_le hle, h.seqNumber, h.nodeId, h.payloadLen, h.payload⟩

theorem Numbered.toTx {cfg : Config} {made : ℕ} {p : Parcel} (h : Numbered made p) (tx : Fin cfg.nVlc) :
    Numbered made (p.toTx tx) :=
  ⟨h.serial_lt, h.seqNumber, h.nodeId, h.payloadLen, h.payload⟩

/-! ## Every place -/

/-- The packets of all places but the node queues. -/
def GatewaySystem.taken (s : GatewaySystem) : List Parcel :=
  s.path.vlcQueue ++ s.path.unacked ++ s.path.rfQueue ++ s.tbfQueue ++ s.scheduled ++ s.vlcSent ++ s.rfSent

/-- Every packet is numbered, and the next one gets the next number. -/
structure AllNumbered (s : GatewaySystem) : Prop where
  waiting : ∀ i, ∀ p ∈ s.path.nodeQueues i, Numbered s.path.serial p
  taken : ∀ p ∈ s.taken, Numbered s.path.serial p
  next : s.path.arrSeq 0 = (s.path.serial % maxSeqNumber : ℕ)

theorem allNumbered_initial : AllNumbered initialGateway where
  waiting := fun _ _ hp => absurd hp List.not_mem_nil
  taken := fun _ hp => absurd hp List.not_mem_nil
  next := rfl

section
variable {cfg : Config} {s t : GatewaySystem}

/-! ## Making packets -/

/-- What a round of `generate_packet` for node 0 keeps of the path it started from. -/
structure Makes (s t : VlcPath) : Prop where
  serial_le : s.serial ≤ t.serial
  waiting : ∀ i, ∀ p ∈ t.nodeQueues i, p ∈ s.nodeQueues i ∨ Numbered t.serial p
  next : t.arrSeq 0 = (t.serial % maxSeqNumber : ℕ)

theorem Makes.generateOne {s t : VlcPath} (h : Makes s t) (payload : Payload) :
    Makes s (t.generateOne cfg 0 payload) := by
  refine ⟨Nat.le_succ_of_le h.serial_le, ?_, ?_⟩
  · intro i p hp
    have hold : p ∈ t.nodeQueues i → p ∈ s.nodeQueues i ∨ Numbered (t.serial + 1) p :=
      fun hin => (h.waiting i p hin).imp_right fun hnum => hnum.mono (Nat.le_succ _)
    simp only [VlcPath.generateOne, Function.update_apply] at hp
    split at hp
    · next hi =>
      subst hi
      rcases Fifo.mem_of_mem_push hp with hp | rfl
      · exact hold hp
      · refine Or.inr ⟨Nat.lt_succ_self _, ?_, rfl, rfl, payload.property⟩
        rw [h.next]
        exact toNat_seqNumber _
    · exact hold hp
  · simp only [VlcPath.generateOne, Function.update_self]
    rw [h.next, nextSeq_natCast]

theorem makes_generatePacket {s : VlcPath} (hnext : s.arrSeq 0 = (s.serial % maxSeqNumber : ℕ))
    (payloads : ℕ → Payload) : Makes s (s.generatePacket cfg 0 payloads) := by
  have h0 : Makes s s := ⟨le_rfl, fun _ _ hp => Or.inl hp, hnext⟩
  unfold VlcPath.generatePacket
  split
  · exact List.foldlRecOn _ _ h0 fun _ hu payload _ => hu.generateOne payload
  · exact h0

/-! ## Moving packets -/

/-- A step that makes no packet: what is in a place afterwards was there, or in another place, before. -/
structure Moves (s t : GatewaySystem) : Prop where
  serial : t.path.serial = s.path.serial
  arrSeq : t.path.arrSeq = s.path.arrSeq
  waiting : ∀ i, ∀ p ∈ t.path.nodeQueues i, p ∈ s.path.nodeQueues i
  taken : ∀ p ∈ t.taken, p ∈ s.taken ∨ ∃ i, ∃ q ∈ s.path.nodeQueues i, ∀ made, Numbered made q → Numbered made p

theorem AllNumbered.moves (h : AllNumbered s) (hmove : Moves s t) : AllNumbered t := by
  refine ⟨?_, ?_, ?_⟩
  · intro i p hp
    rw [hmove.serial]
    exact h.waiting i p (hmove.waiting i p hp)
  · intro p hp
    rw [hmove.serial]
    rcases hmove.taken p hp with hp | ⟨i, q, hq, hsame⟩
    · exact h.taken p hp
    · exact hsame _ (h.waiting i q hq)
  · rw [hmove.serial, hmove.arrSeq]
    exact h.next

theorem moves_of_taken (hserial : t.path.serial = s.path.serial) (harr : t.path.arrSeq = s.path.arrSeq)
    (hqueues : t.path.nodeQueues = s.path.nodeQueues) (htaken : ∀ p ∈ t.taken, p ∈ s.taken) : Moves s t :=
  ⟨hserial, harr, fun i p hp => by rwa [hqueues] at hp, fun p hp => Or.inl (htaken p hp)⟩

/-- The head of a node queue is taken. -/
theorem moves_head {i : ℕ} {temp : Parcel} {q : List Parcel} (hq : s.path.nodeQueues i = temp :: q)
    (hserial : t.path.serial = s.path.serial) (harr : t.path.arrSeq = s.path.arrSeq)
    (hqueues : t.path.nodeQueues = Function.update s.path.nodeQueues i q)
    (htaken : ∀ p ∈ t.taken, p ∈ s.taken ∨ ∀ made, Numbered made temp → Numbered made p) : Moves s t := by
  refine ⟨hserial, harr, ?_, ?_⟩
  · intro j p hp
    rw [hqueues, Function.update_apply] at hp
    split at hp
    · next hj =>
      rw [hj, hq]
      exact List.mem_cons_of_mem _ hp
    · exact hp
  · intro p hp
    rcases htaken p hp with hp | hsame
    · exact Or.inl hp
    · exact Or.inr ⟨i, temp, by rw [hq]; exact List.mem_cons_self, hsame⟩

theorem mem_taken {p : Parcel} : p ∈ s.taken ↔ p ∈ s.path.vlcQueue ∨ p ∈ s.path.unacked ∨ p ∈ s.path.rfQueue ∨
    p ∈ s.tbfQueue ∨ p ∈ s.scheduled ∨ p ∈ s.vlcSent ∨ p ∈ s.rfSent := by
  simp only [GatewaySystem.taken, List.mem_append, or_assoc]

theorem moves_scheduleRf {i : Fin cfg.nNode} (hstep : gatewayStep cfg s (.scheduleRf i) = some t) : Moves s t := by
  cases hstep
  rcases hq : s.path.nodeQueues i with _ | ⟨temp, q⟩
  · refine moves_of_taken ?_ ?_ ?_ ?_
    all_goals simp [VlcPath.scheduleRf_nil hq, mem_taken]
  · obtain ⟨_, _, hpath⟩ := @VlcPath.scheduleRf_cons cfg _ _ _ _ hq
    refine moves_head hq (by rw [hpath]) (by rw [hpath]) (by rw [hpath]) ?_
    intro p hp
    simp only [mem_taken, hpath, List.take_one, List.head?_cons, Option.toList_some, List.mem_append,
      List.mem_singleton] at hp ⊢
    rcases hp with hp | hp | hp | hp | (hp | rfl) | hp
    · tauto
    · tauto
    · rcases Fifo.mem_of_mem_push hp with hp | rfl
      · tauto
      · exact Or.inr fun _ hnum => hnum
    · tauto
    · tauto
    · exact Or.inr fun _ hnum => hnum
    · tauto

theorem moves_scheduleVlc {i : Fin cfg.nNode} {tx : Fin cfg.nVlc} {now : Timespec}
    (hstep : gatewayStep cfg s (.scheduleVlc i tx now) = some t) : Moves s t := by
  cases hstep
  rcases hq : s.path.nodeQueues i with _ | ⟨temp, q⟩
  · refine moves_of_taken ?_ ?_ ?_ ?_
    all_goals simp [VlcPath.schedulePacket_nil hq, mem_taken]
  · obtain ⟨_, _, _, _, hpath⟩ := @VlcPath.schedulePacket_cons cfg _ _ tx now _ _ hq
    refine moves_head hq (by rw [hpath]) (by rw [hpath]) (by rw [hpath]) ?_
    intro p hp
    simp only [mem_taken, hpath, List.take_one, List.head?_cons, Option.toList_some, List.map_cons, List.map_nil,
      List.mem_append, List.mem_singleton] at hp ⊢
    rcases hp with hp | hp | hp | hp | (hp | rfl) | hp
    · rcases Fifo.mem_of_mem_push hp with hp | rfl
      · tauto
      · exact Or.inr fun _ hnum => hnum.toTx tx
    · split at hp
      · rcases List.mem_append.mp hp with hp | hp
        · tauto
        · rw [List.mem_singleton.mp hp]
          exact Or.inr fun _ hnum => hnum.toTx tx
      · tauto
    · tauto
    · tauto
    · tauto
    · exact Or.inr fun _ hnum => hnum.toTx tx
    · tauto

theorem moves_transmitVlc (hstep : gatewayStep cfg s .transmitVlc = some t) : Moves s t := by
  cases hstep
  rcases hq : s.path.vlcQueue with _ | ⟨temp, q⟩
  · refine moves_of_taken ?_ ?_ ?_ ?_
    all_goals simp [VlcPath.transmitVlc, hq, mem_taken]
  · refine moves_of_taken ?_ ?_ ?_ ?_
    case refine_4 =>
      intro p hp
      simp only [mem_taken, VlcPath.transmitVlc, hq, List.take_one, List.head?_cons, Option.toList_some,
        List.mem_append, List.mem_cons, List.not_mem_nil, or_false] at hp ⊢
      tauto
    all_goals simp [VlcPath.transmitVlc, hq]

theorem moves_check {now : Timespec} (hstep : gatewayStep cfg s (.check now) = some t) : Moves s t := by
  rcases check_cases (toOption_eq_some.mp hstep) with ⟨_, _, rfl⟩ | ⟨path, -, hpath, rfl⟩
  · exact moves_of_taken rfl rfl rfl fun _ hp => hp
  · rcases checkPacket_cases hpath with ⟨-, rfl⟩ | ⟨entry, -, hfind, rfl⟩
    · exact moves_of_taken rfl rfl rfl fun _ hp => hp
    · refine moves_of_taken rfl rfl rfl ?_
      intro p hp
      simp only [mem_taken] at hp ⊢
      rcases hp with hp | hp | hp | hp
      · tauto
      · exact Or.inr (Or.inl (mem_of_mem_swapRemove hp))
      · rcases Fifo.mem_of_mem_push hp with hp | rfl
        · tauto
        · exact Or.inr (Or.inl (List.mem_of_find?_eq_some hfind))
      · tauto

theorem moves_transmitRf : Moves s (s.transmitRf cfg) := by
  unfold GatewaySystem.transmitRf
  split
  case h_1 => exact moves_of_taken rfl rfl rfl fun _ hp => hp
  case h_2 temp q hq =>
    split
    case isFalse => exact moves_of_taken rfl rfl rfl fun _ hp => hp
    case isTrue =>
      refine moves_of_taken rfl rfl rfl ?_
      intro p hp
      simp only [mem_taken, hq, List.mem_cons] at hp ⊢
      rcases hp with hp | hp | hp | hp | hp
      · tauto
      · tauto
      · tauto
      · rcases Fifo.mem_of_mem_push hp with hp | rfl
        · tauto
        · tauto
      · tauto

theorem moves_tbfTransmit {sendSucceeds : Bool} : Moves s (s.tbfTransmit sendSucceeds) := by
  unfold GatewaySystem.tbfTransmit
  split
  case h_1 => exact moves_of_taken rfl rfl rfl fun _ hp => hp
  case h_2 temp q hq =>
    split
    case isFalse => exact moves_of_taken rfl rfl rfl fun _ hp => hp
    case isTrue =>
      refine moves_of_taken (by split <;> rfl) (by split <;> rfl) (by split <;> rfl) ?_
      intro p hp
      simp only [mem_taken, hq, List.mem_cons] at hp ⊢
      split at hp
      · simp only [List.mem_append, List.mem_singleton] at hp
        tauto
      · tauto

/-- **Numbers follow the order of making**, wherever the packets are. -/
theorem AllNumbered.step {a : ThreadAction cfg} (hone : cfg.nNode = 1) (h : AllNumbered s)
    (hstep : gatewayStep cfg s a = some t) : AllNumbered t := by
  cases a with
  | generate i payloads =>
    cases hstep
    have hi : (i : ℕ) = 0 := by omega
    have hmakes := @makes_generatePacket cfg _ h.next payloads
    obtain ⟨_, _, _, _, hpath⟩ := @VlcPath.generatePacket_frame cfg s.path 0 payloads
    rw [hi]
    refine ⟨?_, ?_, hmakes.next⟩
    · intro j p hp
      rcases hmakes.waiting j p hp with hp | hnum
      · exact (h.waiting j p hp).mono hmakes.serial_le
      · exact hnum
    · intro p hp
      refine (h.taken p ?_).mono hmakes.serial_le
      simpa only [mem_taken, hpath] using hp
  | scheduleRf i => exact h.moves (moves_scheduleRf hstep)
  | scheduleVlc i tx now => exact h.moves (moves_scheduleVlc hstep)
  | transmitVlc => exact h.moves (moves_transmitVlc hstep)
  | report buf =>
    rw [gatewayStep] at hstep
    split at hstep
    case h_2 => cases hstep
    case h_1 path hpath =>
      cases hstep
      rcases receiveReport_cases hpath with rfl | ⟨_, _, _, -, -, rfl⟩
      · exact h
      · exact h.moves (moves_of_taken rfl rfl rfl fun _ hp => hp)
  | check now => exact h.moves (moves_check hstep)
  | transmitRf =>
    cases hstep
    exact h.moves moves_transmitRf
  | addToken =>
    cases hstep
    unfold GatewaySystem.addToken
    split
    · exact h.moves (moves_of_taken rfl rfl rfl fun _ hp => hp)
    · exact h
  | tbfTransmit sendSucceeds =>
    cases hstep
    exact h.moves moves_tbfTransmit

end

end CiotVlc.Gateway
