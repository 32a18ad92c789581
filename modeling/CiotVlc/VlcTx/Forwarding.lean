import CiotVlc.Foundations.Blocks
import CiotVlc.VlcTx.QueueSize
import Mathlib.Algebra.BigOperators.Group.List.Basic
import Mathlib.Tactic.Abel

/-! # From the gateway to the device

The transmitter program copies each packet that it hears into a cell of its own, queues the cell, and writes the
packet to the VLC device. Between the two threads no packet is lost, repeated or overtaken, and no memory is used
or freed that is not allocated and no array is left, as long as the payloads fit behind the headers; but the copy
that `generate_gateway_packet_from_bytes` makes of the payload is never freed, nor is anything of a packet that is
dropped.
-/
namespace CiotVlc.VlcTx
open Foundations.Blocks Foundations.Bytes Foundations.Checked Foundations.LinkedQueue Foundations.Runs CiotVlc.Gateway CiotVlc.Links
set_option autoImplicit false

/-! ## The program -/

/-- A `NODE`: its block, the block of its payload, and the packet in it. -/
structure Cell where
  node : ℕ
  payload : ℕ
  packet : GatewayPacket

/-- Where `main` is, with the cell in `temp`. -/
inductive ReceiveAt
  | receiving
  | accepting (temp : Cell)
  | enqueuing (temp : Cell)
  | counting

/-- Where `transmit_vlc` is, with the cell that `vlc_packet` was copied from. -/
inductive SendAt
  | polling
  | dequeuing
  | transmitting (vlcPacket : Cell)
  | discounting (vlcPacket : Cell)
  | releasing (vlcPacket : Cell)

/-- `heard`, `dropped`, `refused`, `accepted` and `device` are histories: the packets for this transmitter, those
that `main` dropped, those that `Enqueue` refused, those it took, and what has been written to the device. -/
structure Forwarder where
  vlcQueue : List Cell
  queueSize : ℤ
  receiveAt : ReceiveAt
  sendAt : SendAt
  blocks : Finset ℕ
  heard : ℕ
  dropped : ℕ
  refused : ℕ
  accepted : List GatewayPacket
  device : List (List UInt8)

def initialForwarder : Forwarder where
  vlcQueue := []
  queueSize := 0
  receiveAt := .receiving
  sendAt := .polling
  blocks := ∅
  heard := 0
  dropped := 0
  refused := 0
  accepted := []
  device := []

/-- Memory that is not allocated is used or freed, `malloc` breaks its promise, or an access is out of bounds. -/
inductive ForwardStop
  | badMemory
  | allocator
  | fault (f : Fault)

def orFault {β : Type} : Except Fault β → Except ForwardStop β
  | .error f => .error (.fault f)
  | .ok x => .ok x

/-- One step of `main`; `buf` is what `recvfrom` leaves in the buffer, and the blocks are the answers of `malloc`:
for the cell, in `generate_gateway_packet_from_bytes`, and for the payload of the cell. -/
def receiveStep (s : Forwarder) (buf : List UInt8) (node content payload : ℕ) : Except ForwardStop Forwarder :=
  match s.receiveAt with
  | .receiving =>
    if isForThisTx buf then do
      let blocks ← orStop .allocator (alloc s.blocks node)
      let blocks ← orStop .allocator (alloc blocks content)
      let bufferContent ← orFault (generateGatewayPacketFromBytes (buf.drop 14))
      let blocks ← orStop .allocator (alloc blocks payload)
      return { s with blocks, heard := s.heard + 1, receiveAt := .accepting ⟨node, payload, bufferContent⟩ }
    else .ok s
  | .accepting temp =>
    if s.queueSize + 1 < queueLimit then .ok { s with receiveAt := .enqueuing temp }
    else .ok { s with dropped := s.dropped + 1, receiveAt := .receiving }
  | .enqueuing temp =>
    if s.vlcQueue.length < queueLimit then
      .ok { s with
        vlcQueue := s.vlcQueue ++ [temp]
        accepted := s.accepted ++ [temp.packet]
        receiveAt := .counting }
    else .ok { s with refused := s.refused + 1, receiveAt := .counting }
  | .counting => .ok { s with queueSize := s.queueSize + 1, receiveAt := .receiving }

/-- One step of `transmit_vlc`. -/
def sendStep (s : Forwarder) : Except ForwardStop Forwarder :=
  match s.sendAt with
  | .polling => if s.vlcQueue.isEmpty then .ok s else .ok { s with sendAt := .dequeuing }
  | .dequeuing =>
    match s.vlcQueue with
    | [] => .ok { s with sendAt := .polling }
    | fromQueue :: rest => do
      let blocks ← orStop .badMemory (free s.blocks fromQueue.node)
      return { s with blocks, vlcQueue := rest, sendAt := .transmitting fromQueue }
  | .transmitting vlcPacket =>
    if vlcPacket.payload ∉ s.blocks then .error .badMemory
    else do
      let bytes ← orFault (transmitToVlc vlcPacket.packet)
      return { s with device := s.device ++ [bytes], sendAt := .discounting vlcPacket }
  | .discounting vlcPacket => .ok { s with queueSize := s.queueSize - 1, sendAt := .releasing vlcPacket }
  | .releasing vlcPacket => do
    let blocks ← orStop .badMemory (free s.blocks vlcPacket.payload)
    return { s with blocks, sendAt := .polling }

/-- `send_queue_report` only reads the counter. `Enqueue` and `Dequeue` are one step each, although the program takes
no lock. -/
inductive ForwardAction
  | receive (buf : List UInt8) (node content payload : ℕ)
  | send

def forwarderStep (s : Forwarder) : ForwardAction → Except ForwardStop Forwarder
  | .receive buf node content payload => receiveStep s buf node content payload
  | .send => sendStep s

/-- The whole buffer after `recvfrom`; in a frame for this transmitter the length word counts no more bytes than there
are behind the headers. -/
structure FrameFits (buf : List UInt8) : Prop where
  length : buf.length = bufSiz
  payload : isForThisTx buf = true → ofLittleEndian ((buf.drop 18).take 2) ≤ 1000

def ForwardAction.Fits : ForwardAction → Prop
  | .receive buf _ _ _ => FrameFits buf
  | .send => True

/-! ## Without the memory -/

def ReceiveAt.mainAt : ReceiveAt → MainAt
  | .receiving => .receiving
  | .accepting temp => .accepting temp.packet
  | .enqueuing temp => .enqueuing temp.packet
  | .counting => .counting

def SendAt.transmitAt : SendAt → TransmitAt
  | .polling => .polling
  | .dequeuing => .dequeuing
  | .transmitting vlcPacket => .transmitting vlcPacket.packet
  | .discounting _ => .discounting
  | .releasing _ => .polling

def Forwarder.transmitter (s : Forwarder) : Transmitter where
  vlcQueue := s.vlcQueue.map Cell.packet
  queueSize := s.queueSize
  mainAt := s.receiveAt.mainAt
  transmitAt := s.sendAt.transmitAt
  refused := s.refused
  reported := []

section
variable {s : Transmitter} {buf : List UInt8} {temp : GatewayPacket}

theorem mainStep_enqueues (hat : s.mainAt = .enqueuing temp) (hlt : s.vlcQueue.length < queueLimit) :
    mainStep s buf = some { s with vlcQueue := s.vlcQueue ++ [temp], mainAt := .counting } := by
  rw [mainStep]
  simp only [hat, Fifo.push_of_lt temp hlt, if_pos hlt]

theorem mainStep_refuses (hat : s.mainAt = .enqueuing temp) (hle : queueLimit ≤ s.vlcQueue.length) :
    mainStep s buf = some { s with refused := s.refused + 1, mainAt := .counting } := by
  rw [mainStep]
  simp only [hat, Fifo.push_of_le temp hle, if_neg (Nat.not_lt.mpr hle)]

end

theorem receive_refines {s t : Forwarder} {buf : List UInt8} {node content payload : ℕ}
    (h : receiveStep s buf node content payload = .ok t) : mainStep s.transmitter buf = some t.transmitter := by
  obtain ⟨vlcQueue, queueSize, receiveAt, sendAt, blocks, heard, dropped, refused, accepted, device⟩ := s
  cases receiveAt with
  | receiving =>
    simp only [receiveStep] at h
    simp only [mainStep, Forwarder.transmitter, ReceiveAt.mainAt]
    split at h
    case isFalse hfor =>
      cases h
      rw [if_neg hfor]
    case isTrue hfor =>
      rw [if_pos hfor]
      cases h₁ : alloc blocks node with
      | none => rw [h₁] at h; cases h
      | some b₁ =>
        rw [h₁] at h
        change (orStop ForwardStop.allocator (alloc b₁ content) >>= _) = _ at h
        cases h₂ : alloc b₁ content with
        | none => rw [h₂] at h; cases h
        | some b₂ =>
          rw [h₂] at h
          change (orFault (generateGatewayPacketFromBytes (buf.drop 14)) >>= _) = _ at h
          cases hread : generateGatewayPacketFromBytes (buf.drop 14) with
          | error f => rw [hread] at h; cases h
          | ok bufferContent =>
            rw [hread] at h
            change (orStop ForwardStop.allocator (alloc b₂ payload) >>= _) = _ at h
            cases h₃ : alloc b₂ payload with
            | none => rw [h₃] at h; cases h
            | some b₃ =>
              rw [h₃] at h
              cases h
              rfl
  | accepting temp =>
    simp only [receiveStep] at h
    simp only [mainStep, Forwarder.transmitter, ReceiveAt.mainAt]
    split at h
    case isTrue hroom =>
      cases h
      exact if_pos hroom
    case isFalse hfull =>
      cases h
      exact if_neg hfull
  | enqueuing temp =>
    simp only [receiveStep] at h
    have hlen : (vlcQueue.map Cell.packet).length = vlcQueue.length := List.length_map _
    split at h
    case isTrue hroom =>
      cases h
      rw [mainStep_enqueues rfl (hlen.trans_lt hroom)]
      simp only [Forwarder.transmitter, List.map_append, List.map_cons, List.map_nil, ReceiveAt.mainAt]
    case isFalse hfull =>
      cases h
      exact mainStep_refuses rfl (hlen.symm ▸ Nat.le_of_not_lt hfull)
  | counting =>
    cases h
    rfl

/-- The release of a payload is no step of the program without memory. -/
theorem send_refines {s t : Forwarder} (h : sendStep s = .ok t) :
    t.transmitter = s.transmitter ∨ transmitStep s.transmitter = t.transmitter := by
  obtain ⟨vlcQueue, queueSize, receiveAt, sendAt, blocks, heard, dropped, refused, accepted, device⟩ := s
  cases sendAt with
  | polling =>
    cases vlcQueue with
    | nil =>
      cases h
      exact Or.inl rfl
    | cons c q =>
      cases h
      exact Or.inr rfl
  | dequeuing =>
    cases vlcQueue with
    | nil =>
      cases h
      exact Or.inr rfl
    | cons c q =>
      simp only [sendStep] at h
      cases hfree : free blocks c.node with
      | none => rw [hfree] at h; cases h
      | some b =>
        rw [hfree] at h
        cases h
        exact Or.inr rfl
  | transmitting c =>
    simp only [sendStep] at h
    split at h
    · cases h
    · cases hbytes : transmitToVlc c.packet with
      | error f => rw [hbytes] at h; cases h
      | ok bytes =>
        rw [hbytes] at h
        cases h
        exact Or.inr rfl
  | discounting c =>
    cases h
    exact Or.inr rfl
  | releasing c =>
    simp only [sendStep] at h
    cases hfree : free blocks c.payload with
    | none => rw [hfree] at h; cases h
    | some b =>
      rw [hfree] at h
      cases h
      exact Or.inl rfl

theorem sizeInv_forwarderStep {s t : Forwarder} (h : SizeInv s.transmitter) {a : ForwardAction}
    (hstep : forwarderStep s a = .ok t) : SizeInv t.transmitter := by
  cases a with
  | receive buf node content payload => exact (sizeInv_mainStep h (receive_refines hstep)).1
  | send =>
    rcases send_refines hstep with heq | heq
    · rw [heq]
      exact h
    · rw [← heq]
      exact (sizeInv_transmitStep h).1

/-- `main` enqueues a cell only when there is room for it. -/
theorem room_of_enqueuing {s : Forwarder} (h : SizeInv s.transmitter) {temp : Cell}
    (hat : s.receiveAt = .enqueuing temp) : s.vlcQueue.length < queueLimit := by
  have hmain : s.transmitter.mainAt = .enqueuing temp.packet := by
    rw [Forwarder.transmitter, hat]
    rfl
  have hroom := h.room (by rw [hmain]; rfl)
  have hbalance := h.balance
  rw [hmain] at hbalance
  have hlen : s.transmitter.vlcQueue.length = s.vlcQueue.length := List.length_map _
  simp only [MainAt.uncounted, hlen] at hbalance
  omega

/-! ## Who holds what -/

def Cell.blocks (c : Cell) : Multiset ℕ := {c.node} + {c.payload}

def ReceiveAt.blocks : ReceiveAt → Multiset ℕ
  | .receiving | .counting => 0
  | .accepting temp | .enqueuing temp => temp.blocks

def SendAt.blocks : SendAt → Multiset ℕ
  | .polling | .dequeuing => 0
  | .transmitting vlcPacket | .discounting vlcPacket | .releasing vlcPacket => {vlcPacket.payload}

/-- A packet that `main` has still to decide on. -/
def ReceiveAt.pending : ReceiveAt → ℕ
  | .receiving | .counting => 0
  | .accepting _ | .enqueuing _ => 1

/-- The packet that has left the queue and is not on the device yet. -/
def SendAt.unsent : SendAt → List GatewayPacket
  | .transmitting vlcPacket => [vlcPacket.packet]
  | .polling | .dequeuing | .discounting _ | .releasing _ => []

/-- The packet in the hand of `main`. -/
def ReceiveAt.packets : ReceiveAt → List GatewayPacket
  | .receiving | .counting => []
  | .accepting temp | .enqueuing temp => [temp.packet]

/-- The blocks of the cells that the program can still reach. -/
def Forwarder.held (s : Forwarder) : Multiset ℕ :=
  s.receiveAt.blocks + (s.vlcQueue.map Cell.blocks).sum + s.sendAt.blocks

structure ForwardInv (s : Forwarder) : Prop where
  inOrder : ∃ sent, sent.mapM transmitToVlc = .ok s.device ∧
    s.accepted = sent ++ s.sendAt.unsent ++ s.vlcQueue.map Cell.packet
  heard : s.heard = s.accepted.length + s.dropped + s.receiveAt.pending
  fit : (∀ p ∈ s.receiveAt.packets, PayloadFits p) ∧ (∀ p ∈ s.vlcQueue.map Cell.packet, PayloadFits p) ∧
    ∀ p ∈ s.sendAt.unsent, PayloadFits p
  owns : ∃ leaked : Multiset ℕ, Owns s.blocks (s.held + leaked) ∧ leaked.card = s.heard + 2 * s.dropped

theorem forwardInv_initial : ForwardInv initialForwarder :=
  ⟨⟨[], rfl, rfl⟩, rfl, ⟨nofun, nofun, nofun⟩, 0, owns_empty, rfl⟩

/-- The result of a step: no memory is misused, no array is left, and the invariant holds. -/
def ForwardSound : Except ForwardStop Forwarder → Prop
  | .error stop => stop = .allocator
  | .ok t => ForwardInv t

/-- A frame that fits is read to its end. -/
theorem generateGatewayPacketFromBytes_ok {buf : List UInt8} (h : FrameFits buf) (hfor : isForThisTx buf = true) :
    ∃ p, generateGatewayPacketFromBytes (buf.drop 14) = .ok p ∧ PayloadFits p := by
  have hlen : (buf.drop 14).length = 1010 := by rw [List.length_drop, h.length, bufSiz]
  have hread : ∀ i n, i + n ≤ 1010 → readBytes (buf.drop 14) i n = .ok (((buf.drop 14).drop i).take n) := by
    intro i n hin
    rw [readBytes, if_pos (hin.trans_eq hlen.symm)]
  have hpayload := h.payload hfor
  have hword : (UInt16.ofNat (ofLittleEndian (((buf.drop 14).drop 4).take 2))).toNat ≤ 1000 := by
    rw [List.drop_drop, UInt16.toNat_ofNat']
    exact (Nat.mod_le _ _).trans hpayload
  unfold generateGatewayPacketFromBytes
  rw [hread 0 2 (by omega), ok_bind, hread 2 2 (by omega), ok_bind, hread 4 2 (by omega), ok_bind,
    hread 6 4 (by omega), ok_bind]
  dsimp only
  rw [hread 10 _ (by omega), ok_bind]
  refine ⟨_, rfl, ?_, ?_⟩
  · rw [List.length_take, List.length_drop, hlen]
    exact Nat.min_eq_left hword
  · rw [bufSiz]
    exact Nat.add_le_add_left hword 24

section
variable {s : Forwarder}

theorem forwardSound_alloc {b : Finset ℕ} {m : Multiset ℕ} {a : ℕ} {f : Finset ℕ → Except ForwardStop Forwarder}
    (h : Owns b m) (hf : ∀ b', Owns b' ({a} + m) → ForwardSound (f b')) :
    ForwardSound (orStop .allocator (alloc b a) >>= f) := by
  cases hb : alloc b a with
  | none => rfl
  | some b' =>
    apply hf b'
    rw [Multiset.singleton_add]
    exact h.alloc hb

theorem forwardSound_free {b : Finset ℕ} {m : Multiset ℕ} {a : ℕ} {f : Finset ℕ → Except ForwardStop Forwarder}
    (h : Owns b ({a} + m)) (hf : ∀ b', Owns b' m → ForwardSound (f b')) :
    ForwardSound (orStop .badMemory (free b a) >>= f) := by
  rw [Multiset.singleton_add] at h
  obtain ⟨b', hb', howns⟩ := h.free
  rw [hb']
  exact hf b' howns

theorem forwardSound_ok {β : Type} {x : Except Fault β} {y : β} {f : β → Except ForwardStop Forwarder}
    (hx : x = .ok y) (hf : ForwardSound (f y)) : ForwardSound (orFault x >>= f) := by
  rw [hx]
  exact hf

theorem ForwardInv.receive (h : ForwardInv s)
    (hroom : ∀ temp, s.receiveAt = .enqueuing temp → s.vlcQueue.length < queueLimit) {buf : List UInt8}
    (hbuf : FrameFits buf) (node content payload : ℕ) : ForwardSound (receiveStep s buf node content payload) := by
  obtain ⟨sent, hsent, haccepted⟩ := h.inOrder
  obtain ⟨leaked, howns, hleaked⟩ := h.owns
  have hheard := h.heard
  obtain ⟨hreceive, hqueue, hsend⟩ := h.fit
  unfold receiveStep
  rw [Forwarder.held] at howns
  cases hat : s.receiveAt with
  | receiving =>
    rw [hat] at howns hheard hreceive
    dsimp only
    split
    case isFalse => exact h
    case isTrue hfor =>
      obtain ⟨bufferContent, hread, hfits⟩ := generateGatewayPacketFromBytes_ok hbuf hfor
      refine forwardSound_alloc howns fun b₁ h₁ => ?_
      refine forwardSound_alloc h₁ fun b₂ h₂ => ?_
      refine forwardSound_ok hread ?_
      refine forwardSound_alloc h₂ fun b₃ h₃ => ?_
      -- nothing refers to the first copy of the payload any more
      refine ⟨⟨sent, hsent, haccepted⟩, ?_, ⟨List.forall_mem_singleton.mpr hfits, hqueue, hsend⟩, {content} + leaked,
        h₃.congr ?_, ?_⟩
      · simp only [ReceiveAt.pending] at hheard ⊢
        omega
      · simp only [Forwarder.held, ReceiveAt.blocks, Cell.blocks]
        abel
      · rw [Multiset.card_add, Multiset.card_singleton, hleaked]
        dsimp only
        omega
  | accepting temp =>
    rw [hat] at howns hheard hreceive
    dsimp only
    split
    case isTrue => exact ⟨⟨sent, hsent, haccepted⟩, hheard, ⟨hreceive, hqueue, hsend⟩, leaked, howns, hleaked⟩
    case isFalse =>
      refine ⟨⟨sent, hsent, haccepted⟩, ?_, ⟨nofun, hqueue, hsend⟩, temp.blocks + leaked, howns.congr ?_, ?_⟩
      · simp only [ReceiveAt.pending] at hheard ⊢
        omega
      · simp only [Forwarder.held, ReceiveAt.blocks]
        abel
      · rw [Multiset.card_add, hleaked, Cell.blocks, Multiset.card_add, Multiset.card_singleton,
          Multiset.card_singleton]
        dsimp only
        omega
  | enqueuing temp =>
    rw [hat] at howns hheard hreceive
    dsimp only
    rw [if_pos (hroom temp hat)]
    refine ⟨⟨sent, hsent, ?_⟩, ?_, ⟨nofun, ?_, hsend⟩, leaked, howns.congr ?_, hleaked⟩
    · rw [haccepted, List.map_append, List.append_assoc]
      rfl
    · rw [List.length_append, List.length_singleton]
      simp only [ReceiveAt.pending] at hheard ⊢
      omega
    · rw [List.map_append]
      exact List.forall_mem_append.mpr ⟨hqueue, hreceive⟩
    · simp only [Forwarder.held, ReceiveAt.blocks, List.map_append, List.sum_append, List.map_cons, List.map_nil,
        List.sum_cons, List.sum_nil]
      abel
  | counting =>
    rw [hat] at howns hheard hreceive
    exact ⟨⟨sent, hsent, haccepted⟩, hheard, ⟨nofun, hqueue, hsend⟩, leaked, howns, hleaked⟩

theorem ForwardInv.send (h : ForwardInv s) : ForwardSound (sendStep s) := by
  obtain ⟨sent, hsent, haccepted⟩ := h.inOrder
  obtain ⟨leaked, howns, hleaked⟩ := h.owns
  obtain ⟨hreceive, hqueue, hsend⟩ := h.fit
  unfold sendStep
  rw [Forwarder.held] at howns
  cases hat : s.sendAt with
  | polling =>
    rw [hat] at howns haccepted
    dsimp only
    split
    · exact h
    · exact ⟨⟨sent, hsent, haccepted⟩, h.heard, ⟨hreceive, hqueue, nofun⟩, leaked, howns, hleaked⟩
  | dequeuing =>
    rw [hat] at howns haccepted
    dsimp only
    split
    case h_1 => exact ⟨⟨sent, hsent, haccepted⟩, h.heard, ⟨hreceive, hqueue, nofun⟩, leaked, howns, hleaked⟩
    case h_2 c q hcells =>
      rw [hcells] at howns haccepted hqueue
      obtain ⟨hfirst, hrest⟩ := List.forall_mem_cons.mp hqueue
      have hnode : Owns s.blocks ({c.node} +
          (s.receiveAt.blocks + (q.map Cell.blocks).sum + {c.payload} + leaked)) := by
        refine howns.congr ?_
        rw [List.map_cons, List.sum_cons, Cell.blocks, SendAt.blocks]
        abel
      refine forwardSound_free hnode fun b hb => ?_
      refine ⟨⟨sent, hsent, ?_⟩, h.heard, ⟨hreceive, hrest, List.forall_mem_singleton.mpr hfirst⟩, leaked, hb, hleaked⟩
      rw [haccepted, List.map_cons, List.append_assoc, List.append_assoc]
      rfl
  | transmitting c =>
    rw [hat] at howns haccepted hsend
    have hbytes := transmitToVlc_eq (List.forall_mem_singleton.mp hsend)
    have hmem : c.payload ∈ s.blocks := by
      rw [howns.mem]
      simp [SendAt.blocks]
    dsimp only
    rw [if_neg (not_not.mpr hmem)]
    refine forwardSound_ok hbytes ?_
    refine ⟨⟨sent ++ [c.packet], ?_, ?_⟩, h.heard, ⟨hreceive, hqueue, nofun⟩, leaked, howns, hleaked⟩
    · rw [List.mapM_append, hsent, List.mapM_cons, hbytes]
      rfl
    · rw [haccepted]
      simp only [SendAt.unsent, List.append_nil]
  | discounting c =>
    rw [hat] at howns haccepted
    exact ⟨⟨sent, hsent, haccepted⟩, h.heard, ⟨hreceive, hqueue, nofun⟩, leaked, howns, hleaked⟩
  | releasing c =>
    rw [hat] at howns haccepted
    have hpayload : Owns s.blocks ({c.payload} +
        (s.receiveAt.blocks + (s.vlcQueue.map Cell.blocks).sum + leaked)) := by
      refine howns.congr ?_
      simp only [SendAt.blocks]
      abel
    refine forwardSound_free hpayload fun b hb => ?_
    refine ⟨⟨sent, hsent, haccepted⟩, h.heard, ⟨hreceive, hqueue, nofun⟩, leaked, hb.congr ?_, hleaked⟩
    simp only [Forwarder.held, SendAt.blocks]
    abel

/-- A step from a state of a run. -/
theorem ForwardInv.step (h : ForwardInv s) (hsize : SizeInv s.transmitter) {a : ForwardAction} (ha : a.Fits) :
    ForwardSound (forwarderStep s a) := by
  cases a with
  | receive buf node content payload =>
    exact h.receive (fun temp hat => room_of_enqueuing hsize hat) ha node content payload
  | send => exact h.send

end

/-! ## Runs -/

theorem cells_card (q : List Cell) : (q.map Cell.blocks).sum.card = 2 * q.length := by
  induction q with
  | nil => rfl
  | cons c q ih =>
    rw [List.map_cons, List.sum_cons, Multiset.card_add, ih, Cell.blocks, Multiset.card_add, Multiset.card_singleton,
      Multiset.card_singleton, List.length_cons]
    omega

/-- What was written to the device, the packet in hand and the queue are the packets that `main` took, in order and
each once; the others were dropped. A block is allocated for each cell and payload that is still in use, one more
for each packet heard and two more for each one dropped. No step misuses memory or leaves an array; it can only
come to nothing when `malloc` answers with a block that is in use. -/
structure Forwarded (s : Forwarder) : Prop where
  inOrder : ∃ sent, sent.mapM transmitToVlc = .ok s.device ∧
    s.accepted = sent ++ s.sendAt.unsent ++ s.vlcQueue.map Cell.packet
  heard : s.heard = s.accepted.length + s.dropped + s.receiveAt.pending
  unrefused : s.refused = 0
  blocks : s.blocks.card = s.receiveAt.blocks.card + 2 * s.vlcQueue.length + s.sendAt.blocks.card + s.heard +
    2 * s.dropped
  safe : ∀ a : ForwardAction, a.Fits → ∀ stop, forwarderStep s a = .error stop → stop = .allocator

/-- **The transmitter forwards in order and leaks the copies.** In every interleaving of its two threads, whatever
frames arrive, as long as their payloads fit, and whichever blocks `malloc` answers with. -/
theorem forwards_in_order (as : List ForwardAction) (hframes : ∀ a ∈ as, a.Fits) (t : Forwarder)
    (hrun : Run (fun s a => (forwarderStep s a).toOption) initialForwarder as t) : Forwarded t := by
  obtain ⟨hsize, h⟩ : SizeInv t.transmitter ∧ ForwardInv t := by
    have hfit : EveryStep (fun s a => (forwarderStep s a).toOption) initialForwarder as fun _ a => a.Fits :=
      fun bs a u hbs _ => hframes a (hbs.subset (List.mem_append_right bs (List.mem_singleton_self a)))
    refine @Run.invariant_of_everyStep _ _ _ _ _ _ (fun s => SizeInv s.transmitter ∧ ForwardInv s) _ hrun
      ⟨sizeInv_initial, forwardInv_initial⟩ ?_ hfit
    rintro s a u ⟨hsize, h⟩ ha hstep
    have hsound := h.step hsize ha
    have hok := toOption_eq_some.mp hstep
    rw [hok] at hsound
    exact ⟨sizeInv_forwarderStep hsize hok, hsound⟩
  obtain ⟨leaked, howns, hleaked⟩ := h.owns
  refine ⟨h.inOrder, h.heard, hsize.unrefused, ?_, ?_⟩
  · rw [howns.card, Forwarder.held, Multiset.card_add, Multiset.card_add, Multiset.card_add, cells_card, hleaked]
    omega
  · intro a ha stop heq
    have hsound := h.step hsize ha
    rw [heq] at hsound
    exact hsound

/-- One packet from the gateway to the device; the rest of the buffer holds what an earlier frame left. -/
def onePacketForwarded : List ForwardAction :=
  List.replicate 4 (.receive (emptyPacketFrame ++ List.replicate 1000 7) 0 1 2) ++ List.replicate 5 .send

/-- The first copy of its payload stays allocated. -/
theorem forwards_in_order_one_packet :
    ∃ t, Run (fun s a => (forwarderStep s a).toOption) initialForwarder onePacketForwarded t ∧
      t.device.length = 1 ∧ t.blocks = {1} ∧ Forwarded t := by
  obtain ⟨t, ht⟩ := Option.isSome_iff_exists.mp (show (exec (fun s a => (forwarderStep s a).toOption) initialForwarder
    onePacketForwarded).isSome = true by decide +kernel)
  have hend : (exec (fun s a => (forwarderStep s a).toOption) initialForwarder onePacketForwarded).map
      (fun s => (s.device.length, s.blocks)) = some (1, {1}) := by decide +kernel
  rw [ht, Option.map_some, Option.some.injEq, Prod.mk.injEq] at hend
  have hframe : FrameFits (emptyPacketFrame ++ List.replicate 1000 7) := ⟨by decide +kernel, by decide +kernel⟩
  have hfits : ∀ a ∈ onePacketForwarded, a.Fits := by
    intro a ha
    rcases List.mem_append.mp ha with hreceive | hsend
    · rw [List.eq_of_mem_replicate hreceive]
      exact hframe
    · rw [List.eq_of_mem_replicate hsend]
      trivial
  exact ⟨t, run_of_exec ht, hend.1, hend.2, forwards_in_order onePacketForwarded hfits t (run_of_exec ht)⟩

end CiotVlc.VlcTx
