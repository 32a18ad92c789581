import CiotVlc.Foundations.LinkedQueue
import CiotVlc.Foundations.Runs
import CiotVlc.Links.QueueReports

/-! # The queue length that a VLC transmitter reports

The transmitter program counts its queue in `queue_size`: `main` adds one after `Enqueue`, `transmit_vlc`
subtracts one after a packet is sent, and `send_queue_report` reads the counter at any time. The counter is
ahead of the queue while a packet is being sent, and behind it between `Enqueue` and the addition
(`SizeInv`). So no packet is refused; but if a packet is sent before `main` has counted it, a report says
-1 (`queueSize_sound_iff`).
-/
namespace CiotVlc.VlcTx
open Foundations.Checked Foundations.LinkedQueue Foundations.Runs CiotVlc.Gateway CiotVlc.Links
set_option autoImplicit false

/-! ## The program -/

/-- `QUEUE_LIMIT` -/
def queueLimit : ℕ := 1000000

/-- Where `main` is in its loop: at `recvfrom`, before the test of the counter, before `Enqueue`, or before
`queue_size++`. -/
inductive MainAt
  | receiving
  | accepting (temp : GatewayPacket)
  | enqueuing (temp : GatewayPacket)
  | counting
  deriving DecidableEq

/-- Where `transmit_vlc` is in its loop: before `isEmpty`, before `Dequeue`, in `transmit_to_vlc`, or before
`queue_size--`. -/
inductive TransmitAt
  | polling
  | dequeuing
  | transmitting (vlcPacket : GatewayPacket)
  | discounting
  deriving DecidableEq

/-- The globals and the places of the threads; `refused` and `reported` are histories: how often `Enqueue`
refused a packet, and the values that were reported. -/
structure Transmitter where
  vlcQueue : List GatewayPacket
  queueSize : ℤ
  mainAt : MainAt
  transmitAt : TransmitAt
  refused : ℕ
  reported : List ℤ
  deriving DecidableEq

def initialTransmitter : Transmitter where
  vlcQueue := []
  queueSize := 0
  mainAt := .receiving
  transmitAt := .polling
  refused := 0
  reported := []

def isForThisTx (eh : List UInt8) : Bool := (eh.drop 6).take 6 = gatewayEthMac.val && eh.take 6 = vlcMac.val

inductive TransmitterAction
  | main (buf : List UInt8)
  | transmit
  | report

/-- One step of `main`; `buf` is what `recvfrom` leaves in the buffer. -/
def mainStep (s : Transmitter) (buf : List UInt8) : Option Transmitter :=
  match s.mainAt with
  | .receiving =>
    if isForThisTx buf then
      match generateGatewayPacketFromBytes (buf.drop 14) with
      | .ok bufferContent => some { s with mainAt := .accepting bufferContent }
      | .error _ => none
    else some s
  | .accepting temp =>
    if s.queueSize + 1 < queueLimit then some { s with mainAt := .enqueuing temp }
    else some { s with mainAt := .receiving }
  | .enqueuing temp =>
    some { s with
      vlcQueue := Fifo.push queueLimit s.vlcQueue temp
      refused := if s.vlcQueue.length < queueLimit then s.refused else s.refused + 1
      mainAt := .counting }
  | .counting => some { s with queueSize := s.queueSize + 1, mainAt := .receiving }

/-- One step of `transmit_vlc`. -/
def transmitStep (s : Transmitter) : Transmitter :=
  match s.transmitAt with
  | .polling => if s.vlcQueue = [] then s else { s with transmitAt := .dequeuing }
  | .dequeuing =>
    match s.vlcQueue with
    | [] => { s with transmitAt := .polling }
    | fromQueue :: rest => { s with vlcQueue := rest, transmitAt := .transmitting fromQueue }
  | .transmitting _ => { s with transmitAt := .discounting }
  | .discounting => { s with queueSize := s.queueSize - 1, transmitAt := .polling }

def transmitterStep (s : Transmitter) : TransmitterAction → Option Transmitter
  | .main buf => mainStep s buf
  | .transmit => some (transmitStep s)
  | .report => some { s with reported := s.reported ++ [s.queueSize] }

/-! ## The counter and the queue -/

/-- A packet that has left the queue and is still counted. -/
def TransmitAt.sending : TransmitAt → ℕ
  | .polling | .dequeuing => 0
  | .transmitting _ | .discounting => 1

/-- A packet in the queue that is not counted yet. -/
def MainAt.uncounted : MainAt → ℕ
  | .counting => 1
  | .receiving | .accepting _ | .enqueuing _ => 0

/-- `main` has found that the counter may grow. -/
def MainAt.accepted : MainAt → Bool
  | .enqueuing _ | .counting => true
  | .receiving | .accepting _ => false

structure SizeInv (s : Transmitter) : Prop where
  balance : s.queueSize + s.mainAt.uncounted = s.vlcQueue.length + s.transmitAt.sending
  below : s.queueSize < queueLimit
  room : s.mainAt.accepted = true → s.queueSize + 1 < queueLimit
  unrefused : s.refused = 0

theorem sizeInv_initial : SizeInv initialTransmitter where
  balance := rfl
  below := by decide
  room := nofun
  unrefused := rfl

theorem sizeInv_mainStep {s t : Transmitter} {buf : List UInt8} (h : SizeInv s)
    (hstep : mainStep s buf = some t) : SizeInv t ∧ t.reported = s.reported := by
  have hbalance := h.balance
  unfold mainStep at hstep
  cases hmain : s.mainAt with
  | receiving =>
    rw [hmain] at hstep hbalance
    dsimp only at hstep
    split at hstep
    · split at hstep
      · cases hstep
        exact ⟨⟨hbalance, h.below, nofun, h.unrefused⟩, rfl⟩
      · cases hstep
    · cases hstep
      exact ⟨h, rfl⟩
  | accepting temp =>
    rw [hmain] at hstep hbalance
    dsimp only at hstep
    split at hstep
    · next hroom =>
      cases hstep
      exact ⟨⟨hbalance, h.below, fun _ => hroom, h.unrefused⟩, rfl⟩
    · cases hstep
      exact ⟨⟨hbalance, h.below, nofun, h.unrefused⟩, rfl⟩
  | enqueuing temp =>
    have hroom := h.room (by rw [hmain]; rfl)
    rw [hmain] at hstep hbalance
    cases hstep
    -- the queue holds no more than the counter says
    have hlt : s.vlcQueue.length < queueLimit := by
      simp only [MainAt.uncounted] at hbalance
      omega
    refine ⟨⟨?_, h.below, fun _ => hroom, ?_⟩, rfl⟩
    · simp only [MainAt.uncounted] at hbalance ⊢
      rw [Fifo.push_of_lt temp hlt, List.length_append, List.length_singleton]
      push_cast at hbalance ⊢
      omega
    · change (if s.vlcQueue.length < queueLimit then s.refused else s.refused + 1) = 0
      rw [if_pos hlt]
      exact h.unrefused
  | counting =>
    have hroom := h.room (by rw [hmain]; rfl)
    rw [hmain] at hstep hbalance
    cases hstep
    refine ⟨⟨?_, hroom, nofun, h.unrefused⟩, rfl⟩
    simp only [MainAt.uncounted] at hbalance ⊢
    push_cast at hbalance ⊢
    omega

theorem sizeInv_transmitStep {s : Transmitter} (h : SizeInv s) :
    SizeInv (transmitStep s) ∧ (transmitStep s).reported = s.reported := by
  have hbalance := h.balance
  unfold transmitStep
  cases htransmit : s.transmitAt with
  | polling =>
    rw [htransmit] at hbalance
    dsimp only
    split
    · exact ⟨h, rfl⟩
    · exact ⟨⟨hbalance, h.below, h.room, h.unrefused⟩, rfl⟩
  | dequeuing =>
    rw [htransmit] at hbalance
    cases hqueue : s.vlcQueue with
    | nil =>
      rw [hqueue] at hbalance
      exact ⟨⟨hbalance, h.below, h.room, h.unrefused⟩, rfl⟩
    | cons fromQueue rest =>
      rw [hqueue, List.length_cons] at hbalance
      refine ⟨⟨?_, h.below, h.room, h.unrefused⟩, rfl⟩
      simp only [TransmitAt.sending] at hbalance ⊢
      push_cast at hbalance ⊢
      omega
  | transmitting vlcPacket =>
    rw [htransmit] at hbalance
    exact ⟨⟨hbalance, h.below, h.room, h.unrefused⟩, rfl⟩
  | discounting =>
    rw [htransmit] at hbalance
    have hbelow := h.below
    refine ⟨⟨?_, ?_, fun hroom => ?_, h.unrefused⟩, rfl⟩
    · simp only [TransmitAt.sending] at hbalance ⊢
      push_cast at hbalance ⊢
      omega
    · change s.queueSize - 1 < queueLimit
      omega
    · have hroom := h.room hroom
      change s.queueSize - 1 + 1 < queueLimit
      omega

/-- **Every step keeps the balance**, and only a report adds to what is reported. -/
theorem transmitterStep_cases {s t : Transmitter} {a : TransmitterAction} (h : SizeInv s)
    (hstep : transmitterStep s a = some t) :
    SizeInv t ∧ match a with
      | .report => t.reported = s.reported ++ [s.queueSize]
      | .main _ | .transmit => t.reported = s.reported := by
  cases a with
  | main buf => exact sizeInv_mainStep h hstep
  | transmit =>
    cases hstep
    exact sizeInv_transmitStep h
  | report =>
    cases hstep
    exact ⟨⟨h.balance, h.below, h.room, h.unrefused⟩, rfl⟩

theorem transmitterStep_reported {s t : Transmitter} {a : TransmitterAction} {P : ℤ → Prop} (h : SizeInv s)
    (hstep : transmitterStep s a = some t) (hold : ∀ v ∈ s.reported, P v) (hnew : a = .report → P s.queueSize) :
    ∀ v ∈ t.reported, P v := by
  obtain ⟨-, hreported⟩ := transmitterStep_cases h hstep
  cases a with
  | main buf | transmit =>
    dsimp only at hreported
    rw [hreported]
    exact hold
  | report =>
    dsimp only at hreported
    rw [hreported]
    intro v hv
    rw [List.mem_append, List.mem_singleton] at hv
    obtain hv | rfl := hv
    · exact hold v hv
    · exact hnew rfl

/-! ## Reports -/

/-- `Enqueue` has refused no packet, every reported value is a queue length, and the counter is right
when both threads are outside their iterations. -/
structure SoundReports (s : Transmitter) : Prop where
  unrefused : s.refused = 0
  reported : ∀ v ∈ s.reported, 0 ≤ v ∧ v < queueLimit
  atRest : s.mainAt = .receiving → s.transmitAt = .polling → s.queueSize = s.vlcQueue.length

/-- A report is not taken while `main` still has to count a packet that `transmit_vlc` has already sent
and discounted. -/
def Timely (s : Transmitter) : TransmitterAction → Prop
  | .report => s.mainAt = .counting → s.vlcQueue = [] → s.transmitAt.sending = 1
  | .main _ | .transmit => True

theorem SizeInv.atRest {s : Transmitter} (h : SizeInv s) (hmain : s.mainAt = .receiving)
    (htransmit : s.transmitAt = .polling) : s.queueSize = s.vlcQueue.length := by
  have hbalance := h.balance
  rw [hmain, htransmit] at hbalance
  simpa [MainAt.uncounted, TransmitAt.sending] using hbalance

/-- The counter is negative exactly when a report would not be timely. -/
theorem SizeInv.timely_iff {s : Transmitter} (h : SizeInv s) : Timely s .report ↔ 0 ≤ s.queueSize := by
  have hbalance := h.balance
  have hone : s.transmitAt.sending ≤ 1 := by cases s.transmitAt <;> simp [TransmitAt.sending]
  unfold Timely
  cases hmain : s.mainAt with
  | counting =>
    rw [hmain] at hbalance
    simp only [MainAt.uncounted] at hbalance
    rw [← List.length_eq_zero_iff]
    simp only [true_imp_iff]
    omega
  | receiving | accepting _ | enqueuing _ =>
    rw [hmain] at hbalance
    simp only [MainAt.uncounted] at hbalance
    refine iff_of_true nofun ?_
    omega

/-- **The reports are sound exactly as long as each one is timely**; that no packet is refused, and that the
counter is right at rest, holds in any case. -/
theorem queueSize_sound_iff (as : List TransmitterAction) (t : Transmitter)
    (hrun : Run transmitterStep initialTransmitter as t) :
    (Always transmitterStep initialTransmitter as SoundReports ↔
      EveryStep transmitterStep initialTransmitter as Timely) ∧
    Always transmitterStep initialTransmitter as fun s => s.refused = 0 ∧
      (∀ v ∈ s.reported, v < queueLimit) ∧
      (s.mainAt = .receiving → s.transmitAt = .polling → s.queueSize = s.vlcQueue.length) := by
  constructor
  · apply always_iff_everyStep (I := fun s => SizeInv s ∧ ∀ v ∈ s.reported, 0 ≤ v ∧ v < queueLimit) hrun
    · exact ⟨sizeInv_initial, nofun⟩
    · intro s h
      exact ⟨h.1.unrefused, h.2, h.1.atRest⟩
    · intro s a u h htimely hstep
      refine ⟨(transmitterStep_cases h.1 hstep).1, transmitterStep_reported h.1 hstep h.2 ?_⟩
      rintro rfl
      exact ⟨h.1.timely_iff.mp htimely, h.1.below⟩
    · intro s a u h hlate hstep hu
      obtain ⟨-, hreported⟩ := transmitterStep_cases h.1 hstep
      cases a with
      | main buf | transmit => exact hlate trivial
      | report =>
        dsimp only at hreported
        apply hlate
        apply h.1.timely_iff.mpr
        refine (hu.reported s.queueSize ?_).1
        rw [hreported]
        exact List.mem_append_right _ (List.mem_singleton_self _)
  · intro bs s _ hs
    have hboth : SizeInv s ∧ ∀ v ∈ s.reported, v < queueLimit := by
      apply hs.invariant (P := fun s => SizeInv s ∧ ∀ v ∈ s.reported, v < queueLimit)
      · exact ⟨sizeInv_initial, nofun⟩
      · intro s a u h hstep
        exact ⟨(transmitterStep_cases h.1 hstep).1, transmitterStep_reported h.1 hstep h.2 fun _ => h.1.below⟩
    exact ⟨hboth.1.unrefused, hboth.2, hboth.1.atRest⟩

/-- A frame from the gateway with an empty packet for node 1. -/
def emptyPacketFrame : List UInt8 :=
  etherHeader vlcMac gatewayEthMac ++ [1, 0, 1, 0, 0, 0, 0, 0, 0, 0]

/-- A packet is accepted, queued and counted, a report is taken, and the packet is sent. -/
theorem queueSize_sound_one_packet :
    let frame := TransmitterAction.main emptyPacketFrame
    let as := [frame, frame, frame, frame, .report, .transmit, .transmit, .transmit, .transmit, .report]
    (Always transmitterStep initialTransmitter as SoundReports ↔
      EveryStep transmitterStep initialTransmitter as Timely) ∧
    Always transmitterStep initialTransmitter as fun s => s.refused = 0 ∧
      (∀ v ∈ s.reported, v < queueLimit) ∧
      (s.mainAt = .receiving → s.transmitAt = .polling → s.queueSize = s.vlcQueue.length) := by
  intro frame as
  obtain ⟨t, ht⟩ : ∃ t, exec transmitterStep initialTransmitter as = some t := ⟨_, rfl⟩
  exact queueSize_sound_iff as t (run_of_exec ht)

/-- The packet is sent before `main` has counted it, and a report is taken then. -/
theorem queueSize_reports_minus_one :
    let frame := TransmitterAction.main emptyPacketFrame
    let as := [frame, frame, frame, .transmit, .transmit, .transmit, .transmit, .report]
    ∃ t, Run transmitterStep initialTransmitter as t ∧ t.reported = [-1] ∧ ¬ SoundReports t := by
  intro frame as
  have hlast : (exec transmitterStep initialTransmitter as).map Transmitter.reported = some [-1] := by
    decide +kernel
  obtain ⟨t, ht, hreported⟩ := Option.map_eq_some_iff.mp hlast
  refine ⟨t, run_of_exec ht, hreported, fun h => ?_⟩
  have hneg := (h.reported (-1) (by rw [hreported]; exact List.mem_singleton_self _)).1
  omega

end CiotVlc.VlcTx
