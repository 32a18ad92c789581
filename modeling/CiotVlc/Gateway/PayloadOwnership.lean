import CiotVlc.Foundations.Runs
import CiotVlc.Gateway.VlcPath

/-! # Who owns the payload of a kept packet

The table of unacknowledged packets and `rf_queue` hold copies of the packet structure, which share the
payload with the packet in `vlc_queue`, and `transmit_vlc` frees it. A kept packet loses its payload
exactly when its own transmission finds it still in the table or in `rf_queue`.
-/
namespace CiotVlc.Gateway
open Foundations.Runs Foundations.Checked Foundations.LinkedQueue Foundations.SwapRemove CiotVlc.Report
set_option autoImplicit false

inductive VlcAction (cfg : Config)
  | generate (i : Fin cfg.nNode) (payloads : ℕ → Payload)
  | schedule (i : Fin cfg.nNode) (tx : Fin cfg.nVlc) (now : Timespec)
  | transmit
  | report (buf : List UInt8)
  | check (now : Timespec)

/-- A step that faults has no successor. -/
def vlcPathStep (cfg : Config) (s : VlcPath) : VlcAction cfg → Option VlcPath
  | .generate i payloads => some (s.generatePacket cfg i payloads)
  | .schedule i tx now => some (s.schedulePacket cfg i tx now)
  | .transmit => some s.transmitVlc
  | .report buf => (s.receiveReport cfg buf).toOption
  | .check now => (s.checkUnacked cfg now).toOption

namespace VlcPath

/-- The packets kept for retransmission, or queued for it. -/
def kept (s : VlcPath) : List Parcel := s.unacked ++ s.rfQueue

/-- The payloads that have left their node queue. -/
def departed (s : VlcPath) : List ℕ := s.vlcQueue.map Parcel.serial ++ s.released

/-- No kept packet refers to a released payload. -/
def NoDangling (s : VlcPath) : Prop := ∀ p ∈ s.kept, p.serial ∉ s.released

/-- A payload that waits in a node queue waits there once and nowhere else. -/
structure Owned (s : VlcPath) : Prop where
  waiting_lt : ∀ i, ∀ p ∈ s.nodeQueues i, p.serial < s.serial
  departed_lt : ∀ n ∈ s.departed, n < s.serial
  apart : ∀ i, ∀ p ∈ s.nodeQueues i, p.serial ∉ s.departed
  oneQueue : ∀ i j, ∀ p ∈ s.nodeQueues i, ∀ q ∈ s.nodeQueues j, p.serial = q.serial → i = j
  nodup : ∀ i, ((s.nodeQueues i).map Parcel.serial).Nodup
  noDangling : s.NoDangling

theorem owned_initial : Owned initialVlcPath where
  waiting_lt := fun _ _ hp => absurd hp List.not_mem_nil
  departed_lt := fun _ hn => absurd hn List.not_mem_nil
  apart := fun _ _ hp => absurd hp List.not_mem_nil
  oneQueue := fun _ _ _ hp => absurd hp List.not_mem_nil
  nodup := fun _ => List.nodup_nil
  noDangling := fun _ hp => absurd hp List.not_mem_nil

section
variable {cfg : Config} {s t u : VlcPath}

/-! ## Reports and timeouts only move or drop kept packets -/

structure Retains (s t : VlcPath) : Prop where
  nodeQueues : t.nodeQueues = s.nodeQueues
  vlcQueue : t.vlcQueue = s.vlcQueue
  serial : t.serial = s.serial
  released : t.released = s.released
  kept : ∀ p ∈ t.kept, p ∈ s.kept

theorem Retains.refl (s : VlcPath) : Retains s s := ⟨rfl, rfl, rfl, rfl, fun _ hp => hp⟩

theorem Retains.trans (h : Retains s t) (h' : Retains t u) : Retains s u where
  nodeQueues := h'.nodeQueues.trans h.nodeQueues
  vlcQueue := h'.vlcQueue.trans h.vlcQueue
  serial := h'.serial.trans h.serial
  released := h'.released.trans h.released
  kept := fun p hp => h.kept p (h'.kept p hp)

theorem Retains.foldlM {α : Type} {f : VlcPath → α → Except Fault VlcPath} {xs : List α}
    (h : xs.foldlM f s = .ok t) (step : ∀ u x v, f u x = .ok v → Retains u v) : Retains s t :=
  foldlM_invariant (I := Retains s) h (.refl s) fun u x _ v hu hv => hu.trans (step u x v hv)

theorem Owned.of_retains (h : Owned s) (ht : Retains s t) : Owned t := by
  have hdeparted : t.departed = s.departed := by rw [departed, ht.vlcQueue, ht.released, departed]
  refine ⟨?_, ?_, ?_, ?_, ?_, fun p hp => ?_⟩
  · rw [ht.nodeQueues, ht.serial]
    exact h.waiting_lt
  · rw [hdeparted, ht.serial]
    exact h.departed_lt
  · rw [ht.nodeQueues, hdeparted]
    exact h.apart
  · rw [ht.nodeQueues]
    exact h.oneQueue
  · rw [ht.nodeQueues]
    exact h.nodup
  · rw [ht.released]
    exact h.noDangling p (ht.kept p hp)

theorem retains_applyAckBit {node i : ℕ} {pattern : List UInt8} (h : applyAckBit node pattern s i = .ok t) :
    Retains s t := by
  simp only [applyAckBit] at h
  split at h
  case isFalse =>
    cases h
    exact .refl s
  case isTrue =>
    obtain ⟨state, _, h⟩ := bind_eq_ok.mp h
    split at h
    case isFalse =>
      cases h
      exact .refl s
    case isTrue =>
      obtain ⟨bit, _, h⟩ := bind_eq_ok.mp h
      split at h
      case isFalse =>
        cases h
        exact .refl s
      case isTrue =>
        obtain ⟨row, _, h⟩ := bind_eq_ok.mp h
        cases h
        refine ⟨rfl, rfl, rfl, rfl, fun p hp => ?_⟩
        rcases List.mem_append.mp hp with hp | hp
        · exact List.mem_append_left _ (mem_of_mem_swapRemove hp)
        · exact List.mem_append_right _ hp

theorem retains_receiveReport {buf : List UInt8} (h : s.receiveReport cfg buf = .ok t) : Retains s t := by
  simp only [receiveReport] at h
  split at h
  case isFalse =>
    cases h
    exact .refl s
  case isTrue =>
    obtain ⟨⟨report, idx⟩, _, h⟩ := bind_eq_ok.mp h
    simp only at h
    split at h
    case isFalse =>
      cases h
      exact .refl s
    case isTrue =>
      obtain ⟨s', hbits, h⟩ := bind_eq_ok.mp h
      obtain ⟨e, _, h⟩ := bind_eq_ok.mp h
      cases h
      have hseq : Retains s { s with
          unackedSeq := Function.update s.unackedSeq (report.nodeId - 1).toNat report.ackNumber } :=
        ⟨rfl, rfl, rfl, rfl, fun _ hp => hp⟩
      have hbits' := Retains.foldlM hbits fun _ _ _ => retains_applyAckBit
      exact (hseq.trans hbits').trans ⟨rfl, rfl, rfl, rfl, fun _ hp => hp⟩

theorem retains_checkPacket {now : Timespec} {i : ℕ} {j : ℤ} (h : checkPacket cfg now i s j = .ok t) :
    Retains s t := by
  simp only [checkPacket] at h
  obtain ⟨expire, _, h⟩ := bind_eq_ok.mp h
  obtain ⟨state, _, h⟩ := bind_eq_ok.mp h
  split at h
  case isFalse =>
    cases h
    exact .refl s
  case isTrue =>
    split at h
    case h_2 =>
      cases h
      exact .refl s
    case h_1 entry hfind =>
      obtain ⟨row, _, h⟩ := bind_eq_ok.mp h
      cases h
      refine ⟨rfl, rfl, rfl, rfl, fun p hp => ?_⟩
      rcases List.mem_append.mp hp with hp | hp
      · exact List.mem_append_left _ (mem_of_mem_swapRemove hp)
      · rcases Fifo.mem_of_mem_push hp with hp | rfl
        · exact List.mem_append_right _ hp
        · exact List.mem_append_left _ (List.mem_of_find?_eq_some hfind)

theorem retains_checkUnacked {now : Timespec} (h : s.checkUnacked cfg now = .ok t) : Retains s t :=
  Retains.foldlM h fun _ _ _ hnode => Retains.foldlM hnode fun _ _ _ => retains_checkPacket

/-! ## Generating, scheduling and transmitting -/

theorem Owned.generateOne (h : Owned s) (i : ℕ) (payload : Payload) : Owned (s.generateOne cfg i payload) := by
  -- a packet that waits afterwards waited before, or is the new one in queue `i`
  have hmem : ∀ j, ∀ p ∈ (s.generateOne cfg i payload).nodeQueues j,
      p ∈ s.nodeQueues j ∨ j = i ∧ p.serial = s.serial := by
    intro j p hp
    simp only [VlcPath.generateOne, Function.update_apply] at hp
    split at hp
    · next hj =>
      subst hj
      rcases Fifo.mem_of_mem_push hp with hp | rfl
      · exact Or.inl hp
      · exact Or.inr ⟨rfl, rfl⟩
    · exact Or.inl hp
  refine ⟨fun j p hp => ?_, fun n hn => Nat.lt_succ_of_lt (h.departed_lt n hn), fun j p hp => ?_,
    fun j k p hp q hq heq => ?_, fun j => ?_, h.noDangling⟩
  · rcases hmem j p hp with hp | ⟨_, hp⟩
    · exact Nat.lt_succ_of_lt (h.waiting_lt j p hp)
    · exact hp ▸ Nat.lt_succ_self s.serial
  · rcases hmem j p hp with hp | ⟨_, hp⟩
    · exact h.apart j p hp
    · exact fun hn => absurd (h.departed_lt _ hn) (by omega)
  · rcases hmem j p hp with hp | ⟨hj, hp⟩ <;> rcases hmem k q hq with hq | ⟨hk, hq⟩
    · exact h.oneQueue j k p hp q hq heq
    · have := h.waiting_lt j p hp
      omega
    · have := h.waiting_lt k q hq
      omega
    · exact hj.trans hk.symm
  · simp only [VlcPath.generateOne, Function.update_apply]
    split
    · next hj =>
      subst hj
      unfold Fifo.push
      split
      · rw [List.map_append]
        refine List.nodup_append.mpr ⟨h.nodup j, List.nodup_singleton _, fun a ha b hb => ?_⟩
        obtain ⟨p, hp, rfl⟩ := List.mem_map.mp ha
        rw [List.mem_singleton.mp hb]
        exact (h.waiting_lt j p hp).ne
      · exact h.nodup j
    · exact h.nodup j

theorem Owned.generatePacket (h : Owned s) (i : ℕ) (payloads : ℕ → Payload) :
    Owned (s.generatePacket cfg i payloads) := by
  unfold VlcPath.generatePacket
  split
  · exact List.foldlRecOn _ _ h fun u hu payload _ => hu.generateOne i payload
  · exact h

theorem Owned.depart (h : Owned s) {i : ℕ} {temp : Parcel} {q : List Parcel} (hq : s.nodeQueues i = temp :: q)
    (hqueues : t.nodeQueues = Function.update s.nodeQueues i q) (hserial : t.serial = s.serial)
    (hreleased : t.released = s.released)
    (hdeparted : ∀ n ∈ t.departed, n ∈ s.departed ∨ n = temp.serial)
    (hkept : ∀ p ∈ t.kept, p ∈ s.kept ∨ p.serial = temp.serial) : Owned t := by
  have htemp : temp ∈ s.nodeQueues i := by
    rw [hq]
    exact List.mem_cons_self
  have hnodup := h.nodup i
  rw [hq, List.map_cons, List.nodup_cons] at hnodup
  have hmem : ∀ j, ∀ p ∈ t.nodeQueues j, p ∈ s.nodeQueues j := by
    intro j p hp
    rw [hqueues, Function.update_apply] at hp
    split at hp
    · next hj =>
      subst hj
      rw [hq]
      exact List.mem_cons_of_mem _ hp
    · exact hp
  -- another waiting packet has another payload
  have hne : ∀ j, ∀ p ∈ t.nodeQueues j, p.serial ≠ temp.serial := by
    intro j p hp heq
    have hj : j = i := h.oneQueue j i p (hmem j p hp) temp htemp heq
    subst hj
    rw [hqueues, Function.update_self] at hp
    exact hnodup.1 (List.mem_map.mpr ⟨p, hp, heq⟩)
  refine ⟨fun j p hp => ?_, fun n hn => ?_, fun j p hp hn => ?_, fun j k p hp r hr => ?_, fun j => ?_,
    fun p hp => ?_⟩
  · rw [hserial]
    exact h.waiting_lt j p (hmem j p hp)
  · rw [hserial]
    rcases hdeparted n hn with hn | rfl
    · exact h.departed_lt n hn
    · exact h.waiting_lt i temp htemp
  · rcases hdeparted _ hn with hn | heq
    · exact h.apart j p (hmem j p hp) hn
    · exact hne j p hp heq
  · exact h.oneQueue j k p (hmem j p hp) r (hmem k r hr)
  · rw [hqueues, Function.update_apply]
    split
    · exact hnodup.2
    · exact h.nodup j
  · rw [hreleased]
    rcases hkept p hp with hp | heq
    · exact h.noDangling p hp
    · rw [heq]
      exact fun hn => h.apart i temp htemp (List.mem_append_right _ hn)

theorem Owned.schedulePacket (h : Owned s) (i : ℕ) (tx : Fin cfg.nVlc) (now : Timespec) :
    Owned (s.schedulePacket cfg i tx now) := by
  unfold VlcPath.schedulePacket
  split
  case h_1 hq => exact ⟨h.waiting_lt, h.departed_lt, h.apart, h.oneQueue, h.nodup, h.noDangling⟩
  case h_2 temp q hq =>
    simp only [addUnacked]
    split
    all_goals
      refine h.depart hq rfl rfl rfl (fun n hn => ?_) fun p hp => ?_
      · rcases List.mem_append.mp hn with hn | hn
        · obtain ⟨p, hp, rfl⟩ := List.mem_map.mp hn
          rcases Fifo.mem_of_mem_push hp with hp | rfl
          · exact Or.inl (List.mem_append_left _ (List.mem_map_of_mem hp))
          · exact Or.inr rfl
        · exact Or.inl (List.mem_append_right _ hn)
    case isTrue =>
      simp only [kept, List.mem_append, List.mem_singleton] at hp
      rcases hp with (hp | rfl) | hp
      · exact Or.inl (List.mem_append_left _ hp)
      · exact Or.inr rfl
      · exact Or.inl (List.mem_append_right _ hp)
    case isFalse => exact Or.inl hp

/-- The packet that `transmit_vlc` takes is not kept any more, under any of its copies. -/
def ReleasesUnshared (s : VlcPath) : VlcAction cfg → Prop
  | .transmit => ∀ temp q, s.vlcQueue = temp :: q → ∀ p ∈ s.kept, p.serial ≠ temp.serial
  | _ => True

theorem Owned.transmitVlc (h : Owned s) (hgood : ReleasesUnshared s (.transmit : VlcAction cfg)) :
    Owned s.transmitVlc := by
  unfold VlcPath.transmitVlc
  split
  case h_1 => exact h
  case h_2 temp q hq =>
    have hdeparted : ∀ n ∈ q.map Parcel.serial ++ (s.released ++ [temp.serial]), n ∈ s.departed := by
      intro n hn
      rw [departed, hq]
      simp only [List.mem_append, List.map_cons, List.mem_cons, List.not_mem_nil, or_false] at hn ⊢
      tauto
    refine ⟨h.waiting_lt, fun n hn => h.departed_lt n (hdeparted n hn),
      fun i p hp hn => h.apart i p hp (hdeparted _ hn), h.oneQueue, h.nodup, fun p hp hn => ?_⟩
    rcases List.mem_append.mp hn with hn | hn
    · exact h.noDangling p hp hn
    · exact hgood temp q hq p hp (List.mem_singleton.mp hn)

/-- Every step but a transmission of a kept packet keeps the invariant. -/
theorem Owned.step {a : VlcAction cfg} (h : Owned s) (hgood : ReleasesUnshared s a)
    (hstep : vlcPathStep cfg s a = some t) : Owned t := by
  cases a with
  | generate i payloads =>
    cases hstep
    exact h.generatePacket i payloads
  | schedule i tx now =>
    cases hstep
    exact h.schedulePacket i tx now
  | transmit =>
    cases hstep
    exact h.transmitVlc hgood
  | report buf => exact h.of_retains (retains_receiveReport (toOption_eq_some.mp hstep))
  | check now => exact h.of_retains (retains_checkUnacked (toOption_eq_some.mp hstep))

/-- The transmission of a kept packet releases a payload that is still referred to. -/
theorem transmit_kept_dangles {a : VlcAction cfg} (hbad : ¬ ReleasesUnshared s a)
    (hstep : vlcPathStep cfg s a = some t) : ¬ t.NoDangling := by
  cases a with
  | generate i payloads => exact absurd trivial hbad
  | schedule i tx now => exact absurd trivial hbad
  | report buf => exact absurd trivial hbad
  | check now => exact absurd trivial hbad
  | transmit =>
    simp only [ReleasesUnshared, not_forall, not_not] at hbad
    obtain ⟨temp, q, hq, p, hp, heq⟩ := hbad
    cases hstep
    intro h
    simp only [VlcPath.transmitVlc, hq] at h
    exact h p hp (by simp [heq])

end

end VlcPath

open VlcPath

/-- A packet that is sent over VLC, and again over RF after its timeout. -/
def resentRun : List (VlcAction shipped) :=
  [.generate ⟨0, by decide⟩ fun _ => ⟨List.replicate payloadSize 0, List.length_replicate⟩,
    .schedule ⟨0, by decide⟩ ⟨0, by decide⟩ ⟨0, 0⟩, .transmit, .check ⟨9, 0⟩]

/-- The packet that is resent refers to a released payload. -/
theorem resent_payload_released :
    ∃ t, Run (vlcPathStep shipped) initialVlcPath resentRun t ∧
      (∃ p ∈ t.rfQueue, p.serial ∈ t.released) ∧ ¬ t.NoDangling := by
  obtain ⟨t, ht⟩ : ∃ t, exec (vlcPathStep shipped) initialVlcPath resentRun = some t := ⟨_, rfl⟩
  have hplaces : (exec (vlcPathStep shipped) initialVlcPath resentRun).map
      (fun s => (s.rfQueue.map Parcel.serial, s.released)) = some ([0], [0]) := rfl
  rw [ht, Option.map_some, Option.some.injEq, Prod.mk.injEq] at hplaces
  obtain ⟨hqueue, hreleased⟩ := hplaces
  obtain ⟨p, hp, hserial⟩ := List.mem_map.mp (hqueue ▸ List.mem_singleton_self 0 : 0 ∈ t.rfQueue.map Parcel.serial)
  have hdangling : p.serial ∈ t.released := by simp [hserial, hreleased]
  exact ⟨t, run_of_exec ht, ⟨p, hp, hdangling⟩, fun h => h p (List.mem_append_right _ hp) hdangling⟩

/-- **When kept packets own their payload.** All along a run of the threads no kept packet refers to a
released payload, exactly when no transmitted packet is still in the table or in `rf_queue`. -/
theorem noDangling_iff (cfg : Config) (as : List (VlcAction cfg)) (t : VlcPath)
    (hrun : Run (vlcPathStep cfg) initialVlcPath as t) :
    Always (vlcPathStep cfg) initialVlcPath as NoDangling ↔
      EveryStep (vlcPathStep cfg) initialVlcPath as ReleasesUnshared :=
  always_iff_everyStep (I := Owned) hrun owned_initial (fun _ h => h.noDangling)
    (fun _ _ _ h hgood hstep => h.step hgood hstep) (fun _ _ _ _ hbad hstep => transmit_kept_dangles hbad hstep)

/-- The packet that is resent. -/
theorem noDangling_iff_resent :
    Always (vlcPathStep shipped) initialVlcPath resentRun NoDangling ↔
      EveryStep (vlcPathStep shipped) initialVlcPath resentRun ReleasesUnshared := by
  obtain ⟨t, ht⟩ : ∃ t, exec (vlcPathStep shipped) initialVlcPath resentRun = some t := ⟨_, rfl⟩
  exact noDangling_iff shipped _ t (run_of_exec ht)

end CiotVlc.Gateway
