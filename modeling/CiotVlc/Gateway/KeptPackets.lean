import CiotVlc.Gateway.AllThreads
import CiotVlc.Gateway.RfCounters

/-! # Where scheduled packets are kept

No report ever acknowledges a packet, whatever frames arrive. So a packet that went out over VLC stays in the
table until its time-out, and every scheduled packet is kept in one place until it has been sent over RF, as long
as no queue and no table is full and no send over RF fails.
-/
namespace CiotVlc.Gateway
open Foundations.Runs Foundations.Checked Foundations.LinkedQueue Foundations.SwapRemove
set_option autoImplicit false

/-! ## Nothing is acknowledged -/

namespace VlcPath

def NoneAcked (s : VlcPath) : Prop := ∀ i j, s.pktState i j ≠ .vlcAcked

section
variable {cfg : Config} {s t : VlcPath}

theorem NoneAcked.congr (h : NoneAcked s) (hstate : t.pktState = s.pktState) : NoneAcked t := by
  intro i j
  rw [hstate]
  exact h i j

theorem NoneAcked.update (h : NoneAcked s) {i j : ℕ} {state : PktState} (hne : state ≠ .vlcAcked)
    (hstate : t.pktState = Function.update s.pktState i (Function.update (s.pktState i) j state)) :
    NoneAcked t := by
  intro i' j'
  rw [hstate, Function.update_apply]
  split
  · rw [Function.update_apply]
    split
    · exact hne
    · exact h i j'
  · exact h i' j'

theorem generatePacket_frame (i : ℕ) (payloads : ℕ → Payload) :
    ∃ nodeQueues arrSeq gn serial, s.generatePacket cfg i payloads = { s with nodeQueues, arrSeq, gn, serial } := by
  unfold generatePacket
  split
  · apply List.foldlRecOn (motive := fun t : VlcPath => ∃ nodeQueues arrSeq gn serial,
      t = { s with nodeQueues, arrSeq, gn, serial })
    · exact ⟨_, _, _, _, rfl⟩
    · rintro t ⟨nodeQueues, arrSeq, gn, serial, rfl⟩ payload -
      exact ⟨_, _, _, _, rfl⟩
  · exact ⟨_, _, _, _, rfl⟩

theorem scheduleRf_nil {i : ℕ} (hq : s.nodeQueues i = []) :
    s.scheduleRf cfg i = { s with unschedSeq := Function.update s.unschedSeq i (nextSeq (s.unschedSeq i)) } := by
  rw [scheduleRf]
  simp only [hq]

theorem scheduleRf_cons {i : ℕ} {temp : Parcel} {q : List Parcel} (hq : s.nodeQueues i = temp :: q) :
    ∃ unschedSeq gn, s.scheduleRf cfg i = { s with
      unschedSeq, gn
      nodeQueues := Function.update s.nodeQueues i q
      rfQueue := Fifo.push (capacity cfg.rfQueueSize) s.rfQueue temp
      pktState := Function.update s.pktState i (Function.update (s.pktState i) (s.unschedSeq i).toNat .rf)
      r := s.r + 1 } := by
  rw [scheduleRf]
  simp only [hq]
  exact ⟨_, _, rfl⟩

theorem schedulePacket_nil {i : ℕ} {tx : Fin cfg.nVlc} {now : Timespec} (hq : s.nodeQueues i = []) :
    s.schedulePacket cfg i tx now =
      { s with unschedSeq := Function.update s.unschedSeq i (nextSeq (s.unschedSeq i)) } := by
  rw [schedulePacket]
  simp only [hq]

theorem schedulePacket_cons {i : ℕ} {tx : Fin cfg.nVlc} {now : Timespec} {temp : Parcel} {q : List Parcel}
    (hq : s.nodeQueues i = temp :: q) :
    ∃ unschedSeq gn dVlc expireTime, s.schedulePacket cfg i tx now = { s with
      unschedSeq, gn, dVlc, expireTime
      nodeQueues := Function.update s.nodeQueues i q
      vlcQueue := Fifo.push (capacity cfg.rfQueueSize) s.vlcQueue (temp.toTx tx)
      pktState := Function.update s.pktState i (Function.update (s.pktState i) (s.unschedSeq i).toNat .vlcUnacked)
      unacked :=
        if s.unacked.length + 1 < maxUnackedVlcPacket then s.unacked ++ [temp.toTx tx] else s.unacked } := by
  rw [schedulePacket]
  simp only [hq, addUnacked]
  split
  · exact ⟨_, _, _, _, rfl⟩
  · exact ⟨_, _, _, _, rfl⟩

theorem transmitVlc_frame : ∃ vlcQueue released dVlc, s.transmitVlc = { s with vlcQueue, released, dVlc } := by
  unfold transmitVlc
  split
  · exact ⟨_, _, _, rfl⟩
  · exact ⟨_, _, _, rfl⟩

end

end VlcPath

section
variable {cfg : Config} {s t : GatewaySystem}

theorem check_cases {now : Timespec} (h : s.check cfg now = .ok t) :
    (∃ checkNode checkSeq, t = { s with checkNode, checkSeq }) ∨
      ∃ path, s.checkSeq < s.path.unschedSeq s.checkNode ∧
        s.path.checkPacket cfg now s.checkNode s.checkSeq = .ok path ∧
        t = { s with path, checkSeq := s.checkSeq + 1 } := by
  unfold GatewaySystem.check at h
  split at h
  case isTrue hlt =>
    obtain ⟨path, hpath, h⟩ := bind_eq_ok.mp h
    cases h
    exact Or.inr ⟨path, hlt, hpath, rfl⟩
  case isFalse =>
    cases h
    exact Or.inl ⟨_, _, rfl⟩

theorem noneAcked_step {a : ThreadAction cfg} (h : s.path.NoneAcked) (hstep : gatewayStep cfg s a = some t) :
    t.path.NoneAcked := by
  cases a with
  | generate i payloads =>
    cases hstep
    obtain ⟨_, _, _, _, hpath⟩ := @VlcPath.generatePacket_frame cfg s.path i payloads
    exact h.congr (by rw [hpath])
  | scheduleRf i =>
    cases hstep
    rcases hq : s.path.nodeQueues i with _ | ⟨temp, q⟩
    · exact h.congr (by rw [VlcPath.scheduleRf_nil hq])
    · obtain ⟨_, _, hpath⟩ := @VlcPath.scheduleRf_cons cfg _ _ _ _ hq
      exact h.update (show PktState.rf ≠ .vlcAcked by decide) (by rw [hpath])
  | scheduleVlc i tx now =>
    cases hstep
    rcases hq : s.path.nodeQueues i with _ | ⟨temp, q⟩
    · exact h.congr (by rw [VlcPath.schedulePacket_nil hq])
    · obtain ⟨_, _, _, _, hpath⟩ := @VlcPath.schedulePacket_cons cfg _ _ tx now _ _ hq
      exact h.update (show PktState.vlcUnacked ≠ .vlcAcked by decide) (by rw [hpath])
  | transmitVlc =>
    cases hstep
    obtain ⟨_, _, _, hpath⟩ := @VlcPath.transmitVlc_frame s.path
    exact h.congr (by rw [hpath])
  | report buf =>
    rw [gatewayStep] at hstep
    split at hstep
    · next path hpath =>
      cases hstep
      rcases receiveReport_cases hpath with rfl | ⟨_, _, _, -, -, rfl⟩
      · exact h
      · exact h
    · cases hstep
  | check now =>
    rcases check_cases (toOption_eq_some.mp hstep) with ⟨_, _, rfl⟩ | ⟨path, -, hpath, rfl⟩
    · exact h
    · rcases checkPacket_cases hpath with ⟨-, rfl⟩ | ⟨entry, -, -, rfl⟩
      · exact h
      · exact h.update (show PktState.rf ≠ .vlcAcked by decide) rfl
  | transmitRf =>
    cases hstep
    unfold GatewaySystem.transmitRf
    split
    · exact h
    · split
      · exact h
      · exact h
  | addToken =>
    cases hstep
    unfold GatewaySystem.addToken
    split
    · exact h
    · exact h
  | tbfTransmit sendSucceeds =>
    cases hstep
    unfold GatewaySystem.tbfTransmit
    split
    · exact h
    · split
      · split
        · exact h
        · exact h
      · exact h

end

/-! ## Every packet is taken once -/

/-- A packet that waits in a node queue waits there once, and has not been taken. -/
structure Ticketed (taken : List Parcel) (s : VlcPath) : Prop where
  waiting_lt : ∀ i, ∀ p ∈ s.nodeQueues i, p.serial < s.serial
  taken_lt : ∀ p ∈ taken, p.serial < s.serial
  nodup : ∀ i, ((taken ++ s.nodeQueues i).map Parcel.serial).Nodup
  oneQueue : ∀ i j, ∀ p ∈ s.nodeQueues i, ∀ q ∈ s.nodeQueues j, p.serial = q.serial → i = j

theorem ticketed_initial : Ticketed [] initialVlcPath where
  waiting_lt := fun _ _ hp => absurd hp List.not_mem_nil
  taken_lt := fun _ hp => absurd hp List.not_mem_nil
  nodup := fun _ => List.nodup_nil
  oneQueue := fun _ _ _ hp => absurd hp List.not_mem_nil

section
variable {cfg : Config} {s t : VlcPath} {taken : List Parcel}

theorem Ticketed.congr (h : Ticketed taken s) (hqueues : t.nodeQueues = s.nodeQueues)
    (hserial : t.serial = s.serial) : Ticketed taken t := by
  obtain ⟨hwaiting, htaken, hnodup, hone⟩ := h
  rw [← hserial, ← hqueues] at hwaiting
  rw [← hserial] at htaken
  rw [← hqueues] at hnodup hone
  exact ⟨hwaiting, htaken, hnodup, hone⟩

theorem Ticketed.generateOne (h : Ticketed taken s) (i : ℕ) (payload : Payload) :
    Ticketed taken (s.generateOne cfg i payload) := by
  -- a packet that waits afterwards waited before, or is the new one in queue `i`
  have hmem : ∀ j, ∀ p ∈ (s.generateOne cfg i payload).nodeQueues j,
      p ∈ s.nodeQueues j ∨ j = i ∧ p.serial = s.serial := by
    intro j p hp
    simp only [VlcPath.generateOne, Function.update_apply] at hp
    split at hp
    · next hj =>
      subst hj
      rcases Fifo.mem_of_mem_push hp with hp | rfl
      · exact Or.inl hp
      · exact Or.inr ⟨rfl, rfl⟩
    · exact Or.inl hp
  refine ⟨?_, ?_, ?_, ?_⟩
  · intro j p hp
    rcases hmem j p hp with hp | ⟨-, hp⟩
    · exact Nat.lt_succ_of_lt (h.waiting_lt j p hp)
    · exact hp ▸ Nat.lt_succ_self s.serial
  · exact fun p hp => Nat.lt_succ_of_lt (h.taken_lt p hp)
  · intro j
    simp only [VlcPath.generateOne, Function.update_apply]
    split
    · next hj =>
      subst hj
      unfold Fifo.push
      split
      · rw [← List.append_assoc, List.map_append]
        refine List.nodup_append.mpr ⟨h.nodup j, List.nodup_singleton _, ?_⟩
        intro a ha b hb
        obtain ⟨p, hp, rfl⟩ := List.mem_map.mp ha
        rw [List.mem_singleton.mp hb]
        rcases List.mem_append.mp hp with hp | hp
        · exact (h.taken_lt p hp).ne
        · exact (h.waiting_lt j p hp).ne
      · exact h.nodup j
    · exact h.nodup j
  · intro j k p hp q hq heq
    rcases hmem j p hp with hp | ⟨hj, hp⟩ <;> rcases hmem k q hq with hq | ⟨hk, hq⟩
    · exact h.oneQueue j k p hp q hq heq
    · have := h.waiting_lt j p hp
      omega
    · have := h.waiting_lt k q hq
      omega
    · exact hj.trans hk.symm

theorem Ticketed.generatePacket (h : Ticketed taken s) (i : ℕ) (payloads : ℕ → Payload) :
    Ticketed taken (s.generatePacket cfg i payloads) := by
  unfold VlcPath.generatePacket
  split
  · exact List.foldlRecOn _ _ h fun u hu payload _ => hu.generateOne i payload
  · exact h

/-- The head of a node queue is taken, perhaps under another transmitter. -/
theorem Ticketed.take (h : Ticketed taken s) {i : ℕ} {temp temp' : Parcel} {q : List Parcel}
    (hq : s.nodeQueues i = temp :: q) (hsame : temp'.serial = temp.serial)
    (hqueues : t.nodeQueues = Function.update s.nodeQueues i q) (hserial : t.serial = s.serial) :
    Ticketed (taken ++ [temp']) t := by
  have htemp : temp ∈ s.nodeQueues i := by
    rw [hq]
    exact List.mem_cons_self
  have hmem : ∀ j, ∀ p ∈ t.nodeQueues j, p ∈ s.nodeQueues j := by
    intro j p hp
    rw [hqueues, Function.update_apply] at hp
    split at hp
    · next hj =>
      subst hj
      rw [hq]
      exact List.mem_cons_of_mem _ hp
    · exact hp
  refine ⟨?_, ?_, ?_, ?_⟩
  · intro j p hp
    rw [hserial]
    exact h.waiting_lt j p (hmem j p hp)
  · intro p hp
    rw [hserial]
    rcases List.mem_append.mp hp with hp | hp
    · exact h.taken_lt p hp
    · rw [List.mem_singleton.mp hp, hsame]
      exact h.waiting_lt i temp htemp
  · intro j
    rw [hqueues, Function.update_apply]
    split
    · next hj =>
      -- the same serial numbers in the same order
      subst hj
      have hnodup := h.nodup j
      rw [hq] at hnodup
      simpa [hsame] using hnodup
    · next hj =>
      have hapart : temp.serial ∉ (s.nodeQueues j).map Parcel.serial := by
        intro hin
        obtain ⟨p, hp, heq⟩ := List.mem_map.mp hin
        exact hj (h.oneQueue j i p hp temp htemp heq)
      have hnew : temp.serial ∉ taken.map Parcel.serial := by
        have hnodup := h.nodup i
        rw [hq, List.map_append, List.nodup_append] at hnodup
        exact fun hin => hnodup.2.2 _ hin _ List.mem_cons_self rfl
      have hnodup := h.nodup j
      rw [List.append_assoc, List.map_append, List.singleton_append, List.map_cons, hsame]
      rw [List.map_append] at hnodup
      refine (List.perm_middle.nodup_iff).mpr (List.nodup_cons.mpr ⟨?_, hnodup⟩)
      intro hin
      rcases List.mem_append.mp hin with hin | hin
      · exact hnew hin
      · exact hapart hin
  · exact fun j k p hp r hr => h.oneQueue j k p (hmem j p hp) r (hmem k r hr)

end

/-! ## One place for every packet -/

/-- Every packet that the dispatcher took waits in the table, in `rf_queue` or in `tbf_queue`, or has been sent
over RF: in one of these places, once. -/
structure Kept (s : GatewaySystem) : Prop where
  places : s.scheduled.Perm (s.path.unacked ++ s.path.rfQueue ++ s.tbfQueue ++ s.rfSent)
  once : (s.scheduled.map Parcel.serial).Nodup

structure KeptInv (s : GatewaySystem) : Prop where
  places : s.scheduled.Perm (s.path.unacked ++ s.path.rfQueue ++ s.tbfQueue ++ s.rfSent)
  ticketed : Ticketed s.scheduled s.path
  tbfRoom : (s.tbfQueue.length : ℤ) ≤ s.tbfQueueLength

theorem keptInv_initial : KeptInv initialGateway := ⟨.nil, ticketed_initial, le_rfl⟩

theorem KeptInv.kept {s : GatewaySystem} (h : KeptInv s) : Kept s where
  places := h.places
  once := by
    have hnodup := h.ticketed.nodup 0
    rw [List.map_append] at hnodup
    exact (List.nodup_append.mp hnodup).1

/-- What a step needs so that no packet is lost: room in `rf_queue` and in the table, and a send that succeeds. -/
def KeepsAll (cfg : Config) (s : GatewaySystem) : ThreadAction cfg → Prop
  | .scheduleRf i => s.path.nodeQueues i ≠ [] → s.path.rfQueue.length < capacity cfg.rfQueueSize
  | .scheduleVlc i _ _ => s.path.nodeQueues i ≠ [] → s.path.unacked.length + 1 < maxUnackedVlcPacket
  | .check now => s.checkSeq < s.path.unschedSeq s.checkNode →
      s.path.dueEntry now s.checkNode s.checkSeq ≠ none → s.path.rfQueue.length < capacity cfg.rfQueueSize
  | .tbfTransmit sendSucceeds => s.tbfQueue ≠ [] → s.nToken > 0 → sendSucceeds = true
  | _ => True

section
variable {cfg : Config} {s t : GatewaySystem}

/-- Steps that move nothing. -/
theorem KeptInv.congr (h : KeptInv s) (hscheduled : t.scheduled = s.scheduled)
    (hunacked : t.path.unacked = s.path.unacked) (hrf : t.path.rfQueue = s.path.rfQueue)
    (htbf : t.tbfQueue = s.tbfQueue) (hsent : t.rfSent = s.rfSent) (hlength : t.tbfQueueLength = s.tbfQueueLength)
    (hticketed : Ticketed s.scheduled t.path) : KeptInv t := by
  refine ⟨?_, ?_, ?_⟩
  · rw [hscheduled, hunacked, hrf, htbf, hsent]
    exact h.places
  · rw [hscheduled]
    exact hticketed
  · rw [htbf, hlength]
    exact h.tbfRoom

theorem KeptInv.scheduleRf (h : KeptInv s) {i : Fin cfg.nNode} (hgood : KeepsAll cfg s (.scheduleRf i))
    (hstep : gatewayStep cfg s (.scheduleRf i) = some t) : KeptInv t := by
  cases hstep
  rcases hq : s.path.nodeQueues i with _ | ⟨temp, q⟩
  · simp only [VlcPath.scheduleRf_nil hq, List.take_nil, List.append_nil]
    exact h.congr rfl rfl rfl rfl rfl rfl (h.ticketed.congr rfl rfl)
  · obtain ⟨_, _, hpath⟩ := @VlcPath.scheduleRf_cons cfg _ _ _ _ hq
    have hroom := hgood (by rw [hq]; exact List.cons_ne_nil _ _)
    refine ⟨?_, ?_, h.tbfRoom⟩
    · simp only [hpath, Fifo.push_of_lt temp hroom, List.take_one, List.head?_cons, Option.toList_some]
      rw [List.perm_iff_count]
      intro p
      have hcount := List.perm_iff_count.mp h.places p
      simp only [List.count_append] at hcount ⊢
      omega
    · simp only [hpath, List.take_one, List.head?_cons, Option.toList_some]
      exact h.ticketed.take hq rfl rfl rfl

theorem KeptInv.scheduleVlc (h : KeptInv s) {i : Fin cfg.nNode} {tx : Fin cfg.nVlc} {now : Timespec}
    (hgood : KeepsAll cfg s (.scheduleVlc i tx now)) (hstep : gatewayStep cfg s (.scheduleVlc i tx now) = some t) :
    KeptInv t := by
  cases hstep
  rcases hq : s.path.nodeQueues i with _ | ⟨temp, q⟩
  · simp only [VlcPath.schedulePacket_nil hq, List.take_nil, List.map_nil, List.append_nil]
    exact h.congr rfl rfl rfl rfl rfl rfl (h.ticketed.congr rfl rfl)
  · obtain ⟨_, _, _, _, hpath⟩ := @VlcPath.schedulePacket_cons cfg _ _ tx now _ _ hq
    have hroom := hgood (by rw [hq]; exact List.cons_ne_nil _ _)
    refine ⟨?_, ?_, h.tbfRoom⟩
    · simp only [hpath, if_pos hroom, List.take_one, List.head?_cons, Option.toList_some, List.map_cons, List.map_nil]
      rw [List.perm_iff_count]
      intro p
      have hcount := List.perm_iff_count.mp h.places p
      simp only [List.count_append] at hcount ⊢
      omega
    · simp only [hpath, List.take_one, List.head?_cons, Option.toList_some, List.map_cons, List.map_nil]
      exact h.ticketed.take hq rfl rfl rfl

theorem KeptInv.check (h : KeptInv s) {now : Timespec} (hgood : KeepsAll cfg s (.check now))
    (hstep : gatewayStep cfg s (.check now) = some t) : KeptInv t := by
  rcases check_cases (toOption_eq_some.mp hstep) with ⟨_, _, rfl⟩ | ⟨path, hlt, hpath, rfl⟩
  · exact h.congr rfl rfl rfl rfl rfl rfl h.ticketed
  · rcases checkPacket_cases hpath with ⟨-, rfl⟩ | ⟨entry, hdue, hfind, rfl⟩
    · exact h.congr rfl rfl rfl rfl rfl rfl h.ticketed
    · have hroom := hgood hlt (by rw [hdue]; exact Option.some_ne_none _)
      refine ⟨?_, h.ticketed.congr rfl rfl, h.tbfRoom⟩
      simp only [Fifo.push_of_lt entry hroom]
      rw [List.perm_iff_count]
      intro p
      have hcount := List.perm_iff_count.mp h.places p
      have hmoved := List.perm_iff_count.mp (perm_swapRemove hfind) p
      simp only [List.count_append, List.count_cons, List.count_nil, Nat.zero_add] at hcount hmoved ⊢
      omega

theorem KeptInv.transmitRf (h : KeptInv s) : KeptInv (s.transmitRf cfg) := by
  unfold GatewaySystem.transmitRf
  split
  case h_1 => exact h
  case h_2 temp q hq =>
    split
    case isFalse => exact h
    case isTrue hlt =>
      have hroom : (s.tbfQueue.length : ℤ) < cfg.limit := h.tbfRoom.trans_lt hlt
      refine ⟨?_, h.ticketed.congr rfl rfl, ?_⟩
      · simp only [Fifo.push_of_lt temp (lt_capacity hroom)]
        rw [List.perm_iff_count]
        intro p
        have hcount := List.perm_iff_count.mp h.places p
        simp only [hq, List.count_append, List.count_cons, List.count_nil] at hcount ⊢
        omega
      · simp only [Fifo.push_of_lt temp (lt_capacity hroom), List.length_append, List.length_singleton]
        have := h.tbfRoom
        push_cast
        omega

theorem KeptInv.tbfTransmit (h : KeptInv s) {sendSucceeds : Bool}
    (hgood : KeepsAll cfg s (.tbfTransmit sendSucceeds)) : KeptInv (s.tbfTransmit sendSucceeds) := by
  unfold GatewaySystem.tbfTransmit
  split
  case h_1 => exact h
  case h_2 temp q hq =>
    split
    case isFalse => exact h
    case isTrue htoken =>
      rw [if_pos (hgood (by rw [hq]; exact List.cons_ne_nil _ _) htoken)]
      refine ⟨?_, h.ticketed, ?_⟩
      · rw [List.perm_iff_count]
        intro p
        have hcount := List.perm_iff_count.mp h.places p
        simp only [hq, List.count_append, List.count_cons, List.count_nil] at hcount ⊢
        omega
      · have hroom := h.tbfRoom
        rw [hq, List.length_cons] at hroom
        push_cast at hroom
        simp only
        omega

/-- Every good step keeps the invariant. -/
theorem KeptInv.step {a : ThreadAction cfg} (h : KeptInv s) (hgood : KeepsAll cfg s a)
    (hstep : gatewayStep cfg s a = some t) : KeptInv t := by
  cases a with
  | generate i payloads =>
    cases hstep
    obtain ⟨_, _, _, _, hpath⟩ := @VlcPath.generatePacket_frame cfg s.path i payloads
    refine h.congr rfl ?_ ?_ rfl rfl rfl (h.ticketed.generatePacket i payloads)
    · simp only [hpath]
    · simp only [hpath]
  | scheduleRf i => exact h.scheduleRf hgood hstep
  | scheduleVlc i tx now => exact h.scheduleVlc hgood hstep
  | transmitVlc =>
    cases hstep
    obtain ⟨_, _, _, hpath⟩ := @VlcPath.transmitVlc_frame s.path
    simp only [hpath]
    exact h.congr rfl rfl rfl rfl rfl rfl (h.ticketed.congr rfl rfl)
  | report buf =>
    rw [gatewayStep] at hstep
    split at hstep
    case h_2 => cases hstep
    case h_1 path hpath =>
      cases hstep
      rcases receiveReport_cases hpath with rfl | ⟨_, _, _, -, -, rfl⟩
      · exact h
      · exact h.congr rfl rfl rfl rfl rfl rfl (h.ticketed.congr rfl rfl)
  | check now => exact h.check hgood hstep
  | transmitRf =>
    cases hstep
    exact h.transmitRf
  | addToken =>
    cases hstep
    unfold GatewaySystem.addToken
    split
    · exact h.congr rfl rfl rfl rfl rfl rfl h.ticketed
    · exact h
  | tbfTransmit sendSucceeds =>
    cases hstep
    exact h.tbfTransmit hgood

/-! ## A bad step loses a packet -/

theorem Kept.length (h : Kept s) : s.scheduled.length =
    s.path.unacked.length + s.path.rfQueue.length + s.tbfQueue.length + s.rfSent.length := by
  have hlen := h.places.length_eq
  simp only [List.length_append] at hlen
  omega

theorem bad_step_loses {a : ThreadAction cfg} (h : KeptInv s) (hbad : ¬ KeepsAll cfg s a)
    (hstep : gatewayStep cfg s a = some t) : ¬ Kept t := by
  intro hkept
  have hafter := hkept.length
  have hbefore := h.kept.length
  cases a with
  | generate i payloads => exact hbad trivial
  | transmitVlc => exact hbad trivial
  | report buf => exact hbad trivial
  | transmitRf => exact hbad trivial
  | addToken => exact hbad trivial
  | scheduleRf i =>
    simp only [KeepsAll, Classical.not_imp] at hbad
    obtain ⟨hne, hfull⟩ := hbad
    obtain ⟨temp, q, hq⟩ := List.exists_cons_of_ne_nil hne
    obtain ⟨_, _, hpath⟩ := @VlcPath.scheduleRf_cons cfg _ _ _ _ hq
    cases hstep
    simp only [hpath, Fifo.push, if_neg hfull, hq, List.take_one, List.head?_cons, Option.toList_some,
      List.length_append, List.length_singleton] at hafter
    omega
  | scheduleVlc i tx now =>
    simp only [KeepsAll, Classical.not_imp] at hbad
    obtain ⟨hne, hfull⟩ := hbad
    obtain ⟨temp, q, hq⟩ := List.exists_cons_of_ne_nil hne
    obtain ⟨_, _, _, _, hpath⟩ := @VlcPath.schedulePacket_cons cfg _ _ tx now _ _ hq
    cases hstep
    simp only [hpath, if_neg hfull, hq, List.take_one, List.head?_cons, Option.toList_some, List.map_cons,
      List.map_nil, List.length_append, List.length_singleton] at hafter
    omega
  | check now =>
    simp only [KeepsAll, Classical.not_imp] at hbad
    obtain ⟨hlt, hdue, hfull⟩ := hbad
    have hcheck := toOption_eq_some.mp hstep
    rw [GatewaySystem.check, if_pos hlt] at hcheck
    obtain ⟨path, hpath, hcheck⟩ := bind_eq_ok.mp hcheck
    cases hcheck
    rcases checkPacket_cases hpath with ⟨hnone, -⟩ | ⟨entry, -, hfind, rfl⟩
    · exact hdue hnone
    · have hmoved := (perm_swapRemove hfind).length_eq
      rw [List.length_cons] at hmoved
      simp only [Fifo.push, if_neg hfull] at hafter
      omega
  | tbfTransmit sendSucceeds =>
    simp only [KeepsAll, Classical.not_imp] at hbad
    obtain ⟨hne, htoken, hfail⟩ := hbad
    obtain ⟨temp, q, hq⟩ := List.exists_cons_of_ne_nil hne
    cases hstep
    rw [hq, List.length_cons] at hbefore
    simp only [GatewaySystem.tbfTransmit, hq, if_pos htoken, if_neg hfail] at hafter
    omega

end

/-- **What reports do to the gateway.** Along any run of its threads, with any frames arriving, no packet is ever
acknowledged, and every packet that the dispatcher took stays in one place until it has been sent over RF, exactly
as long as each step finds room for it and each send succeeds. -/
theorem kept_until_sent_iff (cfg : Config) (as : List (ThreadAction cfg)) (t : GatewaySystem)
    (hrun : Run (gatewayStep cfg) initialGateway as t) :
    t.path.NoneAcked ∧
      (Always (gatewayStep cfg) initialGateway as Kept ↔
        EveryStep (gatewayStep cfg) initialGateway as (KeepsAll cfg)) := by
  constructor
  · apply hrun.invariant (P := fun s => s.path.NoneAcked)
    · intro i j
      exact nofun
    · exact fun u a v hu hstep => noneAcked_step hu hstep
  · exact always_iff_everyStep (I := KeptInv) hrun keptInv_initial (fun _ h => h.kept)
      (fun _ _ _ h hgood hstep => h.step hgood hstep) fun _ _ _ h hbad hstep => bad_step_loses h hbad hstep

def zeroPayload : Payload := ⟨List.replicate 74 0, rfl⟩

/-- A packet that is sent over VLC, is due after its time-out, and is sent again over RF. -/
def sentTwice : List (ThreadAction shipped) :=
  [.generate ⟨0, Nat.one_pos⟩ fun _ => zeroPayload, .scheduleVlc ⟨0, Nat.one_pos⟩ ⟨0, Nat.one_pos⟩ ⟨0, 0⟩, .transmitVlc,
    .check ⟨9, 0⟩, .transmitRf, .addToken, .tbfTransmit true]

theorem kept_until_sent_iff_sent_twice :
    ∃ t, Run (gatewayStep shipped) initialGateway sentTwice t ∧ t.vlcSent.map Parcel.serial = [0] ∧
      t.rfSent.map Parcel.serial = [0] ∧ t.path.NoneAcked ∧
      (Always (gatewayStep shipped) initialGateway sentTwice Kept ↔
        EveryStep (gatewayStep shipped) initialGateway sentTwice (KeepsAll shipped)) := by
  obtain ⟨t, ht⟩ : ∃ t, exec (gatewayStep shipped) initialGateway sentTwice = some t := ⟨_, rfl⟩
  have hsent : (exec (gatewayStep shipped) initialGateway sentTwice).map
      (fun s => (s.vlcSent.map Parcel.serial, s.rfSent.map Parcel.serial)) = some ([0], [0]) := rfl
  rw [ht, Option.map_some, Option.some.injEq, Prod.mk.injEq] at hsent
  exact ⟨t, run_of_exec ht, hsent.1, hsent.2, kept_until_sent_iff shipped sentTwice t (run_of_exec ht)⟩

end CiotVlc.Gateway
