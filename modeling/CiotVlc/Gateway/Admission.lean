import CiotVlc.Gateway.RfCounters

/-! # Admission to the bounded queues

`generate_packet` and `transmit_rf` push without looking at the result. The five threads of the RF path
run here among the rest of the gateway: `schedule` may answer any mode, and `check_unacked` and
`receive_report` may leave anything in what they write. None of that touches a queue that a push is
admitted to, nor its counter.
-/
namespace CiotVlc.Gateway
open Foundations.Runs Foundations.LinkedQueue
set_option autoImplicit false

/-- A step of the RF path; the dispatcher in one of its other two modes; or the other threads. -/
inductive AdmissionAction
  | path (a : RfAction)
  | idle
  | vlc
  | others (rfQueue : List Parcel) (r : ℤ) (pktState : ℕ → ℕ → PktState)

def admissionStep (cfg : Config) (s : RfSystem) : AdmissionAction → Option RfSystem
  | .path a => rfPathStep cfg s a
  -- `IDLE_MODE`: on to the next node, without a pop
  | .idle =>
    match s.sched with
    | .pop i => if i < cfg.nNode then some { s with sched := .pop (nextNode cfg i) } else none
    | _ => none
  -- VLC mode: the packet goes to `vlc_queue` and to the table, and `rf_queue` and `r` stay
  | .vlc =>
    match s.sched with
    | .push i idx _ =>
      some { s with
        sched := .pop (nextNode cfg i)
        pktState := Function.update s.pktState i (Function.update (s.pktState i) idx.toNat .vlcUnacked) }
    | _ => none
  | .others rfQueue r pktState => some { s with rfQueue, r, pktState }

/-- Both admissions, and what the counters they look at are off by. -/
structure Admitting (cfg : Config) (s : RfSystem) : Prop where
  node : NodeRoom cfg s
  tbf : ∃ lost, LengthDrift cfg s lost

section
variable {cfg : Config} {s t : RfSystem}

theorem admitting_initial (cfg : Config) : Admitting cfg initialRf :=
  ⟨nodeRoom_initial cfg, 0, lengthDrift_initial cfg⟩

/-- Outside `gn` and the node queues it matters only which packet the dispatcher has yet to count. -/
theorem Admitting.congr (h : Admitting cfg s) (hgen : t.gen = s.gen)
    (hsched : t.sched.pending = s.sched.pending) (hgn : t.gn = s.gn) (hnodes : t.nodeQueues = s.nodeQueues)
    (hlength : t.tbfQueueLength = s.tbfQueueLength) (hqueue : t.tbfQueue = s.tbfQueue) (hrf : t.rf = s.rf)
    (htbf : t.tbf = s.tbf) : Admitting cfg t := by
  obtain ⟨⟨hcount, hroom⟩, lost, hdrift⟩ := h
  refine ⟨⟨fun i => ?_, ?_⟩, lost, hdrift.congr hlength hqueue hrf (congrArg TbfPc.pending htbf)⟩
  · rw [hgn, hnodes, hsched, hgen]
    exact hcount i
  · rw [hgen, hnodes]
    exact hroom

theorem Admitting.step {a : AdmissionAction} (h : Admitting cfg s) (hstep : admissionStep cfg s a = some t) :
    Admitting cfg t := by
  cases a with
  | path a =>
    obtain ⟨lost, hdrift⟩ := h.tbf
    exact ⟨h.node.step hstep, _, hdrift.step hstep⟩
  | idle =>
    simp only [admissionStep] at hstep
    split at hstep
    case h_1 i hpc =>
      split at hstep
      case isTrue =>
        cases hstep
        refine h.congr rfl ?_ rfl rfl rfl rfl rfl rfl
        rw [hpc]
        rfl
      case isFalse => cases hstep
    case h_2 => cases hstep
  | vlc =>
    simp only [admissionStep] at hstep
    split at hstep
    case h_1 i idx temp hpc =>
      cases hstep
      refine h.congr rfl ?_ rfl rfl rfl rfl rfl rfl
      rw [hpc]
      rfl
    case h_2 => cases hstep
  | others rfQueue r pktState =>
    cases hstep
    exact h.congr rfl rfl rfl rfl rfl rfl rfl rfl

theorem lt_limit_of_lt_capacity {limit : ℤ} {n : ℕ} (h : n < capacity limit) :
    (n : ℤ) < (constructQueue limit).limit := by
  unfold capacity at h
  omega

end

/-- **No push is refused.** Whenever `generate_packet` is about to push, the queue of its node is below
its limit, and whenever `transmit_rf` is, `tbf_queue` is. -/
theorem pushes_find_room (cfg : Config) (as : List AdmissionAction) (t : RfSystem)
    (hrun : Run (admissionStep cfg) initialRf as t) :
    (∀ i j pN, t.gen = .push i j pN →
        ((t.nodeQueues i).length : ℤ) < (constructQueue cfg.nodeQueueSize).limit) ∧
      ∀ temp, t.rf = .push temp → (t.tbfQueue.length : ℤ) < (constructQueue cfg.limit).limit := by
  have h : Admitting cfg t := hrun.invariant (admitting_initial cfg) fun _ _ _ hu hs => hu.step hs
  obtain ⟨hnode, lost, hdrift⟩ := h
  exact ⟨fun i j pN hpc => lt_limit_of_lt_capacity (hnode.below_limit hpc),
    fun temp hpc => lt_limit_of_lt_capacity (hdrift.below_limit hpc)⟩

/-- A packet on its way to `transmit_rf`, after a round of the dispatcher in `IDLE_MODE`. -/
theorem pushes_find_room_one_parcel :
    ∃ t temp, Run (admissionStep shipped) initialRf
        (.idle :: ((oneParcelRun true).take 13).map .path) t ∧
      t.rf = .push temp ∧ (t.tbfQueue.length : ℤ) < (constructQueue shipped.limit).limit := by
  obtain ⟨t, ht⟩ : ∃ t, exec (admissionStep shipped) initialRf
    (.idle :: ((oneParcelRun true).take 13).map .path) = some t := ⟨_, rfl⟩
  have hpc : (exec (admissionStep shipped) initialRf
      (.idle :: ((oneParcelRun true).take 13).map .path)).map (fun s => s.rf.held.length) = some 1 := rfl
  rw [ht, Option.map_some, Option.some.injEq] at hpc
  obtain ⟨temp, htemp⟩ : ∃ temp, t.rf = .push temp := by
    cases hrf : t.rf with
    | push temp => exact ⟨temp, rfl⟩
    | _ => rw [hrf] at hpc; cases hpc
  exact ⟨t, temp, run_of_exec ht, htemp, (pushes_find_room shipped _ t (run_of_exec ht)).2 temp htemp⟩

end CiotVlc.Gateway
