import CiotVlc.Gateway.RfCounters

/-! # No packet is lost or duplicated on the RF path

Three invariants, each about one stage. `Flow`: behind the node queues the packets of a node pass one
pipeline, in the order of generation. `NodeRoom` and `TbfRoom`: the counters leave room for every push on
a node queue and on `tbf_queue`. What remains are the two steps that drop a packet: a failed send, and a
push on a full `rf_queue`.
-/
namespace CiotVlc.Gateway
open Foundations.Runs Foundations.LinkedQueue
set_option autoImplicit false

/-! ## The invariants -/

def ofNode (i : ℕ) (ps : List Parcel) : List Parcel := ps.filter fun p => p.node = i

theorem ofNode_append (i : ℕ) (ps qs : List Parcel) : ofNode i (ps ++ qs) = ofNode i ps ++ ofNode i qs :=
  List.filter_append ..

structure Flow (s : RfSystem) : Prop where
  pipeline : ∀ i, ofNode i s.generated = ofNode i s.pipeline ++ s.nodeQueues i
  ownQueue : ∀ i, ∀ p ∈ s.nodeQueues i, p.node = i
  nodup : s.generated.Nodup
  serials : ∀ p ∈ s.generated, p.serial < s.serial
  making : ∀ i j pN, s.gen = .push i j pN → pN.node = i ∧ pN.serial < s.serial ∧ pN ∉ s.generated

structure TbfRoom (cfg : Config) (s : RfSystem) : Prop where
  length : s.tbfQueueLength = s.tbfQueue.length + s.tbf.pending - s.rf.pending
  room : s.rf.admitted = true → (s.tbfQueue.length : ℤ) < cfg.limit

structure RfInv (cfg : Config) (s : RfSystem) : Prop where
  flow : Flow s
  node : NodeRoom cfg s
  tbf : TbfRoom cfg s

theorem rfInv_initial (cfg : Config) : RfInv cfg initialRf where
  flow := ⟨fun _ => rfl, fun _ _ hp => absurd hp List.not_mem_nil, List.nodup_nil,
    fun _ hp => absurd hp List.not_mem_nil, fun _ _ _ h => by cases h⟩
  node := ⟨fun _ => rfl, trivial⟩
  tbf := ⟨rfl, fun h => by cases h⟩

theorem tbfRoom_iff {cfg : Config} {s : RfSystem} : TbfRoom cfg s ↔ LengthDrift cfg s 0 := by
  constructor
  · exact fun h => ⟨by rw [h.length, Nat.cast_zero, add_zero], h.room⟩
  · exact fun h => ⟨by rw [h.length, Nat.cast_zero, add_zero], h.room⟩

section
variable {cfg : Config} {s t : RfSystem}

theorem Flow.congr (h : Flow s) (hpipe : t.pipeline = s.pipeline) (hqueues : t.nodeQueues = s.nodeQueues)
    (hgen : t.generated = s.generated) (hserial : t.serial = s.serial)
    (hmake : ∀ i j pN, t.gen = .push i j pN → s.gen = .push i j pN) : Flow t where
  pipeline := by rw [hpipe, hqueues, hgen]; exact h.pipeline
  ownQueue := by rw [hqueues]; exact h.ownQueue
  nodup := by rw [hgen]; exact h.nodup
  serials := by rw [hgen, hserial]; exact h.serials
  making := fun i j pN ht => by rw [hgen, hserial]; exact h.making i j pN (hmake i j pN ht)

/-! ## The steps -/

theorem genLoop_ne_push (cfg : Config) (i j k l : ℕ) (pN : Parcel) : genLoop cfg i j ≠ .push k l pN := by
  unfold genLoop
  split <;> exact fun h => by cases h

theorem Flow.push (h : Flow s) (hnode : NodeRoom cfg s) {i j : ℕ} {pN : Parcel} (hpc : s.gen = .push i j pN) :
    Flow { s with
      gen := .count i j
      nodeQueues := Function.update s.nodeQueues i
        (Fifo.push (capacity cfg.nodeQueueSize) (s.nodeQueues i) pN)
      generated := s.generated ++ [pN] } := by
  have hpush := hnode.push_eq hpc
  obtain ⟨hnodeEq, hserial, hfresh⟩ := h.making i j pN hpc
  refine ⟨fun k => ?_, fun k p hp => ?_, ?_, fun p hp => ?_, fun _ _ _ h => by cases h⟩
  · change ofNode k (s.generated ++ [pN]) = ofNode k s.pipeline ++ Function.update s.nodeQueues i
      (Fifo.push (capacity cfg.nodeQueueSize) (s.nodeQueues i) pN) k
    rw [ofNode_append, h.pipeline, hpush]
    by_cases hk : k = i
    · subst hk
      rw [Function.update_self, List.append_assoc]
      simp [ofNode, hnodeEq]
    · rw [Function.update_of_ne hk]
      have hne : ¬ pN.node = k := fun he => hk (he.symm.trans hnodeEq)
      simp [ofNode, hne]
  · simp only [hpush] at hp
    by_cases hk : k = i
    · subst hk
      rw [Function.update_self, List.mem_append, List.mem_singleton] at hp
      rcases hp with hp | rfl
      · exact h.ownQueue k p hp
      · exact hnodeEq
    · rw [Function.update_of_ne hk] at hp
      exact h.ownQueue k p hp
  · exact List.nodup_append.mpr ⟨h.nodup, List.nodup_singleton pN, fun a ha b hb => by
      rw [List.mem_singleton.mp hb]
      exact ne_of_mem_of_not_mem ha hfresh⟩
  · rcases List.mem_append.mp hp with hp | hp
    · exact h.serials p hp
    · rw [List.mem_singleton.mp hp]
      exact hserial

theorem Flow.genStep {payload : Payload} (h : Flow s) (hnode : NodeRoom cfg s)
    (hstep : genStep cfg s payload = some t) : Flow t := by
  unfold Gateway.genStep at hstep
  generalize hpc : s.gen = pc at hstep
  cases pc with
  | check i =>
    dsimp only at hstep
    split at hstep
    case isFalse => cases hstep
    case isTrue hi =>
      cases hstep
      refine h.congr rfl rfl rfl rfl fun k l pN hpush => ?_
      simp only at hpush
      split at hpush
      · exact absurd hpush (genLoop_ne_push _ _ _ _ _ _)
      · cases hpush
  | make i j =>
    cases hstep
    refine ⟨h.pipeline, h.ownQueue, h.nodup, fun p hp => Nat.lt_succ_of_lt (h.serials p hp), ?_⟩
    intro k l pN hpush
    cases hpush
    exact ⟨rfl, Nat.lt_succ_self _, fun hmem => absurd (h.serials _ hmem) (lt_irrefl _)⟩
  | push i j pN =>
    cases hstep
    exact h.push hnode hpc
  | count i j =>
    cases hstep
    exact h.congr rfl rfl rfl rfl fun _ _ _ h => absurd h (genLoop_ne_push _ _ _ _ _ _)

theorem Flow.pop (h : Flow s) {i : ℕ} {temp : Parcel} {q : List Parcel} (hq : s.nodeQueues i = temp :: q)
    (htemp : temp.node = i) (hpipe : t.pipeline = s.pipeline ++ [temp])
    (hqueues : t.nodeQueues = Function.update s.nodeQueues i q) (hgen : t.generated = s.generated)
    (hserial : t.serial = s.serial) (hpc : t.gen = s.gen) : Flow t where
  pipeline := by
    intro k
    rw [hgen, hpipe, hqueues, ofNode_append, h.pipeline]
    by_cases hk : k = i
    · subst hk
      rw [hq, Function.update_self]
      simp [ofNode, htemp]
    · have hne : ¬ temp.node = k := fun he => hk (he.symm.trans htemp)
      rw [Function.update_of_ne hk]
      simp [ofNode, hne]
  ownQueue := by
    intro k p hp
    rw [hqueues] at hp
    by_cases hk : k = i
    · subst hk
      rw [Function.update_self] at hp
      exact h.ownQueue k p (by rw [hq]; exact List.mem_cons_of_mem _ hp)
    · rw [Function.update_of_ne hk] at hp
      exact h.ownQueue k p hp
  nodup := by rw [hgen]; exact h.nodup
  serials := by rw [hgen, hserial]; exact h.serials
  making := by rw [hgen, hserial, hpc]; exact h.making

theorem Flow.schedStep (h : Flow s) (hgood : GoodRfStep cfg s .sched) (hstep : schedStep cfg s = some t) :
    Flow t := by
  unfold Gateway.schedStep at hstep
  generalize hpc : s.sched = pc at hstep
  cases pc with
  | pop i =>
    dsimp only at hstep
    split at hstep
    case isFalse => cases hstep
    case isTrue hi =>
      split at hstep
      case h_1 hq =>
        cases hstep
        exact h.congr (by simp [RfSystem.pipeline, hpc, SchedPc.held]) rfl rfl rfl fun _ _ _ h => h
      case h_2 temp q hq =>
        cases hstep
        have htemp : temp.node = i := h.ownQueue i temp (by rw [hq]; exact List.mem_cons_self)
        exact h.pop hq htemp (by simp [RfSystem.pipeline, hpc, SchedPc.held]) rfl rfl rfl rfl
  | unsched i temp =>
    cases hstep
    cases temp with
    | none => exact h.congr (by simp [RfSystem.pipeline, hpc, SchedPc.held]) rfl rfl rfl fun _ _ _ h => h
    | some temp =>
      exact h.congr (by simp [RfSystem.pipeline, hpc, SchedPc.held]) rfl rfl rfl fun _ _ _ h => h
  | decGn i idx temp =>
    cases hstep
    exact h.congr (by simp [RfSystem.pipeline, hpc, SchedPc.held]) rfl rfl rfl fun _ _ _ h => h
  | push i idx temp =>
    cases hstep
    have hpush := Fifo.push_of_lt temp (hgood i idx temp hpc)
    exact h.congr (by simp [RfSystem.pipeline, hpc, hpush, SchedPc.held]) rfl rfl rfl fun _ _ _ h => h
  | state i idx =>
    cases hstep
    exact h.congr (by simp [RfSystem.pipeline, hpc, SchedPc.held]) rfl rfl rfl fun _ _ _ h => h
  | incR i =>
    cases hstep
    exact h.congr (by simp [RfSystem.pipeline, hpc, SchedPc.held]) rfl rfl rfl fun _ _ _ h => h

theorem Flow.rfStep (h : Flow s) (htbf : TbfRoom cfg s) (hstep : rfStep cfg s = some t) : Flow t := by
  unfold Gateway.rfStep at hstep
  generalize hpc : s.rf = pc at hstep
  cases pc with
  | testQueue =>
    cases hstep
    refine h.congr ?_ rfl rfl rfl fun _ _ _ h => h
    simp only [RfSystem.pipeline, hpc]
    split <;> rfl
  | testLength =>
    cases hstep
    refine h.congr ?_ rfl rfl rfl fun _ _ _ h => h
    simp only [RfSystem.pipeline, hpc]
    split <;> rfl
  | pop =>
    dsimp only at hstep
    split at hstep
    case h_1 hq =>
      cases hstep
      exact h.congr (by simp [RfSystem.pipeline, hpc, RfPc.held]) rfl rfl rfl fun _ _ _ h => h
    case h_2 temp q hq =>
      cases hstep
      exact h.congr (by simp [RfSystem.pipeline, hpc, hq, RfPc.held]) rfl rfl rfl fun _ _ _ h => h
  | push temp =>
    cases hstep
    have hpush := (tbfRoom_iff.mp htbf).push_eq hpc
    exact h.congr (by simp [RfSystem.pipeline, hpc, hpush, RfPc.held]) rfl rfl rfl fun _ _ _ h => h
  | incLength =>
    cases hstep
    exact h.congr (by simp [RfSystem.pipeline, hpc, RfPc.held]) rfl rfl rfl fun _ _ _ h => h
  | decR =>
    cases hstep
    exact h.congr (by simp [RfSystem.pipeline, hpc, RfPc.held]) rfl rfl rfl fun _ _ _ h => h

theorem Flow.tbfStep {sendSucceeds : Bool} (h : Flow s) (hgood : GoodRfStep cfg s (.tbf sendSucceeds))
    (hstep : tbfStep s sendSucceeds = some t) : Flow t := by
  unfold Gateway.tbfStep at hstep
  generalize hpc : s.tbf = pc at hstep
  cases pc with
  | testQueue =>
    cases hstep
    refine h.congr ?_ rfl rfl rfl fun _ _ _ h => h
    simp only [RfSystem.pipeline, hpc]
    split <;> rfl
  | testToken =>
    cases hstep
    refine h.congr ?_ rfl rfl rfl fun _ _ _ h => h
    simp only [RfSystem.pipeline, hpc]
    split <;> rfl
  | pop =>
    dsimp only at hstep
    split at hstep
    case h_1 hq =>
      cases hstep
      exact h.congr (by simp [RfSystem.pipeline, hpc, TbfPc.held]) rfl rfl rfl fun _ _ _ h => h
    case h_2 temp q hq =>
      cases hstep
      exact h.congr (by simp [RfSystem.pipeline, hpc, hq, TbfPc.held]) rfl rfl rfl fun _ _ _ h => h
  | send temp =>
    obtain rfl := hgood temp hpc
    cases hstep
    exact h.congr (by simp [RfSystem.pipeline, hpc, TbfPc.held]) rfl rfl rfl fun _ _ _ h => h
  | decToken =>
    cases hstep
    exact h.congr (by simp [RfSystem.pipeline, hpc, TbfPc.held]) rfl rfl rfl fun _ _ _ h => h
  | decLength =>
    cases hstep
    exact h.congr (by simp [RfSystem.pipeline, hpc, TbfPc.held]) rfl rfl rfl fun _ _ _ h => h

theorem Flow.step {a : RfAction} (h : RfInv cfg s) (hgood : GoodRfStep cfg s a)
    (hstep : rfPathStep cfg s a = some t) : Flow t := by
  cases a with
  | gen payload => exact h.flow.genStep h.node hstep
  | sched => exact h.flow.schedStep hgood hstep
  | rf => exact h.flow.rfStep h.tbf hstep
  | tbf sendSucceeds => exact h.flow.tbfStep hgood hstep
  | token =>
    obtain ⟨token, nToken, rfl⟩ := tokenStep_frame hstep
    exact h.flow.congr rfl rfl rfl rfl fun _ _ _ h => h

/-- **Every step but the two that drop a packet keeps the invariants.** -/
theorem rfPathStep_inv {a : RfAction} (h : RfInv cfg s) (hgood : GoodRfStep cfg s a)
    (hstep : rfPathStep cfg s a = some t) : RfInv cfg t := by
  have hlength := (tbfRoom_iff.mp h.tbf).step hstep
  have hlost : 0 + lostBy s a = 0 := by
    have := (goodRfStep_iff cfg s a).mp hgood
    omega
  rw [hlost] at hlength
  exact ⟨Flow.step h hgood hstep, h.node.step hstep, tbfRoom_iff.mpr hlength⟩

/-! ## Conservation -/

theorem count_ofNode (p : Parcel) (ps : List Parcel) : (ofNode p.node ps).count p = ps.count p :=
  List.count_filter (by simp)

theorem Flow.conserved (h : Flow s) : Conserved s where
  once := by
    intro p
    have hpipe := congrArg (List.count p) (h.pipeline p.node)
    rw [List.count_append, count_ofNode, count_ofNode] at hpipe
    rw [← hpipe]
    split
    · next hmem => exact List.count_eq_one_of_mem h.nodup hmem
    · next hmem => exact List.count_eq_zero_of_not_mem hmem
  ownQueue := h.ownQueue
  ordered := by
    intro i
    change (ofNode i s.sent).Sublist (ofNode i s.generated)
    rw [h.pipeline i]
    simp only [RfSystem.pipeline, ofNode_append, List.append_assoc]
    exact List.sublist_append_left _ _

/-- A packet that leaves its place and reaches no other is lost. -/
theorem not_conserved_of_dropped (temp : Parcel) (h : Conserved s)
    (hqueue : t.nodeQueues = s.nodeQueues) (hgen : t.generated = s.generated)
    (hcount : t.pipeline.count temp + 1 = s.pipeline.count temp) : ¬ Conserved t := by
  intro ht
  have h1 := h.once temp
  have h2 := ht.once temp
  rw [hqueue, hgen] at h2
  split at h1
  · next hmem =>
    rw [if_pos hmem] at h2
    omega
  · omega

/-- The two steps that are not good drop the packet that their thread holds. -/
theorem bad_step_drops {a : RfAction} (h : RfInv cfg s) (hbad : ¬ GoodRfStep cfg s a)
    (hstep : rfPathStep cfg s a = some t) : ¬ Conserved t := by
  cases a with
  | gen payload => exact absurd trivial hbad
  | rf => exact absurd trivial hbad
  | token => exact absurd trivial hbad
  | sched =>
    simp only [GoodRfStep, not_forall] at hbad
    obtain ⟨i, idx, temp, hpc, hfull⟩ := hbad
    simp only [rfPathStep, schedStep, hpc, Fifo.push_of_le temp (Nat.le_of_not_lt hfull)] at hstep
    cases hstep
    refine not_conserved_of_dropped temp h.flow.conserved rfl rfl ?_
    simp [RfSystem.pipeline, hpc, SchedPc.held]
    omega
  | tbf sendSucceeds =>
    simp only [GoodRfStep, not_forall] at hbad
    obtain ⟨temp, hpc, hfail⟩ := hbad
    simp only [rfPathStep, tbfStep, hpc, if_neg hfail] at hstep
    cases hstep
    refine not_conserved_of_dropped temp h.flow.conserved rfl rfl ?_
    simp [RfSystem.pipeline, hpc, TbfPc.held]
    omega

end

/-- A failed send loses the packet. -/
theorem failed_send_loses_packet :
    ∃ t, Run (rfPathStep shipped) initialRf (oneParcelRun false) t ∧ ¬ Conserved t := by
  obtain ⟨t, ht⟩ : ∃ t, exec (rfPathStep shipped) initialRf (oneParcelRun false) = some t := ⟨_, rfl⟩
  have hplaces : (exec (rfPathStep shipped) initialRf (oneParcelRun false)).map
      (fun s => (s.generated.map Parcel.node, s.pipeline, s.nodeQueues 0)) = some ([0], [], []) := rfl
  rw [ht, Option.map_some, Option.some.injEq, Prod.mk.injEq, Prod.mk.injEq] at hplaces
  obtain ⟨hgen, hpipe, hqueue⟩ := hplaces
  obtain ⟨p, hmem, hnode⟩ := List.mem_map.mp (hgen ▸ List.mem_singleton_self 0 : 0 ∈ t.generated.map Parcel.node)
  refine ⟨t, run_of_exec ht, fun h => ?_⟩
  have honce := h.once p
  rw [if_pos hmem, hpipe, hnode, hqueue] at honce
  cases honce

/-- **When no packet is lost or duplicated.** All along a run of the five threads, every generated packet is
in exactly one place and the packets of a node are sent in order, exactly when every send succeeds
and every push of the dispatcher finds room in `rf_queue`. -/
theorem conserved_iff (cfg : Config) (as : List RfAction) (t : RfSystem)
    (hrun : Run (rfPathStep cfg) initialRf as t) :
    Always (rfPathStep cfg) initialRf as Conserved ↔
      EveryStep (rfPathStep cfg) initialRf as (GoodRfStep cfg) :=
  always_iff_everyStep (I := RfInv cfg) hrun (rfInv_initial cfg) (fun _ h => h.flow.conserved)
    (fun _ _ _ h hgood hstep => rfPathStep_inv h hgood hstep)
    (fun _ _ _ h hbad hstep => bad_step_drops h hbad hstep)

/-- A packet whose send succeeds. -/
theorem conserved_iff_one_parcel :
    Always (rfPathStep shipped) initialRf (oneParcelRun true) Conserved ↔
      EveryStep (rfPathStep shipped) initialRf (oneParcelRun true) (GoodRfStep shipped) := by
  obtain ⟨t, ht⟩ : ∃ t, exec (rfPathStep shipped) initialRf (oneParcelRun true) = some t := ⟨_, rfl⟩
  exact conserved_iff shipped _ t (run_of_exec ht)

end CiotVlc.Gateway
