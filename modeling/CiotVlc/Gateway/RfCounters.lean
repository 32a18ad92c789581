import CiotVlc.Foundations.Runs
import CiotVlc.Gateway.RfPath

/-! # The counters of the RF path

The threads decide by `gn`, `r` and `tbf_queue_length`, never by the queues. Each counter equals the
length of its queue, up to the pushes and pops that are under way and up to an error that only
grows: a push refused by a full `rf_queue` is counted in `r` all the same, and a packet whose send
fails is never taken off `tbf_queue_length`.
-/
namespace CiotVlc.Gateway
open Foundations.Runs Foundations.LinkedQueue
set_option autoImplicit false

/-! ## What is under way -/

/-- A packet popped from the queue of node `i` and not yet taken off `gn[i]`. -/
def SchedPc.pending : SchedPc → ℕ → ℤ
  | .unsched k (some _), i => if i = k then 1 else 0
  | .decGn k _ _, i => if i = k then 1 else 0
  | _, _ => 0

/-- A packet pushed on the queue of node `i` and not yet counted in `gn[i]`. -/
def GenPc.pending : GenPc → ℕ → ℤ
  | .count k _, i => if i = k then 1 else 0
  | _, _ => 0

/-- The rest of the generator's round fits the queue. -/
def GenPc.Fits (cfg : Config) (len : ℕ → ℕ) : GenPc → Prop
  | .check _ => True
  | .make i j => j < cfg.generatedPackets ∧ (len i : ℤ) + (cfg.generatedPackets - j) < cfg.nodeQueueSize
  | .push i j _ => j < cfg.generatedPackets ∧ (len i : ℤ) + (cfg.generatedPackets - j) < cfg.nodeQueueSize
  | .count i j => j < cfg.generatedPackets ∧ (len i : ℤ) + (cfg.generatedPackets - j) ≤ cfg.nodeQueueSize

structure NodeRoom (cfg : Config) (s : RfSystem) : Prop where
  gn : ∀ i, s.gn i = (s.nodeQueues i).length + s.sched.pending i - s.gen.pending i
  room : s.gen.Fits cfg fun i => (s.nodeQueues i).length

/-- A packet pushed on `rf_queue` and not yet counted in `r`. -/
def SchedPc.pushed : SchedPc → ℤ
  | .state _ _ => 1
  | .incR _ => 1
  | _ => 0

/-- A packet popped from `rf_queue` and not yet taken off `r`. -/
def RfPc.popped : RfPc → ℤ
  | .push _ => 1
  | .incLength => 1
  | .decR => 1
  | _ => 0

/-- A packet popped from `tbf_queue` and not yet taken off its length. -/
def TbfPc.pending : TbfPc → ℤ
  | .send _ => 1
  | .decToken => 1
  | .decLength => 1
  | _ => 0

/-- A packet pushed on `tbf_queue` and not yet counted. -/
def RfPc.pending : RfPc → ℤ
  | .incLength => 1
  | _ => 0

/-- `transmit_rf` is past its test of the length, and has not pushed yet. -/
def RfPc.admitted : RfPc → Bool
  | .pop => true
  | .push _ => true
  | _ => false

/-- `r` counts `refused` packets that `rf_queue` did not take. -/
def RDrift (s : RfSystem) (refused : ℕ) : Prop :=
  s.r = s.rfQueue.length + s.rf.popped - s.sched.pushed + refused

/-- `tbf_queue_length` counts `lost` packets that were popped and never sent. -/
structure LengthDrift (cfg : Config) (s : RfSystem) (lost : ℕ) : Prop where
  length : s.tbfQueueLength = s.tbfQueue.length + s.tbf.pending - s.rf.pending + lost
  room : s.rf.admitted = true → (s.tbfQueue.length : ℤ) < cfg.limit

/-- Whether a step is a push that `rf_queue` refuses. -/
def refusedBy (cfg : Config) (s : RfSystem) : RfAction → ℕ
  | .sched =>
    match s.sched with
    | .push _ _ _ => if s.rfQueue.length < capacity cfg.rfQueueSize then 0 else 1
    | _ => 0
  | _ => 0

/-- Whether a step is a send that fails. -/
def lostBy (s : RfSystem) : RfAction → ℕ
  | .tbf sendSucceeds =>
    match s.tbf with
    | .send _ => if sendSucceeds then 0 else 1
    | _ => 0
  | _ => 0

/-- A push of the dispatcher that finds room, or any other step of any thread but a failing send. -/
def GoodRfStep (cfg : Config) (s : RfSystem) : RfAction → Prop
  | .sched => ∀ i idx temp, s.sched = .push i idx temp → s.rfQueue.length < capacity cfg.rfQueueSize
  | .tbf sendSucceeds => ∀ temp, s.tbf = .send temp → sendSucceeds = true
  | _ => True

theorem goodRfStep_iff (cfg : Config) (s : RfSystem) (a : RfAction) :
    GoodRfStep cfg s a ↔ refusedBy cfg s a + lostBy s a = 0 := by
  cases a with
  | gen payload => simp [GoodRfStep, refusedBy, lostBy]
  | rf => simp [GoodRfStep, refusedBy, lostBy]
  | token => simp [GoodRfStep, refusedBy, lostBy]
  | sched => cases hpc : s.sched <;> simp [GoodRfStep, refusedBy, lostBy, hpc]
  | tbf sendSucceeds => cases hpc : s.tbf <;> simp [GoodRfStep, refusedBy, lostBy, hpc]

theorem nodeRoom_initial (cfg : Config) : NodeRoom cfg initialRf := ⟨fun _ => rfl, trivial⟩

theorem rDrift_initial : RDrift initialRf 0 := rfl

theorem lengthDrift_initial (cfg : Config) : LengthDrift cfg initialRf 0 := ⟨rfl, fun h => by cases h⟩

theorem lt_capacity {limit : ℤ} {n : ℕ} (h : (n : ℤ) < limit) : n < capacity limit := by
  unfold capacity constructQueue
  simp only
  split <;> omega

section
variable {cfg : Config} {s t : RfSystem}

/-! ## gn -/

theorem genLoop_pending (cfg : Config) (i j k : ℕ) : (genLoop cfg i j).pending k = 0 := by
  unfold genLoop
  split <;> rfl

theorem genLoop_fits {len : ℕ → ℕ} {i j : ℕ}
    (h : (len i : ℤ) + (cfg.generatedPackets - j) < cfg.nodeQueueSize) : (genLoop cfg i j).Fits cfg len := by
  unfold genLoop
  split
  · next hj => exact ⟨hj, h⟩
  · trivial

theorem SchedPc.pending_nonneg (pc : SchedPc) (i : ℕ) : 0 ≤ pc.pending i := by
  cases pc with
  | unsched k temp =>
    cases temp with
    | none => exact le_refl 0
    | some p => simp only [SchedPc.pending]; split <;> decide
  | decGn k idx p => simp only [SchedPc.pending]; split <;> decide
  | pop | push | state | incR => exact le_refl 0

theorem NodeRoom.below_limit (h : NodeRoom cfg s) {i j : ℕ} {pN : Parcel} (hpc : s.gen = .push i j pN) :
    (s.nodeQueues i).length < capacity cfg.nodeQueueSize := by
  have hroom := h.room
  rw [hpc] at hroom
  obtain ⟨hj, hlt⟩ := hroom
  exact lt_capacity (by simp only at hlt; omega)

/-- The generator's test leaves room for its round, so none of its pushes is refused. -/
theorem NodeRoom.push_eq (h : NodeRoom cfg s) {i j : ℕ} {pN : Parcel} (hpc : s.gen = .push i j pN) :
    Fifo.push (capacity cfg.nodeQueueSize) (s.nodeQueues i) pN = s.nodeQueues i ++ [pN] :=
  Fifo.push_of_lt pN (h.below_limit hpc)

theorem NodeRoom.genStep {payload : Payload} (h : NodeRoom cfg s) (hstep : genStep cfg s payload = some t) :
    NodeRoom cfg t := by
  have hgn := h.gn
  have hroom := h.room
  unfold Gateway.genStep at hstep
  generalize hpc : s.gen = pc at hgn hroom hstep
  cases pc with
  | check i =>
    dsimp only at hstep
    split at hstep
    case isFalse => cases hstep
    case isTrue hi =>
      cases hstep
      have hge : ((s.nodeQueues i).length : ℤ) ≤ s.gn i := by
        have hpend := s.sched.pending_nonneg i
        have hi := hgn i
        simp only [GenPc.pending] at hi
        omega
      refine ⟨fun k => ?_, ?_⟩
      · simp only
        rw [hgn k]
        split
        · rw [genLoop_pending]; rfl
        · rfl
      · simp only
        split
        · next hlt => exact genLoop_fits (by push_cast; omega)
        · trivial
  | make i j =>
    cases hstep
    exact ⟨hgn, hroom⟩
  | push i j pN =>
    cases hstep
    have hpush := h.push_eq hpc
    obtain ⟨hj, hlt⟩ := hroom
    simp only at hlt
    refine ⟨fun k => ?_, ?_⟩
    · simp only [hpush, hgn k, GenPc.pending]
      by_cases hk : k = i
      · subst hk
        rw [Function.update_self, List.length_append, List.length_singleton, if_pos rfl]
        push_cast
        omega
      · rw [Function.update_of_ne hk, if_neg hk]
    · simp only [hpush, GenPc.Fits, Function.update_self, List.length_append, List.length_singleton]
      exact ⟨hj, by push_cast; omega⟩
  | count i j =>
    cases hstep
    obtain ⟨hj, hle⟩ := hroom
    simp only at hle
    refine ⟨fun k => ?_, genLoop_fits (by push_cast; omega)⟩
    simp only [genLoop_pending]
    have hk' := hgn k
    by_cases hk : k = i
    · subst hk
      rw [Function.update_self, hk', GenPc.pending, if_pos rfl]
      omega
    · rw [Function.update_of_ne hk, hk', GenPc.pending, if_neg hk]

theorem GenPc.Fits.mono {pc : GenPc} {len len' : ℕ → ℕ} (h : pc.Fits cfg len) (hle : ∀ i, len' i ≤ len i) :
    pc.Fits cfg len' := by
  cases pc with
  | check i => trivial
  | make i j =>
    have := hle i
    exact ⟨h.1, by have := h.2; omega⟩
  | push i j pN =>
    have := hle i
    exact ⟨h.1, by have := h.2; omega⟩
  | count i j =>
    have := hle i
    exact ⟨h.1, by have := h.2; omega⟩

theorem NodeRoom.schedStep (h : NodeRoom cfg s) (hstep : schedStep cfg s = some t) : NodeRoom cfg t := by
  have hgn := h.gn
  unfold Gateway.schedStep at hstep
  generalize hpc : s.sched = pc at hgn hstep
  cases pc with
  | pop i =>
    dsimp only at hstep
    split at hstep
    case isFalse => cases hstep
    case isTrue hi =>
      split at hstep
      case h_1 hq =>
        cases hstep
        exact ⟨hgn, h.room⟩
      case h_2 temp q hq =>
        cases hstep
        refine ⟨fun k => ?_, h.room.mono fun k => ?_⟩
        · simp only [hgn k, SchedPc.pending]
          by_cases hk : k = i
          · subst hk
            rw [Function.update_self, hq, if_pos rfl, List.length_cons]
            push_cast
            omega
          · rw [Function.update_of_ne hk, if_neg hk]
        · by_cases hk : k = i
          · subst hk
            simp only [Function.update_self, hq, List.length_cons]
            exact Nat.le_succ _
          · simp only [Function.update_of_ne hk]
            exact le_rfl
  | unsched i temp =>
    cases hstep
    cases temp with
    | none => exact ⟨hgn, h.room⟩
    | some temp => exact ⟨hgn, h.room⟩
  | decGn i idx temp =>
    cases hstep
    refine ⟨fun k => ?_, h.room⟩
    have hk' := hgn k
    simp only [SchedPc.pending] at hk' ⊢
    by_cases hk : k = i
    · subst hk
      rw [Function.update_self, hk', if_pos rfl]
      omega
    · rw [Function.update_of_ne hk, hk', if_neg hk]
  | push i idx temp =>
    cases hstep
    exact ⟨hgn, h.room⟩
  | state i idx =>
    cases hstep
    exact ⟨hgn, h.room⟩
  | incR i =>
    cases hstep
    exact ⟨hgn, h.room⟩

theorem NodeRoom.congr (h : NodeRoom cfg s) (hgen : t.gen = s.gen) (hsched : t.sched = s.sched)
    (hgn : t.gn = s.gn) (hqueues : t.nodeQueues = s.nodeQueues) : NodeRoom cfg t where
  gn := by rw [hgen, hsched, hgn, hqueues]; exact h.gn
  room := by rw [hgen, hqueues]; exact h.room

theorem NodeRoom.step {a : RfAction} (h : NodeRoom cfg s) (hstep : rfPathStep cfg s a = some t) :
    NodeRoom cfg t := by
  cases a with
  | gen payload => exact h.genStep hstep
  | sched => exact h.schedStep hstep
  | rf =>
    obtain ⟨rf, rfQueue, tbfQueue, r, tbfQueueLength, rfl⟩ := rfStep_frame hstep
    exact h.congr rfl rfl rfl rfl
  | token =>
    obtain ⟨token, nToken, rfl⟩ := tokenStep_frame hstep
    exact h.congr rfl rfl rfl rfl
  | tbf sendSucceeds =>
    obtain ⟨tbf, tbfQueue, nToken, tbfQueueLength, sent, rfl⟩ := tbfStep_frame hstep
    exact h.congr rfl rfl rfl rfl

/-! ## r -/

variable {refused lost : ℕ}

theorem RDrift.congr (h : RDrift s refused) (hr : t.r = s.r) (hqueue : t.rfQueue = s.rfQueue)
    (hrf : t.rf.popped = s.rf.popped) (hsched : t.sched.pushed = s.sched.pushed) : RDrift t refused := by
  unfold RDrift
  rw [hr, hqueue, hrf, hsched]
  exact h

theorem RDrift.schedStep (h : RDrift s refused) (hstep : schedStep cfg s = some t) :
    RDrift t (refused + refusedBy cfg s .sched) := by
  unfold refusedBy
  unfold Gateway.schedStep at hstep
  generalize hpc : s.sched = pc at hstep ⊢
  cases pc with
  | pop i =>
    have hpushed : s.sched.pushed = 0 := by rw [hpc]; rfl
    dsimp only at hstep
    split at hstep
    · split at hstep <;> cases hstep <;> exact h.congr rfl rfl rfl hpushed.symm
    · cases hstep
  | unsched i temp =>
    have hpushed : s.sched.pushed = 0 := by rw [hpc]; rfl
    cases hstep
    cases temp <;> exact h.congr rfl rfl rfl hpushed.symm
  | decGn i idx temp =>
    have hpushed : s.sched.pushed = 0 := by rw [hpc]; rfl
    cases hstep
    exact h.congr rfl rfl rfl hpushed.symm
  | push i idx temp =>
    unfold RDrift at h ⊢
    rw [hpc] at h
    cases hstep
    simp only [SchedPc.pushed] at h ⊢
    split
    · next hroom =>
      rw [Fifo.push_of_lt temp hroom, List.length_append, List.length_singleton]
      push_cast
      omega
    · next hfull =>
      rw [Fifo.push_of_le temp (Nat.le_of_not_lt hfull)]
      push_cast
      omega
  | state i idx =>
    have hpushed : s.sched.pushed = 1 := by rw [hpc]; rfl
    cases hstep
    exact h.congr rfl rfl rfl hpushed.symm
  | incR i =>
    unfold RDrift at h ⊢
    rw [hpc] at h
    cases hstep
    simp only [SchedPc.pushed] at h ⊢
    omega

theorem RDrift.rfStep (h : RDrift s refused) (hstep : rfStep cfg s = some t) : RDrift t refused := by
  unfold RDrift at h ⊢
  unfold Gateway.rfStep at hstep
  generalize hpc : s.rf = pc at h hstep
  cases pc with
  | testQueue =>
    cases hstep
    simp only
    split <;> exact h
  | testLength =>
    cases hstep
    simp only
    split <;> exact h
  | pop =>
    dsimp only at hstep
    split at hstep
    case h_1 hq =>
      cases hstep
      exact h
    case h_2 temp q hq =>
      cases hstep
      simp only [hq, RfPc.popped, List.length_cons] at h ⊢
      push_cast at h
      omega
  | push temp =>
    cases hstep
    exact h
  | incLength =>
    cases hstep
    exact h
  | decR =>
    cases hstep
    simp only [h, RfPc.popped]
    omega

theorem RDrift.step {a : RfAction} (h : RDrift s refused) (hstep : rfPathStep cfg s a = some t) :
    RDrift t (refused + refusedBy cfg s a) := by
  cases a with
  | sched => exact h.schedStep hstep
  | rf => exact h.rfStep hstep
  | gen payload =>
    obtain ⟨gen, nodeQueues, arrSeq, gn, serial, generated, rfl⟩ := genStep_frame hstep
    exact h.congr rfl rfl rfl rfl
  | token =>
    obtain ⟨token, nToken, rfl⟩ := tokenStep_frame hstep
    exact h.congr rfl rfl rfl rfl
  | tbf sendSucceeds =>
    obtain ⟨tbf, tbfQueue, nToken, tbfQueueLength, sent, rfl⟩ := tbfStep_frame hstep
    exact h.congr rfl rfl rfl rfl

/-! ## tbf_queue_length -/

theorem TbfPc.pending_nonneg (pc : TbfPc) : 0 ≤ pc.pending := by
  cases pc <;> simp [TbfPc.pending]

theorem LengthDrift.below_limit (h : LengthDrift cfg s lost) {temp : Parcel} (hpc : s.rf = .push temp) :
    s.tbfQueue.length < capacity cfg.limit :=
  lt_capacity (h.room (by rw [hpc]; rfl))

/-- The length test of `transmit_rf` leaves room for its push, also when packets were lost. -/
theorem LengthDrift.push_eq (h : LengthDrift cfg s lost) {temp : Parcel} (hpc : s.rf = .push temp) :
    Fifo.push (capacity cfg.limit) s.tbfQueue temp = s.tbfQueue ++ [temp] :=
  Fifo.push_of_lt temp (h.below_limit hpc)

theorem LengthDrift.congr (h : LengthDrift cfg s lost) (hlength : t.tbfQueueLength = s.tbfQueueLength)
    (hqueue : t.tbfQueue = s.tbfQueue) (hrf : t.rf = s.rf) (htbf : t.tbf.pending = s.tbf.pending) :
    LengthDrift cfg t lost where
  length := by rw [hlength, hqueue, hrf, htbf]; exact h.length
  room := by rw [hrf, hqueue]; exact h.room

theorem LengthDrift.rfStep (h : LengthDrift cfg s lost) (hstep : rfStep cfg s = some t) :
    LengthDrift cfg t lost := by
  have hlength := h.length
  have hroom := h.room
  unfold Gateway.rfStep at hstep
  generalize hpc : s.rf = pc at hlength hroom hstep
  cases pc with
  | testQueue =>
    cases hstep
    constructor
    · simp only
      split <;> exact hlength
    · simp only
      split <;> exact fun h => by cases h
  | testLength =>
    cases hstep
    have hpend := s.tbf.pending_nonneg
    constructor
    · simp only
      split <;> exact hlength
    · simp only [RfPc.pending] at hlength ⊢
      split
      · next hlt => exact fun _ => by omega
      · exact fun h => by cases h
  | pop =>
    dsimp only at hstep
    split at hstep
    case h_1 hq =>
      cases hstep
      exact ⟨hlength, fun h => by cases h⟩
    case h_2 temp q hq =>
      cases hstep
      exact ⟨hlength, fun _ => hroom rfl⟩
  | push temp =>
    cases hstep
    have hpush := h.push_eq hpc
    refine ⟨?_, fun h => by cases h⟩
    simp only [hlength, hpush, RfPc.pending, List.length_append, List.length_singleton]
    push_cast
    omega
  | incLength =>
    cases hstep
    refine ⟨?_, fun h => by cases h⟩
    simp only [hlength, RfPc.pending]
    omega
  | decR =>
    cases hstep
    exact ⟨hlength, fun h => by cases h⟩

theorem LengthDrift.tbfStep {sendSucceeds : Bool} (h : LengthDrift cfg s lost)
    (hstep : tbfStep s sendSucceeds = some t) : LengthDrift cfg t (lost + lostBy s (.tbf sendSucceeds)) := by
  have hlength := h.length
  unfold lostBy
  unfold Gateway.tbfStep at hstep
  generalize hpc : s.tbf = pc at hlength hstep ⊢
  cases pc with
  | testQueue =>
    have hpend : s.tbf.pending = 0 := by rw [hpc]; rfl
    cases hstep
    refine h.congr rfl rfl rfl ?_
    rw [hpend]
    simp only
    split <;> rfl
  | testToken =>
    have hpend : s.tbf.pending = 0 := by rw [hpc]; rfl
    cases hstep
    refine h.congr rfl rfl rfl ?_
    rw [hpend]
    simp only
    split <;> rfl
  | pop =>
    dsimp only at hstep
    split at hstep
    case h_1 hq =>
      cases hstep
      exact ⟨hlength, h.room⟩
    case h_2 temp q hq =>
      cases hstep
      refine ⟨?_, fun hadm => ?_⟩
      · simp only [hlength, hq, TbfPc.pending, List.length_cons]
        push_cast
        omega
      · have hlt := h.room hadm
        rw [hq, List.length_cons] at hlt
        simp only
        omega
  | send temp =>
    cases sendSucceeds with
    | true =>
      cases hstep
      exact ⟨hlength, h.room⟩
    | false =>
      cases hstep
      refine ⟨?_, h.room⟩
      simp only [hlength, TbfPc.pending, Bool.false_eq_true, if_false]
      push_cast
      omega
  | decToken =>
    have hpend : s.tbf.pending = 1 := by rw [hpc]; rfl
    cases hstep
    exact h.congr rfl rfl rfl hpend.symm
  | decLength =>
    cases hstep
    refine ⟨?_, h.room⟩
    simp only [hlength, TbfPc.pending]
    push_cast
    omega

theorem LengthDrift.step {a : RfAction} (h : LengthDrift cfg s lost) (hstep : rfPathStep cfg s a = some t) :
    LengthDrift cfg t (lost + lostBy s a) := by
  cases a with
  | rf => exact h.rfStep hstep
  | tbf sendSucceeds => exact h.tbfStep hstep
  | gen payload =>
    obtain ⟨gen, nodeQueues, arrSeq, gn, serial, generated, rfl⟩ := genStep_frame hstep
    exact h.congr rfl rfl rfl rfl
  | token =>
    obtain ⟨token, nToken, rfl⟩ := tokenStep_frame hstep
    exact h.congr rfl rfl rfl rfl
  | sched =>
    obtain ⟨sched, nodeQueues, rfQueue, unschedSeq, pktState, gn, r, rfl⟩ := schedStep_frame hstep
    exact h.congr rfl rfl rfl rfl

/-- With `LIMIT` packets lost, the length test of `transmit_rf` fails. -/
theorem LengthDrift.stalled {a : RfAction} (h : LengthDrift cfg s lost) (hlost : cfg.limit ≤ lost)
    (hadm : s.rf.admitted = false) (hstep : rfPathStep cfg s a = some t) : t.rf.admitted = false := by
  cases a with
  | rf =>
    simp only [rfPathStep, Gateway.rfStep] at hstep
    generalize hpc : s.rf = pc at hstep
    cases pc with
    | testQueue =>
      cases hstep
      simp only
      split <;> rfl
    | testLength =>
      have hlength := h.length
      have hpend := s.tbf.pending_nonneg
      rw [hpc, show RfPc.testLength.pending = 0 from rfl] at hlength
      cases hstep
      rw [if_neg (by omega)]
      rfl
    | pop =>
      rw [hpc] at hadm
      cases hadm
    | push temp =>
      rw [hpc] at hadm
      cases hadm
    | incLength =>
      cases hstep
      rfl
    | decR =>
      cases hstep
      rfl
  | gen payload =>
    obtain ⟨gen, nodeQueues, arrSeq, gn, serial, generated, rfl⟩ := genStep_frame hstep
    exact hadm
  | token =>
    obtain ⟨token, nToken, rfl⟩ := tokenStep_frame hstep
    exact hadm
  | sched =>
    obtain ⟨sched, nodeQueues, rfQueue, unschedSeq, pktState, gn, r, rfl⟩ := schedStep_frame hstep
    exact hadm
  | tbf sendSucceeds =>
    obtain ⟨tbf, tbfQueue, nToken, tbfQueueLength, sent, rfl⟩ := tbfStep_frame hstep
    exact hadm

theorem LengthDrift.stalled_forever {as : List RfAction} (h : LengthDrift cfg s lost)
    (hlost : cfg.limit ≤ lost) (hadm : s.rf.admitted = false) (hrun : Run (rfPathStep cfg) s as t) :
    t.rf.admitted = false := by
  have hall := hrun.invariant
    (P := fun u => ∃ lost : ℕ, LengthDrift cfg u lost ∧ cfg.limit ≤ lost ∧ u.rf.admitted = false)
    ⟨lost, h, hlost, hadm⟩ fun u a v hu hstep => by
      obtain ⟨lost, hdrift, hlost, hadm⟩ := hu
      exact ⟨_, hdrift.step hstep, by push_cast; omega, hdrift.stalled hlost hadm hstep⟩
  obtain ⟨_, _, _, hadm'⟩ := hall
  exact hadm'

end

/-! ## The counters between two operations -/

/-- The generator is not between a push and its `gn[i]++`. -/
def GenPc.settled : GenPc → Bool
  | .count _ _ => false
  | _ => true

/-- The dispatcher is neither between a pop and its `gn[i]--` nor between a push and its `r++`. -/
def SchedPc.settled : SchedPc → Bool
  | .unsched _ (some _) => false
  | .decGn _ _ _ => false
  | .state _ _ => false
  | .incR _ => false
  | _ => true

/-- `transmit_rf` is not between its pop and `r--`, which comes after the count of its push. -/
def RfPc.settled : RfPc → Bool
  | .push _ => false
  | .incLength => false
  | .decR => false
  | _ => true

/-- `tbf_transmit` is not between its pop and `tbf_queue_length--`. -/
def TbfPc.settled : TbfPc → Bool
  | .send _ => false
  | .decToken => false
  | .decLength => false
  | _ => true

/-- No thread is between a queue operation and the update of its counter. -/
structure Settled (s : RfSystem) : Prop where
  gen : s.gen.settled = true
  sched : s.sched.settled = true
  rf : s.rf.settled = true
  tbf : s.tbf.settled = true

/-- The counters are the lengths of the queues, and an empty `tbf_queue` admits a packet. -/
structure CountersMirror (cfg : Config) (s : RfSystem) : Prop where
  gn : ∀ i, s.gn i = (s.nodeQueues i).length
  r : s.r = s.rfQueue.length
  tbfQueueLength : s.tbfQueueLength = s.tbfQueue.length
  admits : s.tbfQueue = [] → s.tbfQueueLength < cfg.limit

section
variable {cfg : Config} {s t : RfSystem} {refused lost : ℕ}

theorem GenPc.pending_of_settled {pc : GenPc} (h : pc.settled = true) (i : ℕ) : pc.pending i = 0 := by
  cases pc with
  | count => cases h
  | check | make | push => rfl

theorem SchedPc.pending_of_settled {pc : SchedPc} (h : pc.settled = true) :
    (∀ i, pc.pending i = 0) ∧ pc.pushed = 0 := by
  cases pc with
  | unsched i temp =>
    cases temp with
    | none => exact ⟨fun _ => rfl, rfl⟩
    | some temp => cases h
  | decGn | state | incR => cases h
  | pop | push => exact ⟨fun _ => rfl, rfl⟩

theorem RfPc.pending_of_settled {pc : RfPc} (h : pc.settled = true) : pc.popped = 0 ∧ pc.pending = 0 := by
  cases pc with
  | push | incLength | decR => cases h
  | testQueue | testLength | pop => exact ⟨rfl, rfl⟩

theorem TbfPc.pending_of_settled {pc : TbfPc} (h : pc.settled = true) : pc.pending = 0 := by
  cases pc with
  | send | decToken | decLength => cases h
  | testQueue | testToken | pop => rfl

theorem countersMirror_iff_drift (hlimit : 0 < cfg.limit) (hnode : NodeRoom cfg s) (hr : RDrift s refused)
    (hlength : LengthDrift cfg s lost) (hs : Settled s) : CountersMirror cfg s ↔ refused + lost = 0 := by
  have hcount := hlength.length
  obtain ⟨hsched, hpushed⟩ := SchedPc.pending_of_settled hs.sched
  obtain ⟨hpopped, hrf⟩ := RfPc.pending_of_settled hs.rf
  rw [RDrift, hpopped, hpushed] at hr
  rw [TbfPc.pending_of_settled hs.tbf, hrf] at hcount
  constructor
  · intro h
    have h1 := h.r
    have h2 := h.tbfQueueLength
    omega
  · intro h
    refine ⟨fun i => ?_, by omega, by omega, fun hempty => ?_⟩
    · rw [hnode.gn i, hsched i, GenPc.pending_of_settled hs.gen]
      omega
    · rw [hempty, List.length_nil] at hcount
      push_cast at hcount
      omega

end

/-- One packet all the way through, to its send. -/
def oneParcelRun (sendSucceeds : Bool) : List RfAction :=
  let payload : Payload := ⟨List.replicate payloadSize 0, rfl⟩
  [.gen payload, .gen payload, .gen payload, .gen payload, .sched, .sched, .sched, .sched, .token, .token,
    .rf, .rf, .rf, .rf, .rf, .tbf true, .tbf true, .tbf true, .tbf sendSucceeds]

/-- What the counters of a run are off by, and that it is nothing when every step was good. -/
theorem drift_of_run {cfg : Config} {as : List RfAction} {t : RfSystem}
    (hrun : Run (rfPathStep cfg) initialRf as t) :
    NodeRoom cfg t ∧ ∃ refused lost, RDrift t refused ∧ LengthDrift cfg t lost ∧
      (refused + lost = 0 ↔ EveryStep (rfPathStep cfg) initialRf as (GoodRfStep cfg)) := by
  obtain ⟨n, ⟨hnode, refused, lost, hr, hlength, rfl⟩, hiff⟩ := hrun.tally
    (I := fun n u => NodeRoom cfg u ∧
      ∃ refused lost, RDrift u refused ∧ LengthDrift cfg u lost ∧ n = refused + lost)
    (w := fun u a => refusedBy cfg u a + lostBy u a)
    ⟨nodeRoom_initial cfg, 0, 0, rDrift_initial, lengthDrift_initial cfg, rfl⟩
    fun n u a v hu hstep => by
      obtain ⟨hnode, refused, lost, hr, hlength, rfl⟩ := hu
      exact ⟨hnode.step hstep, _, _, hr.step hstep, hlength.step hstep, by omega⟩
  refine ⟨hnode, refused, lost, hr, hlength, hiff.trans ?_⟩
  simp only [EveryStep, goodRfStep_iff]

/-- **When the counters mirror the queues.** In a settled state of a run they do exactly when every send has
succeeded and every push of the dispatcher has found room in `rf_queue`. -/
theorem countersMirror_iff (cfg : Config) (hlimit : 0 < cfg.limit) (as : List RfAction) (t : RfSystem)
    (hrun : Run (rfPathStep cfg) initialRf as t) (hs : Settled t) :
    CountersMirror cfg t ↔ EveryStep (rfPathStep cfg) initialRf as (GoodRfStep cfg) := by
  obtain ⟨hnode, refused, lost, hr, hlength, hiff⟩ := drift_of_run hrun
  exact (countersMirror_iff_drift hlimit hnode hr hlength hs).trans hiff

/-- A packet whose send succeeds, until all five threads are settled. -/
theorem countersMirror_iff_one_parcel :
    ∃ t, Run (rfPathStep shipped) initialRf
        (oneParcelRun true ++ [.sched, .sched, .rf, .tbf true, .tbf true]) t ∧
      (CountersMirror shipped t ↔ EveryStep (rfPathStep shipped) initialRf
        (oneParcelRun true ++ [.sched, .sched, .rf, .tbf true, .tbf true]) (GoodRfStep shipped)) := by
  obtain ⟨t, ht⟩ : ∃ t, exec (rfPathStep shipped) initialRf
    (oneParcelRun true ++ [.sched, .sched, .rf, .tbf true, .tbf true]) = some t := ⟨_, rfl⟩
  have hpcs : (exec (rfPathStep shipped) initialRf
      (oneParcelRun true ++ [.sched, .sched, .rf, .tbf true, .tbf true])).map
      (fun s => (s.gen.settled, s.sched.settled, s.rf.settled, s.tbf.settled)) =
      some (true, true, true, true) := rfl
  rw [ht, Option.map_some, Option.some.injEq, Prod.mk.injEq, Prod.mk.injEq, Prod.mk.injEq] at hpcs
  obtain ⟨hgen, hsched, hrf, htbf⟩ := hpcs
  exact ⟨t, run_of_exec ht, countersMirror_iff shipped (by decide) _ t (run_of_exec ht) ⟨hgen, hsched, hrf, htbf⟩⟩

/-- One failed send: all threads are settled, `tbf_queue` is empty, its counter is not, and `transmit_rf`
never takes another packet. -/
theorem failed_send_breaks_mirror :
    ∃ t, Run (rfPathStep shipped) initialRf (oneParcelRun false ++ [.sched, .sched, .rf]) t ∧
      Settled t ∧ ¬ CountersMirror shipped t ∧
      ∀ as u, Run (rfPathStep shipped) t as u → u.rf.admitted = false := by
  obtain ⟨t, ht⟩ : ∃ t, exec (rfPathStep shipped) initialRf
    (oneParcelRun false ++ [.sched, .sched, .rf]) = some t := ⟨_, rfl⟩
  have hlook : (exec (rfPathStep shipped) initialRf (oneParcelRun false ++ [.sched, .sched, .rf])).map
      (fun s => (s.gen.settled, s.sched.settled, s.rf.settled, s.tbf.settled, s.tbfQueueLength,
        s.tbfQueue.length, s.rf.admitted)) = some (true, true, true, true, 1, 0, false) := rfl
  rw [ht, Option.map_some, Option.some.injEq] at hlook
  simp only [Prod.mk.injEq] at hlook
  obtain ⟨hgen, hsched, hrf, htbf, hcount, hempty, hadm⟩ := hlook
  have hs : Settled t := ⟨hgen, hsched, hrf, htbf⟩
  obtain ⟨_, refused, lost, _, hdrift, _⟩ := drift_of_run (run_of_exec ht)
  have hlost : shipped.limit ≤ lost := by
    have hlength := hdrift.length
    rw [hcount, hempty, TbfPc.pending_of_settled htbf, (RfPc.pending_of_settled hrf).2] at hlength
    change (1 : ℤ) ≤ lost
    omega
  refine ⟨t, run_of_exec ht, hs, fun h => ?_, fun as u hu => hdrift.stalled_forever hlost hadm hu⟩
  have hmirror := h.tbfQueueLength
  rw [hcount, hempty] at hmirror
  cases hmirror

end CiotVlc.Gateway
