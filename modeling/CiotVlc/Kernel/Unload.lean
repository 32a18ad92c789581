import CiotVlc.Kernel.BufferChains

/-! # Unloading the transmitting driver

`cleanup_module` returns the queued buffers to the pool and frees the pool, `tx_pkt` and `vlc_q_pkt`. The timer
handler overwrites the global `tx_pkt` with the buffer that it takes from the queue, which goes back to the
pool, so each buffer is freed once only when no packet was ever sent.
-/
namespace CiotVlc.Kernel
open Foundations.Bytes Foundations.Checked Foundations.LinkedQueue Foundations.Runs
set_option autoImplicit false

namespace PoolDriver

/-- `while (priv->tx_queue) { .. }`; `none` when it takes more than `fuel` passes. -/
def drainQueue : (fuel : ℕ) → PoolDriver → Option PoolDriver
  | 0, _ => none
  | fuel + 1, s =>
    match s.vlcDequeuePkt with
    | (some pkt, s) => drainQueue fuel (s.vlcReleaseBuffer pkt)
    | (none, s) => some s

/-- The freed buffers, in order. -/
def vlcTeardownPool : (fuel : ℕ) → PoolDriver → Option (List ℕ)
  | 0, _ => none
  | fuel + 1, s =>
    match s.ppool with
    | none => some []
    | some pkt => do
      let freed ← vlcTeardownPool fuel { s with ppool := s.next pkt }
      return pkt :: freed

/-- The buffers that `cleanup_module` frees. -/
def cleanupModule (s : PoolDriver) : Option (List ℕ) := do
  let s ← s.drainQueue (s.fresh + 1)
  let freed ← s.vlcTeardownPool (s.fresh + 1)
  return freed ++ [s.txPkt, s.vlcQPkt]

/-! ## What is freed -/

section
variable {rs : ReedSolomon} {poolSize : ℕ} {s t : PoolDriver} {pool queue : List ℕ}

theorem drainQueue_ok {fuel : ℕ} (hfree : Chain s.next s.ppool pool) (hqueued : Chain s.next s.txQueue queue)
    (hnodup : (pool ++ queue).Nodup) (hfuel : queue.length < fuel) :
    ∃ u, s.drainQueue fuel = some u ∧ Chain u.next u.ppool (queue.reverse ++ pool) ∧
      u.fresh = s.fresh ∧ u.txPkt = s.txPkt ∧ u.vlcQPkt = s.vlcQPkt := by
  induction queue generalizing s pool fuel with
  | nil =>
    obtain ⟨fuel, rfl⟩ : ∃ n, fuel = n + 1 := ⟨fuel - 1, by omega⟩
    have hnone : s.txQueue = none := hqueued.head_eq
    exact ⟨s, by simp only [drainQueue, vlcDequeuePkt, hnone], hfree, rfl, rfl, rfl⟩
  | cons pkt queue ih =>
    obtain ⟨fuel, rfl⟩ : ∃ n, fuel = n + 1 := ⟨fuel - 1, by omega⟩
    have hsome : s.txQueue = some pkt := hqueued.head_eq
    have hnodup' := List.perm_middle.nodup_iff.mp hnodup
    have hapart : pkt ∉ pool ∧ pkt ∉ queue := by
      have hnew := (List.nodup_cons.mp hnodup').1
      rwa [List.mem_append, not_or] at hnew
    obtain ⟨stopped, hrelease⟩ := vlcReleaseBuffer_eq { s with txQueue := s.next pkt } pkt
    obtain ⟨u, hu, hchain, hfresh, htx, hdummy⟩ := @ih
      { s with next := Function.update s.next pkt s.ppool, ppool := some pkt, txQueue := s.next pkt, stopped }
      (pkt :: pool) fuel (hfree.push hapart.1) ⟨hqueued.linked.1, hqueued.linked.2.update hapart.2 _⟩ hnodup'
      (by rw [List.length_cons] at hfuel; omega)
    refine ⟨u, ?_, ?_, hfresh, htx, hdummy⟩
    · rw [drainQueue, vlcDequeuePkt, hsome]
      simp only
      rw [hrelease]
      exact hu
    · rwa [List.reverse_cons, List.append_assoc, List.singleton_append]

theorem vlcTeardownPool_ok {fuel : ℕ} (hfree : Chain s.next s.ppool pool) (hfuel : pool.length < fuel) :
    s.vlcTeardownPool fuel = some pool := by
  induction pool generalizing s fuel with
  | nil =>
    obtain ⟨fuel, rfl⟩ : ∃ n, fuel = n + 1 := ⟨fuel - 1, by omega⟩
    have hnone : s.ppool = none := hfree.head_eq
    simp only [vlcTeardownPool, hnone]
  | cons pkt pool ih =>
    obtain ⟨fuel, rfl⟩ : ∃ n, fuel = n + 1 := ⟨fuel - 1, by omega⟩
    have hsome : s.ppool = some pkt := hfree.head_eq
    have hrest := @ih { s with ppool := s.next pkt } fuel ⟨hfree.linked.1, hfree.linked.2⟩ (by
      rw [List.length_cons] at hfuel
      omega)
    simp only [vlcTeardownPool, hsome, hrest]
    rfl

theorem Chains.cleanup (h : Chains poolSize s pool queue) (htx : s.tx = .idle) (htimer : s.timer = .idle) :
    ∃ freed, s.cleanupModule = some (freed ++ [s.txPkt, 1]) ∧ freed.Perm (poolBuffers poolSize) := by
  have hexact := h.exact
  have hnodup := h.nodup
  rw [htx, writing, htimer] at hexact hnodup
  simp only [TxPc.held, List.append_nil] at hexact hnodup
  have hlen := hexact.length_eq
  rw [List.length_append, poolBuffers, List.length_range'] at hlen
  obtain ⟨u, hu, hchain, hfresh, htxPkt, hdummy⟩ := drainQueue_ok h.free h.queued hnodup
    (show queue.length < s.fresh + 1 by rw [h.fresh]; omega)
  have hfreed : u.vlcTeardownPool (u.fresh + 1) = some _ := vlcTeardownPool_ok hchain (by
    rw [List.length_append, List.length_reverse, hfresh, h.fresh]
    omega)
  refine ⟨queue.reverse ++ pool, ?_, ?_⟩
  · simp only [cleanupModule, hu, hfreed, htxPkt, hdummy, h.dummy, Option.bind_eq_bind, Option.bind_some]
    rfl
  · exact (List.perm_append_comm.trans (queue.reverse_perm.append_left pool)).trans hexact

/-! ## The global tx_pkt -/

/-- The timer handler takes a packet from the queue. -/
def TakesPacket (s : PoolDriver) : PoolAction → Prop
  | .timer => s.timer = .idle ∧ s.isWriteNext = true ∧ s.txQueue ≠ none
  | _ => False

instance (s : PoolDriver) (a : PoolAction) : Decidable (TakesPacket s a) := by
  cases a <;> unfold TakesPacket <;> infer_instance

theorem vlcTxStep_txPkt {skb : List UInt8} (h : s.vlcTxStep skb = some t) : t.txPkt = s.txPkt := by
  unfold vlcTxStep at h
  generalize s.tx = pc at h
  cases pc with
  | idle =>
    obtain ⟨⟨pkt, u⟩, hget, h⟩ := Option.bind_eq_some_iff.mp h
    obtain ⟨stopped, _, rfl⟩ := vlcGetTxBuffer_eq (toOption_eq_some.mp hget)
    cases h
    rfl
  | fill pkt skb' =>
    cases h
    rfl
  | enqueue pkt =>
    obtain ⟨u, hu, h⟩ := Option.bind_eq_some_iff.mp h
    cases h
    unfold vlcEnqueuePkt at hu
    split at hu
    · cases hu
      rfl
    · obtain ⟨last, _, hu⟩ := Option.bind_eq_some_iff.mp hu
      cases hu
      rfl

theorem timerStep_txPkt (h : ¬ TakesPacket s .timer) : (s.timerStep rs).txPkt = s.txPkt := by
  rcases htimer : s.timer with _ | _ | _ | _
  case idle =>
    rcases hnext : s.isWriteNext with _ | _
    case false =>
      simp only [timerStep, htimer, hnext]
      rfl
    case true =>
      have hnone : s.txQueue = none := by
        by_contra hsome
        exact h ⟨htimer, hnext, hsome⟩
      rw [timerStep_dummy htimer hnext hnone]
      rfl
  case write =>
    simp only [timerStep, htimer]
    rfl
  case release =>
    obtain ⟨stopped, heq⟩ := vlcReleaseBuffer_eq s s.txPkt
    simp only [timerStep, htimer, heq]
    rfl
  case publish =>
    simp only [timerStep, htimer]
    split <;> rfl

theorem step_txPkt {a : PoolAction} (h : ¬ TakesPacket s a) (hstep : poolStep rs s a = some t) :
    t.txPkt = s.txPkt := by
  cases a with
  | vlcTx skb => exact vlcTxStep_txPkt hstep
  | timer =>
    cases hstep
    exact timerStep_txPkt h
  | vlcOpen =>
    cases hstep
    rfl
  | vlcRelease =>
    cases hstep
    rfl
  | firmware pru =>
    cases hstep
    rfl

/-- What is taken from the queue is a buffer of the pool, not the one that `vlc_init` allocated. -/
theorem Chains.two_le_txPkt {a : PoolAction} (h : Chains poolSize s pool queue) (htakes : TakesPacket s a)
    (hstep : poolStep rs s a = some t) : 2 ≤ t.txPkt := by
  cases a with
  | vlcTx skb => exact htakes.elim
  | vlcOpen => exact htakes.elim
  | vlcRelease => exact htakes.elim
  | firmware pru => exact htakes.elim
  | timer =>
    obtain ⟨htimer, hnext, hsome⟩ := htakes
    obtain ⟨pkt, hqueue⟩ := Option.ne_none_iff_exists'.mp hsome
    cases hstep
    rw [timerStep_dequeue htimer hnext hqueue]
    have hchain := h.queued
    rw [hqueue] at hchain
    obtain ⟨rest, rfl, _⟩ := hchain.cases
    exact h.two_le (by simp)

/-- `tx_pkt` is still the first allocation exactly when no packet was taken from the queue. -/
theorem txPkt_eq_zero_iff {memory : ℕ → PacketData} {pru : Memory} {as : List PoolAction}
    (hrun : Run (poolStep rs) (vlcInit poolSize memory pru) as t) :
    t.txPkt = 0 ↔
      EveryStep (poolStep rs) (vlcInit poolSize memory pru) as fun s a => ¬ TakesPacket s a := by
  obtain ⟨pool, hinit⟩ := chains_init poolSize memory pru
  have h0 : (vlcInit poolSize memory pru).txPkt = 0 := by
    obtain ⟨next, pool, heq, _⟩ := setupOne_iterate poolSize { vlcInit 0 memory pru with ppool := none } rfl
    have hinit : vlcInit poolSize memory pru = _ := heq
    rw [hinit]
    rfl
  obtain ⟨n, ⟨_, hn⟩, hsteps⟩ := hrun.tally
    (I := fun n s => (∃ pool queue, Chains poolSize s pool queue) ∧ (n = 0 ↔ s.txPkt = 0))
    (w := fun s a => if TakesPacket s a then 1 else 0) ⟨⟨pool, [], hinit⟩, iff_of_true rfl h0⟩ (by
      rintro n s a u ⟨⟨pool, queue, hchains⟩, hn⟩ hstep
      refine ⟨hchains.step hstep, ?_⟩
      by_cases htakes : TakesPacket s a
      · have hge := hchains.two_le_txPkt htakes hstep
        rw [if_pos htakes]
        omega
      · rw [if_neg htakes, step_txPkt htakes hstep, Nat.add_zero, hn])
  rw [← hn, hsteps]
  simp only [EveryStep, ite_eq_right_iff, one_ne_zero, imp_false]

end

end PoolDriver

open PoolDriver

/-- Unloading frees every allocated buffer once. -/
def FreesEachOnce (s : PoolDriver) : Prop :=
  ∃ freed, s.cleanupModule = some freed ∧ ∀ a < s.fresh, freed.count a = 1

/-- A packet that is sent before the driver is unloaded. -/
def sentRun : List PoolAction :=
  [.vlcTx [1], .vlcTx [], .vlcTx [], .timer, .timer, .timer, .timer]

/-- The buffer that was sent is freed twice, and the first allocation is not freed. -/
theorem sent_buffer_freed_twice :
    let rs : ReedSolomon := ⟨fun _ par => par, fun _ block _ => (block, 0)⟩
    ∃ t, Run (poolStep rs) (vlcInit 1 (fun _ _ => 0) fun _ => 0) sentRun t ∧
      t.tx = .idle ∧ t.timer = .idle ∧ t.cleanupModule = some [2, 2, 1] ∧ ¬ FreesEachOnce t := by
  intro rs
  obtain ⟨t, ht⟩ : ∃ t, exec (poolStep rs) (vlcInit 1 (fun _ _ => 0) fun _ => 0) sentRun = some t := ⟨_, rfl⟩
  have hend : (exec (poolStep rs) (vlcInit 1 (fun _ _ => 0) fun _ => 0) sentRun).map
      (fun s => (s.tx, s.timer, s.cleanupModule, s.fresh)) = some (.idle, .idle, some [2, 2, 1], 3) := by
    decide +kernel
  rw [ht, Option.map_some, Option.some.injEq, Prod.mk.injEq, Prod.mk.injEq, Prod.mk.injEq] at hend
  obtain ⟨htx, htimer, hfreed, hfresh⟩ := hend
  refine ⟨t, run_of_exec ht, htx, htimer, hfreed, ?_⟩
  rintro ⟨freed, heq, honce⟩
  rw [hfreed] at heq
  cases heq
  exact absurd (honce 0 (by omega)) (by decide)

/-- **When every buffer is freed once.** No packet was taken from the queue before the driver is unloaded,
between two calls and two ticks. -/
theorem freesEachOnce_iff (rs : ReedSolomon) (poolSize : ℕ) (memory : ℕ → PacketData) (pru : Memory)
    (as : List PoolAction) (t : PoolDriver) (hrun : Run (poolStep rs) (vlcInit poolSize memory pru) as t)
    (htx : t.tx = .idle) (htimer : t.timer = .idle) :
    FreesEachOnce t ↔
      EveryStep (poolStep rs) (vlcInit poolSize memory pru) as fun s a => ¬ TakesPacket s a := by
  obtain ⟨pool, queue, h⟩ := chains_of_run hrun
  obtain ⟨freed, hfreed, hperm⟩ := h.cleanup htx htimer
  rw [← txPkt_eq_zero_iff hrun, FreesEachOnce, hfreed]
  constructor
  · rintro ⟨freed', heq, honce⟩
    cases heq
    by_contra hne
    have hzero := honce 0 (by rw [h.fresh]; omega)
    have hnot : 0 ∉ freed ++ [t.txPkt, 1] := by
      rw [List.mem_append, hperm.mem_iff, poolBuffers, List.mem_range'_1]
      simp only [List.mem_cons, List.not_mem_nil, or_false]
      omega
    rw [List.count_eq_zero_of_not_mem hnot] at hzero
    cases hzero
  · intro hzero
    refine ⟨_, rfl, fun a ha => ?_⟩
    rw [h.fresh] at ha
    have hall : (freed ++ [t.txPkt, 1]).Perm (List.range' 0 (poolSize + 2)) := by
      rw [hzero, Nat.add_comm, ← List.range'_append_1]
      exact (hperm.append_right _).trans List.perm_append_comm
    rw [hall.count_eq]
    exact List.count_eq_one_of_mem List.nodup_range' (List.mem_range'_1.mpr ⟨Nat.zero_le _, by omega⟩)

/-- A packet that still waits in the queue when the driver is unloaded. -/
theorem freesEachOnce_iff_unsent :
    let rs : ReedSolomon := ⟨fun _ par => par, fun _ block _ => (block, 0)⟩
    ∃ t, Run (poolStep rs) (vlcInit 1 (fun _ _ => 0) fun _ => 0) [.vlcTx [1], .vlcTx [], .vlcTx []] t ∧
      (FreesEachOnce t ↔ EveryStep (poolStep rs) (vlcInit 1 (fun _ _ => 0) fun _ => 0)
        [.vlcTx [1], .vlcTx [], .vlcTx []] fun s a => ¬ TakesPacket s a) := by
  intro rs
  obtain ⟨t, ht⟩ : ∃ t, exec (poolStep rs) (vlcInit 1 (fun _ _ => 0) fun _ => 0)
      [.vlcTx [1], .vlcTx [], .vlcTx []] = some t := ⟨_, rfl⟩
  have hend : (exec (poolStep rs) (vlcInit 1 (fun _ _ => 0) fun _ => 0) [.vlcTx [1], .vlcTx [], .vlcTx []]).map
      (fun s => (s.tx, s.timer)) = some (.idle, .idle) := rfl
  rw [ht, Option.map_some, Option.some.injEq, Prod.mk.injEq] at hend
  exact ⟨t, run_of_exec ht, freesEachOnce_iff rs 1 _ _ _ t (run_of_exec ht) hend.1 hend.2⟩

end CiotVlc.Kernel
