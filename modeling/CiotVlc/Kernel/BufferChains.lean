import CiotVlc.Kernel.BufferPool

/-! # The chains of buffers

In every reachable state the free list and the queue are two chains which, with the buffers in the hands of
`vlc_tx` and of the timer handler, hold every buffer of the pool once, and the packets in them follow the
written ones in the order of submission.
-/
namespace CiotVlc.Kernel
open Foundations.Bytes Foundations.Checked Foundations.LinkedQueue Foundations.Runs
set_option autoImplicit false

def poolBuffers (poolSize : ℕ) : List ℕ := List.range' 2 poolSize

/-- The buffer that `vlc_tx` is filling. -/
def TxPc.held : TxPc → List ℕ
  | .idle => []
  | .fill tmpPkt _ => [tmpPkt]
  | .enqueue tmpPkt => [tmpPkt]

namespace PoolDriver

/-- The buffer that the timer handler is writing out. -/
def writing (s : PoolDriver) : List ℕ :=
  match s.timer with
  | .write => [s.txPkt]
  | .release => [s.txPkt]
  | _ => []

/-- The packets between the written ones and the queue, and behind the queue. -/
def pending (s : PoolDriver) : List (List UInt8) :=
  match s.timer with
  | .write => [s.bytesOf s.txPkt]
  | _ => []

def filling (s : PoolDriver) : List (List UInt8) :=
  match s.tx with
  | .idle => []
  | .fill _ skb => [skb]
  | .enqueue tmpPkt => [s.bytesOf tmpPkt]

/-- `pool` and `queue` are the two chains. -/
structure Chains (poolSize : ℕ) (s : PoolDriver) (pool queue : List ℕ) : Prop where
  free : Chain s.next s.ppool pool
  queued : Chain s.next s.txQueue queue
  exact : (pool ++ queue ++ s.tx.held ++ s.writing).Perm (poolBuffers poolSize)
  fresh : s.fresh = poolSize + 2
  dummy : s.vlcQPkt = 1
  unlinked : ∀ tmpPkt, s.tx = .enqueue tmpPkt → s.next tmpPkt = none
  order : s.submitted = s.written ++ s.pending ++ queue.map s.bytesOf ++ s.filling

section
variable {rs : ReedSolomon} {poolSize : ℕ} {s t : PoolDriver} {pool queue : List ℕ}

theorem Chains.nodup (h : Chains poolSize s pool queue) : (pool ++ queue ++ s.tx.held ++ s.writing).Nodup :=
  h.exact.nodup_iff.mpr List.nodup_range'

theorem Chains.two_le (h : Chains poolSize s pool queue) {a : ℕ}
    (ha : a ∈ pool ++ queue ++ s.tx.held ++ s.writing) : 2 ≤ a :=
  (List.mem_range'_1.mp (h.exact.mem_iff.mp ha)).1

/-! ## Set-up -/

theorem setupOne_iterate (n : ℕ) (s : PoolDriver) (hpool : s.ppool = none) :
    ∃ next pool, setupOne^[n] s = { s with next, ppool := pool.head?, fresh := s.fresh + n } ∧
      Linked next pool ∧ pool.Perm (List.range' s.fresh n) := by
  induction n with
  | zero => exact ⟨s.next, [], by rw [Function.iterate_zero_apply, List.head?_nil, ← hpool]; rfl, trivial, .refl _⟩
  | succ n ih =>
    obtain ⟨next, pool, heq, hlinked, hperm⟩ := ih
    have hnew : s.fresh + n ∉ pool := by
      rw [hperm.mem_iff, List.mem_range'_1]
      omega
    have hchain := Chain.push ⟨rfl, hlinked⟩ hnew
    refine ⟨Function.update next (s.fresh + n) pool.head?, (s.fresh + n) :: pool, ?_, hchain.linked, ?_⟩
    · rw [Function.iterate_succ_apply', heq]
      rfl
    · rw [List.range'_1_concat]
      exact (hperm.cons _).trans (List.perm_append_singleton _ _).symm

theorem chains_init (poolSize : ℕ) (memory : ℕ → PacketData) (pru : Memory) :
    ∃ pool, Chains poolSize (vlcInit poolSize memory pru) pool [] := by
  obtain ⟨next, pool, heq, hlinked, hperm⟩ := setupOne_iterate poolSize
    { vlcInit 0 memory pru with ppool := none } rfl
  refine ⟨pool, ?_⟩
  have hinit : vlcInit poolSize memory pru = _ := heq
  rw [hinit]
  refine ⟨⟨rfl, hlinked⟩, chain_nil _, ?_, Nat.add_comm _ _, rfl, fun _ h => (by cases h), rfl⟩
  simpa [TxPc.held, writing, vlcInit, vlcSetupPool, poolBuffers] using hperm

/-! ## Operations of vlc_tx -/

theorem vlcGetTxBuffer_eq {pkt : ℕ} (h : s.vlcGetTxBuffer = .ok (pkt, t)) :
    ∃ stopped, s.ppool = some pkt ∧ t = { s with ppool := s.next pkt, stopped } := by
  unfold vlcGetTxBuffer at h
  split at h
  case h_1 => cases h
  case h_2 first hpool =>
    obtain ⟨rfl, rfl⟩ := Prod.mk.inj (Except.ok.inj h)
    split
    · exact ⟨true, hpool, rfl⟩
    · exact ⟨s.stopped, hpool, rfl⟩

theorem Chains.get (h : Chains poolSize s pool queue) (hidle : s.tx = .idle) {pkt : ℕ} (skb : List UInt8)
    (hget : s.vlcGetTxBuffer = .ok (pkt, t)) :
    ∃ pool', Chains poolSize { t with tx := .fill pkt skb, submitted := t.submitted ++ [skb] } pool' queue := by
  obtain ⟨stopped, hpool, rfl⟩ := vlcGetTxBuffer_eq hget
  have hfree := h.free
  rw [hpool] at hfree
  obtain ⟨rest, rfl, hrest⟩ := hfree.cases
  refine ⟨rest, hrest, h.queued, ?_, h.fresh, h.dummy, fun _ he => (by cases he), ?_⟩
  · refine List.Perm.trans ?_ h.exact
    rw [hidle]
    change (rest ++ queue ++ [pkt] ++ s.writing).Perm (pkt :: rest ++ queue ++ [] ++ s.writing)
    rw [List.append_nil]
    exact (List.perm_append_singleton pkt (rest ++ queue)).append_right _
  · have horder := h.order
    rw [filling, hidle, List.append_nil] at horder
    change s.submitted ++ [skb] = _
    rw [horder]
    rfl

/-! ## Frames -/

theorem bytesOf_congr {a : ℕ} (hdata : t.data a = s.data a) (hlen : t.datalen a = s.datalen a) :
    t.bytesOf a = s.bytesOf a := by
  rw [bytesOf, hdata, hlen, bytesOf]

theorem Chains.held_apart (h : Chains poolSize s pool queue) {a : ℕ} (ha : a ∈ s.tx.held) :
    a ∉ pool ∧ a ∉ queue ∧ a ∉ s.writing := by
  have hnodup := h.nodup
  have hfront := List.disjoint_of_nodup_append (List.Nodup.of_append_left hnodup)
  have hback := List.disjoint_of_nodup_append hnodup
  refine ⟨fun hp => hfront (List.mem_append_left _ hp) ha, fun hq => hfront (List.mem_append_right _ hq) ha,
    hback (List.mem_append_right _ ha)⟩

theorem Chains.writing_apart (h : Chains poolSize s pool queue) {a : ℕ} (ha : a ∈ s.writing) :
    a ∉ pool ∧ a ∉ queue ∧ a ∉ s.tx.held := by
  have hback : a ∉ pool ++ queue ++ s.tx.held := fun hf => List.disjoint_of_nodup_append h.nodup hf ha
  simp only [List.mem_append, not_or] at hback
  exact ⟨hback.1.1, hback.1.2, hback.2⟩

theorem pending_congr (htimer : t.timer = s.timer) (hpkt : t.txPkt = s.txPkt)
    (hbytes : ∀ a ∈ s.writing, t.bytesOf a = s.bytesOf a) : t.pending = s.pending := by
  unfold pending
  rw [htimer, hpkt]
  rcases htimer' : s.timer with _ | _ | _ | _
  · rfl
  · exact congrArg (fun b => [b]) (hbytes s.txPkt (by rw [writing, htimer']; exact List.mem_singleton_self _))
  · rfl
  · rfl

theorem filling_congr (htx : t.tx = s.tx) (hbytes : ∀ a ∈ s.tx.held, t.bytesOf a = s.bytesOf a) :
    t.filling = s.filling := by
  unfold filling
  rw [htx]
  rcases htx' : s.tx with _ | ⟨tmpPkt, skb⟩ | tmpPkt
  · rfl
  · rfl
  · exact congrArg (fun b => [b]) (hbytes tmpPkt (by rw [htx']; exact List.mem_singleton_self _))

theorem Chains.frame (h : Chains poolSize s pool queue) (hnext : t.next = s.next) (hppool : t.ppool = s.ppool)
    (hqueue : t.txQueue = s.txQueue) (htx : t.tx = s.tx) (hfresh : t.fresh = s.fresh)
    (hdummy : t.vlcQPkt = s.vlcQPkt) (hsubmitted : t.submitted = s.submitted) (hwritten : t.written = s.written)
    (hwriting : t.writing = s.writing) (hpending : t.pending = s.pending)
    (hdata : ∀ a, 2 ≤ a → t.data a = s.data a) (hlen : t.datalen = s.datalen) : Chains poolSize t pool queue := by
  have hbytes : ∀ a, 2 ≤ a → t.bytesOf a = s.bytesOf a := fun a ha => bytesOf_congr (hdata a ha) (by rw [hlen])
  refine ⟨?_, ?_, ?_, hfresh.trans h.fresh, hdummy.trans h.dummy, ?_, ?_⟩
  · rw [hnext, hppool]
    exact h.free
  · rw [hnext, hqueue]
    exact h.queued
  · rw [htx, hwriting]
    exact h.exact
  · rw [hnext, htx]
    exact h.unlinked
  · have hmap : queue.map t.bytesOf = queue.map s.bytesOf :=
      List.map_congr_left fun a ha => hbytes a (h.two_le (by simp [ha]))
    have hfill : t.filling = s.filling := filling_congr htx fun a ha => hbytes a (h.two_le (by simp [ha]))
    rw [hsubmitted, hwritten, hpending, hmap, hfill]
    exact h.order

/-! ## Filling and enqueueing -/

theorem Chains.fill (h : Chains poolSize s pool queue) {pkt : ℕ} {skb : List UInt8} (htx : s.tx = .fill pkt skb) :
    Chains poolSize { s with
      tx := .enqueue pkt
      next := Function.update s.next pkt none
      datalen := Function.update s.datalen pkt skb.length
      data := Function.update s.data pkt (store (s.data pkt) 0 skb) } pool queue := by
  obtain ⟨hpool, hqueue, hwriting⟩ := h.held_apart (a := pkt) (by rw [htx]; exact List.mem_singleton_self _)
  set t : PoolDriver := { s with
      tx := .enqueue pkt
      next := Function.update s.next pkt none
      datalen := Function.update s.datalen pkt skb.length
      data := Function.update s.data pkt (store (s.data pkt) 0 skb) } with ht
  have hbytes : ∀ a, a ≠ pkt → t.bytesOf a = s.bytesOf a := fun a ha =>
    bytesOf_congr (Function.update_of_ne ha _ _) (Function.update_of_ne ha _ _)
  have hself : t.bytesOf pkt = skb := by
    simp only [bytesOf, ht, Function.update_self]
    exact image_store _ 0 skb
  refine ⟨h.free.update hpool none, h.queued.update hqueue none, ?_, h.fresh, h.dummy, ?_, ?_⟩
  · have hexact := h.exact
    rw [htx] at hexact
    exact hexact
  · intro tmpPkt he
    cases he
    exact Function.update_self _ _ _
  · have hmap : queue.map t.bytesOf = queue.map s.bytesOf :=
      List.map_congr_left fun a ha => hbytes a (ne_of_mem_of_not_mem ha hqueue)
    have hpend : t.pending = s.pending :=
      pending_congr rfl rfl fun a ha => hbytes a (ne_of_mem_of_not_mem ha hwriting)
    have hfill : t.filling = s.filling := by
      simp only [filling, ht, htx]
      exact congrArg (fun b => [b]) hself
    rw [hmap, hpend, hfill]
    exact h.order

/-- The walk reaches the end of the queue, and the buffer is linked behind it. -/
theorem Chains.enqueue (h : Chains poolSize s pool queue) {pkt : ℕ} (htx : s.tx = .enqueue pkt) :
    ∃ u, s.vlcEnqueuePkt pkt = some u ∧ Chains poolSize { u with tx := .idle } pool (queue ++ [pkt]) := by
  obtain ⟨hpool, hqueue, hwriting⟩ := h.held_apart (a := pkt) (by rw [htx]; exact List.mem_singleton_self _)
  have hend := h.unlinked pkt htx
  have hexact : (pool ++ (queue ++ [pkt]) ++ TxPc.idle.held ++ s.writing).Perm (poolBuffers poolSize) := by
    have hexact := h.exact
    rw [htx] at hexact
    simpa [TxPc.held] using hexact
  have horder : s.submitted = s.written ++ s.pending ++ (queue ++ [pkt]).map s.bytesOf ++ [] := by
    have horder := h.order
    simp only [filling, htx] at horder
    simpa using horder
  have hlen : queue.length < s.fresh := by
    have hlength := hexact.length_eq
    simp only [List.length_append, poolBuffers, List.length_range'] at hlength
    rw [h.fresh]
    omega
  rcases hfirst : s.txQueue with _ | first
  · have hnil := h.queued
    rw [hfirst] at hnil
    obtain rfl := hnil.eq_nil
    refine ⟨{ s with txQueue := some pkt }, by rw [vlcEnqueuePkt, hfirst], h.free, ⟨rfl, linked_singleton hend⟩,
      hexact, h.fresh, h.dummy, fun _ he => (by cases he), horder⟩
  · have hchain := h.queued
    rw [hfirst] at hchain
    have hchains : (pool ++ queue).Nodup := List.Nodup.of_append_left (List.Nodup.of_append_left h.nodup)
    obtain ⟨last, hmem, hlast, hlonger⟩ :=
      hchain.append (List.Nodup.of_append_right hchains) hend hqueue (le_of_lt hlen)
    have hnotpool : last ∉ pool := fun hp => List.disjoint_of_nodup_append hchains hp hmem
    refine ⟨{ s with next := Function.update s.next last (some pkt) }, ?_, h.free.update hnotpool _, ?_,
      hexact, h.fresh, h.dummy, fun _ he => (by cases he), horder⟩
    · rw [vlcEnqueuePkt, hfirst]
      simp only [hlast]
      rfl
    · rw [← hfirst] at hlonger
      exact hlonger

/-! ## Operations of the timer handler -/

theorem Chains.dequeue (h : Chains poolSize s pool queue) (htimer : s.timer = .idle) {pkt : ℕ}
    (hqueue : s.txQueue = some pkt) :
    ∃ rest, Chains poolSize
      { s with
        writeIdx := load s.pru writeIdxOffset 2, txQueue := s.next pkt, txPkt := pkt, timer := .write }
      pool rest := by
  have hchain := h.queued
  rw [hqueue] at hchain
  obtain ⟨rest, rfl, hrest⟩ := hchain.cases
  have hexact := h.exact
  have horder := h.order
  rw [writing, htimer] at hexact
  rw [pending, htimer] at horder
  refine ⟨rest, h.free, hrest, ?_, h.fresh, h.dummy, h.unlinked, ?_⟩
  · refine List.Perm.trans ?_ hexact
    simp only [writing, List.append_nil, List.append_assoc]
    refine List.Perm.append_left pool ?_
    rw [List.cons_append, ← List.append_assoc]
    exact List.perm_append_singleton pkt _
  · have hmoved : s.submitted = s.written ++ [s.bytesOf pkt] ++ rest.map s.bytesOf ++ s.filling := by
      simpa using horder
    exact hmoved

theorem Chains.writeDummy (h : Chains poolSize s pool queue) (htimer : s.timer = .idle) :
    Chains poolSize (({ s with writeIdx := load s.pru writeIdxOffset 2 }.writePacket rs s.vlcQPkt).finishWrite)
      pool queue := by
  refine h.frame rfl rfl rfl rfl rfl rfl rfl rfl ?_ ?_ (fun a ha => Function.update_of_ne ?_ _ _) rfl
  · simp [writing, htimer, finishWrite]
  · simp [pending, htimer, finishWrite]
  · rw [h.dummy]
    omega

/-- The packet is written out with the bytes that were submitted; the parity changes the buffer. -/
theorem Chains.write (h : Chains poolSize s pool queue) (htimer : s.timer = .write) :
    Chains poolSize { s.writePacket rs s.txPkt with written := s.written ++ [s.bytesOf s.txPkt], timer := .release }
      pool queue := by
  obtain ⟨hpool, hqueue, hheld⟩ := h.writing_apart (a := s.txPkt) (by
    rw [writing, htimer]
    exact List.mem_singleton_self _)
  set t : PoolDriver :=
    { s.writePacket rs s.txPkt with written := s.written ++ [s.bytesOf s.txPkt], timer := .release } with ht
  have hbytes : ∀ a, a ≠ s.txPkt → t.bytesOf a = s.bytesOf a := fun a ha =>
    bytesOf_congr (Function.update_of_ne ha _ _) rfl
  refine ⟨h.free, h.queued, ?_, h.fresh, h.dummy, h.unlinked, ?_⟩
  · have hexact := h.exact
    rw [writing, htimer] at hexact
    exact hexact
  · have hmap : queue.map t.bytesOf = queue.map s.bytesOf :=
      List.map_congr_left fun a ha => hbytes a (ne_of_mem_of_not_mem ha hqueue)
    have hfill : t.filling = s.filling := filling_congr rfl fun a ha => hbytes a (ne_of_mem_of_not_mem ha hheld)
    have horder := h.order
    rw [pending, htimer] at horder
    have hmoved : s.submitted = s.written ++ [s.bytesOf s.txPkt] ++ [] ++ queue.map s.bytesOf ++ s.filling := by
      simpa using horder
    rw [hmap, hfill]
    exact hmoved

theorem vlcReleaseBuffer_eq (s : PoolDriver) (pkt : ℕ) : ∃ stopped, s.vlcReleaseBuffer pkt =
    { s with next := Function.update s.next pkt s.ppool, ppool := some pkt, stopped } := by
  unfold vlcReleaseBuffer
  dsimp only
  split
  · exact ⟨false, rfl⟩
  · exact ⟨s.stopped, rfl⟩

theorem Chains.release (h : Chains poolSize s pool queue) (htimer : s.timer = .release) :
    Chains poolSize (s.vlcReleaseBuffer s.txPkt).finishWrite (s.txPkt :: pool) queue := by
  obtain ⟨hpool, hqueue, hheld⟩ := h.writing_apart (a := s.txPkt) (by
    rw [writing, htimer]
    exact List.mem_singleton_self _)
  obtain ⟨stopped, heq⟩ := vlcReleaseBuffer_eq s s.txPkt
  rw [heq]
  refine ⟨h.free.push hpool, h.queued.update hqueue _, ?_, h.fresh, h.dummy, fun tmpPkt htx => ?_, ?_⟩
  · have hexact := h.exact
    rw [writing, htimer] at hexact
    refine List.Perm.trans ?_ hexact
    simp only [writing, finishWrite, List.append_nil, List.cons_append]
    exact (List.perm_append_singleton _ _).symm
  · have hne : tmpPkt ≠ s.txPkt := by
      rintro rfl
      have htx' : s.tx = .enqueue s.txPkt := htx
      exact hheld (by rw [htx']; exact List.mem_singleton_self _)
    exact (Function.update_of_ne hne _ _).trans (h.unlinked tmpPkt htx)
  · have horder := h.order
    rw [pending, htimer] at horder
    exact horder

theorem timerStep_dummy (htimer : s.timer = .idle) (hnext : s.isWriteNext = true) (hqueue : s.txQueue = none) :
    s.timerStep rs = ({ s with writeIdx := load s.pru writeIdxOffset 2 }.writePacket rs s.vlcQPkt).finishWrite := by
  simp only [PoolDriver.timerStep, vlcDequeuePkt, htimer, hnext, hqueue, if_true]

theorem timerStep_dequeue (htimer : s.timer = .idle) (hnext : s.isWriteNext = true) {pkt : ℕ}
    (hqueue : s.txQueue = some pkt) : s.timerStep rs =
      { s with writeIdx := load s.pru writeIdxOffset 2, txQueue := s.next pkt, txPkt := pkt, timer := .write } := by
  simp only [PoolDriver.timerStep, vlcDequeuePkt, htimer, hnext, hqueue, if_true]

theorem Chains.timerStep (h : Chains poolSize s pool queue) :
    ∃ pool' queue', Chains poolSize (s.timerStep rs) pool' queue' := by
  rcases htimer : s.timer with _ | _ | _ | _
  case idle =>
    rcases hnext : s.isWriteNext with _ | _
    case false =>
      simp only [PoolDriver.timerStep, htimer, hnext]
      refine ⟨pool, queue, h.frame rfl rfl rfl rfl rfl rfl rfl rfl ?_ ?_ (fun _ _ => rfl) rfl⟩
      · simp [writing, htimer]
      · simp [pending, htimer]
    case true =>
      rcases hqueue : s.txQueue with _ | pkt
      · rw [timerStep_dummy htimer hnext hqueue]
        exact ⟨pool, queue, h.writeDummy htimer⟩
      · obtain ⟨rest, hrest⟩ := h.dequeue htimer hqueue
        rw [timerStep_dequeue htimer hnext hqueue]
        exact ⟨pool, rest, hrest⟩
  case write =>
    simp only [PoolDriver.timerStep, htimer]
    exact ⟨pool, queue, h.write htimer⟩
  case release =>
    simp only [PoolDriver.timerStep, htimer]
    exact ⟨s.txPkt :: pool, queue, h.release htimer⟩
  case publish =>
    simp only [PoolDriver.timerStep, htimer]
    split
    all_goals
      refine ⟨pool, queue, h.frame rfl rfl rfl rfl rfl rfl rfl rfl ?_ ?_ (fun _ _ => rfl) rfl⟩
      · simp [writing, htimer]
      · simp [pending, htimer]

theorem Chains.vlcTxStep {skb : List UInt8} (h : Chains poolSize s pool queue) (hstep : s.vlcTxStep skb = some t) :
    ∃ pool' queue', Chains poolSize t pool' queue' := by
  unfold PoolDriver.vlcTxStep at hstep
  generalize htx : s.tx = pc at hstep
  cases pc with
  | idle =>
    obtain ⟨⟨pkt, u⟩, hget, hstep⟩ := Option.bind_eq_some_iff.mp hstep
    cases hstep
    obtain ⟨pool', hpool⟩ := h.get htx skb (toOption_eq_some.mp hget)
    exact ⟨pool', queue, hpool⟩
  | fill pkt skb' =>
    cases hstep
    exact ⟨pool, queue, h.fill htx⟩
  | enqueue pkt =>
    obtain ⟨u, hu, hchains⟩ := h.enqueue htx
    simp only [hu] at hstep
    cases hstep
    exact ⟨pool, queue ++ [pkt], hchains⟩

/-- **Every step keeps the chains.** -/
theorem Chains.step {a : PoolAction} (h : Chains poolSize s pool queue) (hstep : poolStep rs s a = some t) :
    ∃ pool' queue', Chains poolSize t pool' queue' := by
  cases a with
  | vlcTx skb => exact h.vlcTxStep hstep
  | timer =>
    cases hstep
    exact h.timerStep
  | vlcOpen =>
    cases hstep
    exact ⟨pool, queue, h.frame rfl rfl rfl rfl rfl rfl rfl rfl rfl rfl (fun _ _ => rfl) rfl⟩
  | vlcRelease =>
    cases hstep
    exact ⟨pool, queue, h⟩
  | firmware pru =>
    cases hstep
    exact ⟨pool, queue, h.frame rfl rfl rfl rfl rfl rfl rfl rfl rfl rfl (fun _ _ => rfl) rfl⟩

theorem chains_of_run {memory : ℕ → PacketData} {pru : Memory} {as : List PoolAction}
    (hrun : Run (poolStep rs) (vlcInit poolSize memory pru) as t) : ∃ pool queue, Chains poolSize t pool queue := by
  obtain ⟨pool, hinit⟩ := chains_init poolSize memory pru
  refine hrun.invariant (P := fun s => ∃ pool queue, Chains poolSize s pool queue) ⟨pool, [], hinit⟩ ?_
  rintro s a u ⟨pool, queue, h⟩ hstep
  exact h.step hstep

end

/-- The buffers are in two chains and two hands, each in one place, and hold the packets that are submitted and not
yet written, in order and with their bytes; the walk of `vlc_enqueue_pkt` ends; and the packets from the queue are
written out in the order of submission. -/
structure Intact (poolSize : ℕ) (s : PoolDriver) : Prop where
  chains : ∃ pool queue, Chain s.next s.ppool pool ∧ Chain s.next s.txQueue queue ∧
    (pool ++ queue ++ s.tx.held ++ s.writing).Nodup ∧
    (pool ++ queue ++ s.tx.held ++ s.writing).Perm (poolBuffers poolSize) ∧
    s.submitted = s.written ++ s.pending ++ queue.map s.bytesOf ++ s.filling
  enqueues : ∀ tmpPkt, s.tx = .enqueue tmpPkt → (s.vlcEnqueuePkt tmpPkt).isSome
  inOrder : s.written <+: s.submitted

theorem Chains.intact {poolSize : ℕ} {s : PoolDriver} {pool queue : List ℕ} (h : Chains poolSize s pool queue) :
    Intact poolSize s where
  chains := ⟨pool, queue, h.free, h.queued, h.nodup, h.exact, h.order⟩
  enqueues := by
    intro tmpPkt htx
    obtain ⟨u, hu, _⟩ := h.enqueue htx
    rw [hu]
    rfl
  inOrder := by
    rw [h.order, List.append_assoc, List.append_assoc]
    exact List.prefix_append _ _

end PoolDriver

open PoolDriver

/-- **No buffer is lost and no packet reordered**, in any state that the driver reaches. -/
theorem buffers_intact (rs : ReedSolomon) (poolSize : ℕ) (memory : ℕ → PacketData) (pru : Memory)
    (as : List PoolAction) (t : PoolDriver) (hrun : Run (poolStep rs) (vlcInit poolSize memory pru) as t) :
    Intact poolSize t := by
  obtain ⟨pool, queue, h⟩ := chains_of_run hrun
  exact h.intact

/-- Two packets, the first of which is being written out while the second is filled in. -/
theorem buffers_intact_two_packets :
    let rs : ReedSolomon := ⟨fun _ par => par, fun _ block _ => (block, 0)⟩
    ∃ t, Run (poolStep rs) (vlcInit 2 (fun _ _ => 0) fun _ => 0)
      [.vlcTx [1], .vlcTx [], .vlcTx [], .timer, .vlcTx [2], .timer] t ∧ Intact 2 t := by
  intro rs
  obtain ⟨t, ht⟩ : ∃ t, exec (poolStep rs) (vlcInit 2 (fun _ _ => 0) fun _ => 0)
      [.vlcTx [1], .vlcTx [], .vlcTx [], .timer, .vlcTx [2], .timer] = some t := ⟨_, rfl⟩
  exact ⟨t, run_of_exec ht, buffers_intact rs 2 _ _ _ t (run_of_exec ht)⟩

end CiotVlc.Kernel
