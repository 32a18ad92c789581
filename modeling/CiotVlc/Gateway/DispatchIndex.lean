import CiotVlc.Gateway.Dispatch

/-! # Which entry a dispatch writes

The dispatcher derives the index into `pkt_state` from its own counter, which also advances when the
queue was empty. Two invariants hold in every interleaving. `Shape`: each node queue is a list of
its own cells. `Counts`: these cells carry consecutive numbers, `arr_seq` continues them, and
`unsched_seq` is ahead of the first one by the number of passes that found the queue empty.
-/
namespace CiotVlc.Gateway
open Foundations.Bytes Foundations.Checked Foundations.Runs
set_option autoImplicit false

/-! ## Consecutive numbers -/

/-- `n` consecutive sequence numbers from `start` on. -/
def numbered (start n : ℕ) : List ℕ := (List.range n).map fun j => (start + j) % maxSeqNumber

theorem numbered_succ (start n : ℕ) :
    numbered start (n + 1) = numbered start n ++ [(start + n) % maxSeqNumber] := by
  rw [numbered, List.range_succ, List.map_append]
  rfl

theorem numbered_cons (start n : ℕ) :
    numbered start (n + 1) = start % maxSeqNumber :: numbered (start + 1) n := by
  rw [numbered, List.range_succ_eq_map, List.map_cons, List.map_map, Nat.add_zero]
  congr 1
  apply List.map_congr_left
  intro j _
  simp only [Function.comp_apply]
  congr 1
  omega

theorem nextSeq_natCast (n : ℕ) :
    nextSeq ((n % maxSeqNumber : ℕ) : ℤ) = (((n + 1) % maxSeqNumber : ℕ) : ℤ) := by
  unfold nextSeq
  rw [Int.tmod_eq_emod_of_nonneg (by omega)]
  simp only [maxSeqNumber]
  omega

theorem toNat_seqNumber (n : ℕ) :
    (seqField ((n % maxSeqNumber : ℕ) : ℤ)).toNat = n % maxSeqNumber := by
  have hlt : n % maxSeqNumber < maxSeqNumber := Nat.mod_lt _ (by decide)
  simp only [maxSeqNumber] at hlt ⊢
  rw [seqField, UInt32.toNat_ofNat', ofInt32]
  omega

/-! ## The invariants -/

/-- The last cell of a queue lies outside the node queues. -/
def TailOutside (fresh : ℕ) (queues : ℕ → List ℕ) (q : PacketQueue) : Prop :=
  q.size ≠ 0 → ∃ t, q.tail = some t ∧ t < fresh ∧ ∀ i, t ∉ queues i

/-- The queue of node `i` holds the cells `queues i`. -/
structure Shape (cfg : Config) (g : Globals) (queues : ℕ → List ℕ) : Prop where
  holds : ∀ i, QueueHolds g.heap.next (g.nodeQueues i) (queues i)
  limit : ∀ i, (g.nodeQueues i).limit = (constructQueue cfg.nodeQueueSize).limit
  live : ∀ i, ∀ a ∈ queues i, a < g.heap.fresh
  disjoint : ∀ i j, i ≠ j → ∀ a ∈ queues i, a ∉ queues j
  rfTail : TailOutside g.heap.fresh queues g.rfQueue
  vlcTail : TailOutside g.heap.fresh queues g.vlcQueue

/-- `popped i` packets of node `i` have left its queue, and `empty i` passes have found it empty. -/
structure Counts (g : Globals) (empty : ℕ → ℕ) (queues : ℕ → List ℕ) (popped : ℕ → ℕ) : Prop where
  gn : ∀ i, g.gn i = (queues i).length
  seq : ∀ i, (queues i).map (fun a => (g.heap.data a).seqNumber.toNat) =
    numbered (popped i) (queues i).length
  arr : ∀ i, g.status.arrSeq i = (((popped i + (queues i).length) % maxSeqNumber : ℕ) : ℤ)
  unsched : ∀ i, g.status.unschedSeq i = (((popped i + empty i) % maxSeqNumber : ℕ) : ℤ)

theorem shape_initial (cfg : Config) : Shape cfg (initialGlobals cfg) (fun _ => []) where
  holds := fun _ => queueHolds_construct _ _
  limit := fun _ => rfl
  live := fun _ _ ha => absurd ha List.not_mem_nil
  disjoint := fun _ _ _ _ ha => absurd ha List.not_mem_nil
  rfTail := fun h => absurd rfl h
  vlcTail := fun h => absurd rfl h

theorem counts_initial (cfg : Config) :
    Counts (initialGlobals cfg) (fun _ => 0) (fun _ => []) (fun _ => 0) where
  gn := fun _ => rfl
  seq := fun _ => rfl
  arr := fun _ => rfl
  unsched := fun _ => rfl

section
variable {cfg : Config} {g : Globals} {empty : ℕ → ℕ} {queues : ℕ → List ℕ} {popped : ℕ → ℕ}

theorem TailOutside.mono {fresh fresh' : ℕ} {queues' : ℕ → List ℕ} {q : PacketQueue}
    (h : TailOutside fresh queues q) (hf : fresh ≤ fresh')
    (hq : ∀ i, ∀ a ∈ queues' i, a ∈ queues i ∨ fresh ≤ a) : TailOutside fresh' queues' q := by
  intro hne
  obtain ⟨t, ht, hlt, hout⟩ := h hne
  refine ⟨t, ht, by omega, fun i hi => ?_⟩
  rcases hq i t hi with hi | hge
  · exact hout i hi
  · omega

/-! ## Generating -/

def joined (queues : ℕ → List ℕ) (i a : ℕ) : ℕ → List ℕ := Function.update queues i (queues i ++ [a])

theorem joined_self (queues : ℕ → List ℕ) (i a : ℕ) : joined queues i a i = queues i ++ [a] :=
  Function.update_self _ _ _

theorem joined_of_ne {i j : ℕ} (queues : ℕ → List ℕ) (a : ℕ) (h : j ≠ i) : joined queues i a j = queues j :=
  Function.update_of_ne h _ _

theorem mem_joined {i a j b : ℕ} (h : b ∈ joined queues i a j) : b ∈ queues j ∨ b = a ∧ j = i := by
  by_cases hj : j = i
  · subst hj
    rw [joined_self, List.mem_append, List.mem_singleton] at h
    exact h.imp_right fun he => ⟨he, rfl⟩
  · rw [joined_of_ne queues a hj] at h
    exact Or.inl h

theorem Shape.join (h : Shape cfg g queues) {i : ℕ} {heap : Heap} {q : PacketQueue}
    (hfresh : heap.fresh = g.heap.fresh + 1) (hlimit : q.limit = (g.nodeQueues i).limit)
    (hq : QueueHolds heap.next q (queues i ++ [g.heap.fresh]))
    (hframe : ∀ a, a ≠ g.heap.fresh → a ∉ queues i → heap.next a = g.heap.next a) :
    Shape cfg (g.setNodeQueue i heap q) (joined queues i g.heap.fresh) := by
  have hnew : ∀ j, g.heap.fresh ∉ queues j := fun j hj => absurd (h.live j _ hj) (lt_irrefl _)
  have hout : ∀ j, ∀ a ∈ joined queues i g.heap.fresh j, a ∈ queues j ∨ g.heap.fresh ≤ a :=
    fun j a ha => (mem_joined ha).imp_right fun he => he.1.symm.le
  refine ⟨fun j => ?_, fun j => ?_, fun j a ha => ?_, fun j k hjk a ha hk => ?_, ?_, ?_⟩
  · change QueueHolds heap.next (Function.update g.nodeQueues i q j) _
    by_cases hj : j = i
    · subst hj
      rw [Function.update_self, joined_self]
      exact hq
    · rw [Function.update_of_ne hj, joined_of_ne _ _ hj]
      exact (h.holds j).congr fun a ha =>
        hframe a (ne_of_mem_of_not_mem ha (hnew j)) (h.disjoint j i hj a ha)
  · change (Function.update g.nodeQueues i q j).limit = _
    by_cases hj : j = i
    · subst hj
      rw [Function.update_self, hlimit, h.limit]
    · rw [Function.update_of_ne hj, h.limit]
  · change a < heap.fresh
    rcases mem_joined ha with hj | ⟨rfl, _⟩
    · have := h.live j a hj
      omega
    · omega
  · rcases mem_joined ha with hj | ⟨rfl, rfl⟩
    · rcases mem_joined hk with hk | ⟨rfl, rfl⟩
      · exact h.disjoint j k hjk a hj hk
      · exact hnew j hj
    · rcases mem_joined hk with hk | ⟨_, rfl⟩
      · exact hnew k hk
      · exact hjk rfl
  · exact h.rfTail.mono (show g.heap.fresh ≤ heap.fresh by omega) hout
  · exact h.vlcTail.mono (show g.heap.fresh ≤ heap.fresh by omega) hout

theorem Counts.join (h : Counts g empty queues popped) {i a : ℕ} {heap : Heap} {q : PacketQueue}
    (hold : ∀ j, ∀ b ∈ queues j, heap.data b = g.heap.data b)
    (hnew : (heap.data a).seqNumber = seqField (g.status.arrSeq i)) :
    Counts ((g.setNodeQueue i heap q).countGenerated i) empty (joined queues i a) popped := by
  have hsame : ∀ j, (queues j).map (fun b => (heap.data b).seqNumber.toNat) =
      numbered (popped j) (queues j).length := by
    intro j
    rw [← h.seq j]
    exact List.map_congr_left fun b hb => by rw [hold j b hb]
  refine ⟨fun j => ?_, fun j => ?_, fun j => ?_, h.unsched⟩
  · change Function.update g.gn i (g.gn i + 1) j = _
    by_cases hj : j = i
    · subst hj
      rw [Function.update_self, joined_self, h.gn, List.length_append, List.length_singleton]
      rfl
    · rw [Function.update_of_ne hj, joined_of_ne _ _ hj, h.gn]
  · change (joined queues i a j).map (fun b => (heap.data b).seqNumber.toNat) = _
    by_cases hj : j = i
    · subst hj
      rw [joined_self, List.map_append, hsame, List.length_append, List.length_singleton, numbered_succ,
        List.map_singleton, hnew, h.arr, toNat_seqNumber]
    · rw [joined_of_ne _ _ hj, hsame]
  · change Function.update g.status.arrSeq i (nextSeq (g.status.arrSeq i)) j = _
    by_cases hj : j = i
    · subst hj
      rw [Function.update_self, joined_self, h.arr, nextSeq_natCast, List.length_append,
        List.length_singleton, Nat.add_assoc]
    · rw [Function.update_of_ne hj, joined_of_ne _ _ hj, h.arr]

theorem generateOne_ok (hs : Shape cfg g queues) (hc : Counts g empty queues popped) (i : ℕ)
    (payload : Payload) (hroom : ((queues i).length : ℤ) < (constructQueue cfg.nodeQueueSize).limit) :
    ∃ g', generateOne g i payload = .ok g' ∧ Shape cfg g' (joined queues i g.heap.fresh) ∧
      Counts g' empty (joined queues i g.heap.fresh) popped := by
  set heap1 := (generateRandomNode g.heap (i + 1) payload).2.setSeqNumber g.heap.fresh
    (seqField (g.status.arrSeq i)) with hheap1
  have hnew : ∀ j, g.heap.fresh ∉ queues j := fun j hj => absurd (hs.live j _ hj) (lt_irrefl _)
  have hold : ∀ j, ∀ b ∈ queues j, heap1.data b = g.heap.data b := by
    intro j b hb
    have hne := ne_of_mem_of_not_mem hb (hnew j)
    simp only [hheap1, Heap.setSeqNumber, generateRandomNode, Heap.alloc]
    rw [Function.update_of_ne hne, Function.update_of_ne hne]
  have hseq : (heap1.data g.heap.fresh).seqNumber = seqField (g.status.arrSeq i) := by
    simp only [hheap1, Heap.setSeqNumber, Function.update_self]
  obtain ⟨heap2, q, hpush, hlimit, hdata, hfresh, hq, hframe⟩ :=
    @push_ok heap1 _ _ _ (hs.holds i) (by rw [hs.limit]; exact hroom) (hnew i)
  refine ⟨(g.setNodeQueue i heap2 q).countGenerated i, ?_, ?_, ?_⟩
  · change (push heap1 (g.nodeQueues i) g.heap.fresh >>= _) = _
    rw [hpush]
    rfl
  · have hshape := hs.join hfresh hlimit hq hframe
    exact ⟨hshape.holds, hshape.limit, hshape.live, hshape.disjoint, hshape.rfTail, hshape.vlcTail⟩
  · exact hc.join (fun j b hb => by rw [hdata, hold j b hb]) (by rw [hdata, hseq])

theorem generateMany_ok (payloads : List Payload) {g : Globals} {queues : ℕ → List ℕ}
    (hs : Shape cfg g queues) (hc : Counts g empty queues popped) (i : ℕ)
    (hroom : ((queues i).length + payloads.length : ℤ) ≤ (constructQueue cfg.nodeQueueSize).limit) :
    ∃ g' queues', generateMany i payloads g = .ok g' ∧ Shape cfg g' queues' ∧
      Counts g' empty queues' popped ∧
      ∀ j, (queues' j).length = (queues j).length + if j = i then payloads.length else 0 := by
  induction payloads generalizing g queues with
  | nil => exact ⟨g, queues, rfl, hs, hc, by simp⟩
  | cons payload payloads ih =>
    rw [List.length_cons] at hroom
    push_cast at hroom
    obtain ⟨g1, hone, hs1, hc1⟩ := generateOne_ok hs hc i payload (by omega)
    obtain ⟨g2, queues2, hmany, hs2, hc2, hlen⟩ := ih hs1 hc1 (by
      rw [joined_self, List.length_append, List.length_singleton]
      push_cast
      omega)
    refine ⟨g2, queues2, by rw [generateMany, hone, ok_bind, hmany], hs2, hc2, fun j => ?_⟩
    rw [hlen]
    by_cases hj : j = i
    · subst hj
      rw [joined_self, if_pos rfl, if_pos rfl, List.length_append, List.length_singleton, List.length_cons]
      omega
    · rw [joined_of_ne _ _ hj, if_neg hj, if_neg hj]

/-- How many packets a pass generates for node `i`: all of them, if there is room for them. -/
def generated (cfg : Config) (g : Globals) (i : ℕ) : ℕ :=
  if g.gn i + cfg.generatedPackets < cfg.nodeQueueSize then cfg.generatedPackets else 0

/-- **generate_packet keeps both invariants**: no push on a node queue is refused. -/
theorem generatePacket_ok (hs : Shape cfg g queues) (hc : Counts g empty queues popped) (i : ℕ)
    (payloads : ℕ → Payload) :
    ∃ g' queues', generatePacket cfg g i payloads = .ok g' ∧ Shape cfg g' queues' ∧
      Counts g' empty queues' popped ∧
      ∀ j, (queues' j).length = (queues j).length + if j = i then generated cfg g i else 0 := by
  by_cases hroom : g.gn i + cfg.generatedPackets < cfg.nodeQueueSize
  · rw [generated, if_pos hroom]
    rw [hc.gn] at hroom
    obtain ⟨g', queues', hmany, hs', hc', hlen⟩ :=
      generateMany_ok ((List.range cfg.generatedPackets).map payloads) hs hc i (by
        rw [List.length_map, List.length_range, constructQueue]
        simp only
        split <;> omega)
    rw [List.length_map, List.length_range] at hlen
    exact ⟨g', queues', by rw [generatePacket, if_pos (by rw [hc.gn]; exact hroom), hmany], hs', hc', hlen⟩
  · refine ⟨g, queues, by rw [generatePacket, if_neg hroom], hs, hc, ?_⟩
    simp [generated, hroom]

/-! ## Scheduling -/

structure SameCounters (g g' : Globals) : Prop where
  seq : ∀ a, (g'.heap.data a).seqNumber = (g.heap.data a).seqNumber
  arr : g'.status.arrSeq = g.status.arrSeq
  unsched : g'.status.unschedSeq = g.status.unschedSeq
  gn : g'.gn = g.gn

theorem SameCounters.refl (g : Globals) : SameCounters g g := ⟨fun _ => rfl, rfl, rfl, rfl⟩

theorem SameCounters.trans {g1 g2 g3 : Globals} (h : SameCounters g1 g2) (h' : SameCounters g2 g3) :
    SameCounters g1 g3 :=
  ⟨fun a => (h'.seq a).trans (h.seq a), h'.arr.trans h.arr, h'.unsched.trans h.unsched, h'.gn.trans h.gn⟩

theorem Counts.congr {g' : Globals} (h : Counts g empty queues popped) (hsame : SameCounters g g') :
    Counts g' empty queues popped where
  gn := by rw [hsame.gn]; exact h.gn
  seq := fun i => by
    rw [← h.seq i]
    exact List.map_congr_left fun a _ => by rw [hsame.seq]
  arr := by rw [hsame.arr]; exact h.arr
  unsched := by rw [hsame.unsched]; exact h.unsched

theorem Shape.pushOutside (h : Shape cfg g queues) (heap : Heap) {q : PacketQueue} {item : ℕ}
    (hnext : heap.next = g.heap.next) (hfresh : heap.fresh = g.heap.fresh)
    (hq : TailOutside g.heap.fresh queues q) (hlt : item < g.heap.fresh) (hout : ∀ i, item ∉ queues i) :
    ∃ b heap' q', push heap q item = .ok (b, heap', q') ∧ heap'.data = heap.data ∧
      heap'.fresh = g.heap.fresh ∧ TailOutside g.heap.fresh queues q' ∧
      ∀ i, QueueHolds heap'.next (g.nodeQueues i) (queues i) := by
  obtain ⟨b, heap', q', hpush, hdata, hfr, htail, hframe⟩ := @push_frame heap _ item fun hne =>
    (hq hne).imp fun t ht => ht.1
  refine ⟨b, heap', q', hpush, hdata, hfr.trans hfresh, ?_, fun i => ?_⟩
  · rcases htail with rfl | ht
    · exact hq
    · exact fun _ => ⟨item, ht, hlt, hout⟩
  · refine (h.holds i).congr fun a ha => ?_
    rw [hframe a (ne_of_mem_of_not_mem ha (hout i)) fun hne he => ?_, hnext]
    obtain ⟨t, ht, _, hnot⟩ := hq hne
    rw [ht, Option.some.injEq] at he
    exact hnot i (he ▸ ha)

theorem pushVlc_ok {item : ℕ} (txs : List (Fin cfg.nVlc)) {g : Globals} (hs : Shape cfg g queues)
    (hlt : item < g.heap.fresh) (hout : ∀ i, item ∉ queues i) :
    ∃ g', pushVlc item txs g = .ok g' ∧ Shape cfg g' queues ∧ SameCounters g g' := by
  induction txs generalizing g with
  | nil => exact ⟨g, rfl, hs, .refl g⟩
  | cons tx txs ih =>
    obtain ⟨b, heap', q', hpush, hdata, hfresh, htail, hholds⟩ :=
      hs.pushOutside (g.heap.setVlcId item (UInt16.ofNat tx)) rfl rfl hs.vlcTail hlt hout
    set g1 : Globals := { g with
      heap := heap', vlcQueue := q', dVlc := Function.update g.dVlc tx (g.dVlc tx + 1) } with hg1
    have hs1 : Shape cfg g1 queues :=
      ⟨hholds, hs.limit, fun i a ha => (hs.live i a ha).trans_eq hfresh.symm, hs.disjoint,
        fun hne => by rw [hg1, hfresh]; exact hs.rfTail hne, fun hne => by rw [hg1, hfresh]; exact htail hne⟩
    have hsame1 : SameCounters g g1 := by
      refine ⟨fun a => ?_, rfl, rfl, rfl⟩
      change (heap'.data a).seqNumber = _
      rw [hdata]
      simp only [Heap.setVlcId, Function.update_apply]
      split
      · next he => rw [he]
      · rfl
    obtain ⟨g', hrest, hs', hsame⟩ := ih hs1 (hlt.trans_eq hfresh.symm)
    refine ⟨g', ?_, hs', hsame1.trans hsame⟩
    rw [pushVlc, hpush]
    exact hrest

theorem Shape.congr {g' : Globals} (h : Shape cfg g queues) (hheap : g'.heap = g.heap)
    (hnode : g'.nodeQueues = g.nodeQueues) (hrf : g'.rfQueue = g.rfQueue) (hvlc : g'.vlcQueue = g.vlcQueue) :
    Shape cfg g' queues :=
  ⟨by rw [hheap, hnode]; exact h.holds, by rw [hnode]; exact h.limit, by rw [hheap]; exact h.live, h.disjoint,
    by rw [hheap, hrf]; exact h.rfTail, by rw [hheap, hvlc]; exact h.vlcTail⟩

theorem setPktState_ok {k : ℕ} (g : Globals) (i : ℕ) (hk : k < maxSeqNumber) (state : PktState) :
    ∃ g', setPktState g i k state = .ok g' ∧ (Shape cfg g queues → Shape cfg g' queues) ∧
      SameCounters g g' := by
  simp only [setPktState, writeCell_ok _ _ hk, ok_bind, pure_eq_ok]
  exact ⟨_, rfl, fun h => h.congr rfl rfl rfl rfl, ⟨fun _ => rfl, rfl, rfl, rfl⟩⟩

theorem setExpireTime_ok {k : ℕ} (g : Globals) (i : ℕ) (hk : k < maxSeqNumber) (time : Timespec) :
    ∃ g', setExpireTime g i k time = .ok g' ∧ (Shape cfg g queues → Shape cfg g' queues) ∧
      SameCounters g g' := by
  simp only [setExpireTime, writeCell_ok _ _ hk, ok_bind, pure_eq_ok]
  exact ⟨_, rfl, fun h => h.congr rfl rfl rfl rfl, ⟨fun _ => rfl, rfl, rfl, rfl⟩⟩

theorem addUnacked_eq (g : Globals) (packet : GatewayPacket) :
    ∃ table, g.addUnacked packet = { g with unackedVlcPacket := table } := by
  unfold Globals.addUnacked
  split
  · exact ⟨_, rfl⟩
  · exact ⟨g.unackedVlcPacket, rfl⟩

/-- Either branch writes the entry it is told, and keeps the node queues and the counters. -/
theorem dispatchPacket_ok (hs : Shape cfg g queues) (i : ℕ) (result : SchedulingResult cfg) (now : Timespec)
    {temp k : ℕ} (hlt : temp < g.heap.fresh) (hout : ∀ i, temp ∉ queues i) (hk : k < maxSeqNumber) :
    ∃ g' expire, dispatchPacket cfg g i result now temp k =
        .ok (g', ⟨i, k, expire, (g.heap.data temp).seqNumber.toNat⟩) ∧
      (expire = none ∨ expire = some (k : ℤ)) ∧ Shape cfg g' queues ∧ SameCounters (g.countPopped i) g' := by
  have hs0 : Shape cfg (g.countPopped i) queues := hs.congr rfl rfl rfl rfl
  by_cases hmode : result.mode = .rf
  · obtain ⟨b, heap', q', hpush, hdata, hfresh, htail, hholds⟩ :=
      hs0.pushOutside (g.countPopped i).heap rfl rfl hs0.rfTail hlt hout
    set g1 : Globals := { g.countPopped i with heap := heap', rfQueue := q' } with hg1
    have hs1 : Shape cfg g1 queues :=
      ⟨hholds, hs.limit, fun i a ha => (hs.live i a ha).trans_eq hfresh.symm, hs.disjoint,
        fun hne => by rw [hg1, hfresh]; exact htail hne, fun hne => by rw [hg1, hfresh]; exact hs.vlcTail hne⟩
    have hsame1 : SameCounters (g.countPopped i) g1 :=
      ⟨fun a => by rw [hg1, hdata], rfl, rfl, rfl⟩
    obtain ⟨g2, hset, hs2, hsame2⟩ := @setPktState_ok cfg queues _ g1 i hk .rf
    refine ⟨{ g2 with r := g2.r + 1 }, none, ?_, Or.inl rfl, (hs2 hs1).congr rfl rfl rfl rfl, ?_⟩
    · rw [dispatchPacket, if_pos hmode, hpush, ok_bind]
      change (setPktState g1 i k .rf >>= _) = _
      rw [hset]
      rfl
    · exact hsame1.trans ⟨hsame2.seq, hsame2.arr, hsame2.unsched, hsame2.gn⟩
  · obtain ⟨g1, hvlc, hs1, hsame1⟩ := pushVlc_ok result.vlcTgtSet hs0 hlt hout
    obtain ⟨g2, hset, hs2, hsame2⟩ := @setPktState_ok cfg queues _ g1 i hk .vlcUnacked
    obtain ⟨g3, hexp, hs3, hsame3⟩ :=
      @setExpireTime_ok cfg queues _ g2 i hk (addTimeout now)
    obtain ⟨table, htable⟩ := addUnacked_eq g3 (g3.heap.data temp)
    have hsame4 : SameCounters g3 (g3.addUnacked (g3.heap.data temp)) := by
      rw [htable]
      exact ⟨fun _ => rfl, rfl, rfl, rfl⟩
    refine ⟨g3.addUnacked (g3.heap.data temp), some k, ?_, Or.inr rfl, ?_,
      ((hsame1.trans hsame2).trans hsame3).trans hsame4⟩
    rotate_left
    · rw [htable]
      exact (hs3 (hs2 hs1)).congr rfl rfl rfl rfl
    rw [dispatchPacket, if_neg hmode, hvlc, ok_bind, hset, ok_bind, hexp]
    rfl

theorem Shape.leave (h : Shape cfg g queues) {i a : ℕ} {ns : List ℕ} (hqi : queues i = a :: ns)
    {q : PacketQueue} (hlimit : q.limit = (g.nodeQueues i).limit) (hq : QueueHolds g.heap.next q ns) :
    Shape cfg (g.setNodeQueue i g.heap q) (Function.update queues i ns) ∧
      ∀ j, a ∉ Function.update queues i ns j := by
  have hsub : ∀ j b, b ∈ Function.update queues i ns j → b ∈ queues j := by
    intro j b hb
    by_cases hj : j = i
    · subst hj
      rw [Function.update_self] at hb
      rw [hqi]
      exact List.mem_cons_of_mem _ hb
    · rwa [Function.update_of_ne hj] at hb
  refine ⟨⟨fun j => ?_, fun j => ?_, fun j b hb => h.live j b (hsub j b hb),
    fun j k hjk b hb hk => h.disjoint j k hjk b (hsub j b hb) (hsub k b hk), ?_, ?_⟩, fun j hj => ?_⟩
  · change QueueHolds g.heap.next (Function.update g.nodeQueues i q j) _
    by_cases hj : j = i
    · subst hj
      rw [Function.update_self, Function.update_self]
      exact hq
    · rw [Function.update_of_ne hj, Function.update_of_ne hj]
      exact h.holds j
  · change (Function.update g.nodeQueues i q j).limit = _
    by_cases hj : j = i
    · subst hj
      rw [Function.update_self, hlimit, h.limit]
    · rw [Function.update_of_ne hj, h.limit]
  · exact h.rfTail.mono le_rfl fun j b hb => Or.inl (hsub j b hb)
  · exact h.vlcTail.mono le_rfl fun j b hb => Or.inl (hsub j b hb)
  · by_cases hji : j = i
    · subst hji
      rw [Function.update_self] at hj
      have hnodup := (h.holds j).nodup
      rw [hqi, List.nodup_cons] at hnodup
      exact hnodup.1 hj
    · refine h.disjoint j i hji a (hsub j a hj) ?_
      rw [hqi]
      exact List.mem_cons_self

theorem Counts.leave (h : Counts g empty queues popped) {i a : ℕ} {ns : List ℕ} (hqi : queues i = a :: ns)
    (q : PacketQueue) :
    (g.heap.data a).seqNumber.toNat = popped i % maxSeqNumber ∧
      Counts (((g.setNodeQueue i g.heap q).advanceUnsched i).countPopped i) empty
        (Function.update queues i ns) (Function.update popped i (popped i + 1)) := by
  have hseq := h.seq i
  rw [hqi, List.map_cons, List.length_cons, numbered_cons, List.cons.injEq] at hseq
  refine ⟨hseq.1, fun j => ?_, fun j => ?_, fun j => ?_, fun j => ?_⟩
  · change Function.update g.gn i (g.gn i - 1) j = _
    by_cases hj : j = i
    · subst hj
      rw [Function.update_self, Function.update_self, h.gn, hqi, List.length_cons]
      push_cast
      omega
    · rw [Function.update_of_ne hj, Function.update_of_ne hj, h.gn]
  · by_cases hj : j = i
    · subst hj
      rw [Function.update_self, Function.update_self]
      exact hseq.2
    · rw [Function.update_of_ne hj, Function.update_of_ne hj]
      exact h.seq j
  · change g.status.arrSeq j = _
    rw [h.arr]
    by_cases hj : j = i
    · subst hj
      rw [Function.update_self, Function.update_self, hqi, List.length_cons, Nat.add_assoc, Nat.add_comm 1]
    · rw [Function.update_of_ne hj, Function.update_of_ne hj]
  · change Function.update g.status.unschedSeq i (nextSeq (g.status.unschedSeq i)) j = _
    by_cases hj : j = i
    · subst hj
      rw [Function.update_self, Function.update_self, h.unsched, nextSeq_natCast, Nat.add_right_comm]
    · rw [Function.update_of_ne hj, Function.update_of_ne hj, h.unsched]

theorem Counts.pass (h : Counts g empty queues popped) (i : ℕ) (q : PacketQueue) :
    Counts ((g.setNodeQueue i g.heap q).advanceUnsched i) (Function.update empty i (empty i + 1)) queues
      popped := by
  refine ⟨h.gn, h.seq, h.arr, fun j => ?_⟩
  change Function.update g.status.unschedSeq i (nextSeq (g.status.unschedSeq i)) j = _
  by_cases hj : j = i
  · subst hj
    rw [Function.update_self, Function.update_self, h.unsched, nextSeq_natCast, Nat.add_assoc]
  · rw [Function.update_of_ne hj, Function.update_of_ne hj, h.unsched]

/-- What a pass over node `i` does: nothing, when it is told to idle; it counts the pass, when the
queue is empty; or it dispatches the first packet to the entry that `unsched_seq` names. -/
theorem schedulePacket_ok (hs : Shape cfg g queues) (hc : Counts g empty queues popped) (i : ℕ)
    (result : SchedulingResult cfg) (now : Timespec) :
    (result.mode = .idle ∧ schedulePacket cfg g i result now = .ok (g, none)) ∨
    (result.mode ≠ .idle ∧ (g.nodeQueues i).isEmpty = true ∧ ∃ g',
      schedulePacket cfg g i result now = .ok (g', none) ∧ Shape cfg g' queues ∧
      Counts g' (Function.update empty i (empty i + 1)) queues popped) ∨
    (result.mode ≠ .idle ∧ (g.nodeQueues i).isEmpty = false ∧ ∃ g' expire,
      schedulePacket cfg g i result now = .ok (g', some ⟨i, ((popped i + empty i) % maxSeqNumber : ℕ), expire,
        popped i % maxSeqNumber⟩) ∧
      (expire = none ∨ expire = some (((popped i + empty i) % maxSeqNumber : ℕ) : ℤ)) ∧
      Shape cfg g' (Function.update queues i (queues i).tail) ∧
      Counts g' empty (Function.update queues i (queues i).tail) (Function.update popped i (popped i + 1))) := by
  by_cases hmode : result.mode = .idle
  · exact Or.inl ⟨hmode, by rw [schedulePacket, if_pos hmode]; rfl⟩
  right
  have hk : (popped i + empty i) % maxSeqNumber < maxSeqNumber := Nat.mod_lt _ (by decide)
  have hholds := hs.holds i
  match hqi : queues i with
  | [] =>
    left
    rw [hqi] at hholds
    have hempty : (g.nodeQueues i).isEmpty = true := hholds.isEmpty_iff.mpr rfl
    refine ⟨hmode, hempty, (g.setNodeQueue i g.heap (g.nodeQueues i)).advanceUnsched i, ?_, ?_, hc.pass i _⟩
    · simp only [schedulePacket, if_neg hmode, pop_nil hholds, ok_bind, pure_eq_ok]
    · exact hs.congr rfl (Function.update_eq_self i g.nodeQueues) rfl rfl
  | a :: ns =>
    right
    rw [hqi] at hholds
    have hempty : (g.nodeQueues i).isEmpty = false := by
      rw [← Bool.not_eq_true, hholds.isEmpty_iff]
      exact List.cons_ne_nil a ns
    obtain ⟨q, hpop, hlimit, hq⟩ := pop_cons hholds
    obtain ⟨hs1, hout⟩ := hs.leave hqi hlimit hq
    obtain ⟨hseq, hc1⟩ := hc.leave hqi q
    have hlt : a < g.heap.fresh := hs.live i a (by rw [hqi]; exact List.mem_cons_self)
    have hs2 : Shape cfg ((g.setNodeQueue i g.heap q).advanceUnsched i) (Function.update queues i ns) :=
      hs1.congr rfl rfl rfl rfl
    obtain ⟨g', expire, hrun, hexp, hs', hsame⟩ := dispatchPacket_ok hs2 i result now hlt hout hk
    refine ⟨hmode, hempty, g', expire, ?_, hexp, hs', hc1.congr hsame⟩
    simp only [schedulePacket, if_neg hmode, hpop, ok_bind, hc.unsched i, hrun, pure_eq_ok]
    rw [← hseq]
    rfl

end

/-! ## Interleavings -/

def DispatchInv (cfg : Config) (s : DispatchSystem) : Prop :=
  ∃ queues popped, Shape cfg s.globals queues ∧ Counts s.globals s.emptyPasses queues popped

/-- Every entry written so far is the one that the packet's own number names. -/
def IndexedBySeq (s : DispatchSystem) : Prop :=
  ∀ d ∈ s.dispatched, d.index = d.seqNumber ∧ ∀ k ∈ d.expireIndex, k = d.seqNumber

/-- A step that does not dispatch from a queue whose earlier empty passes have shifted the index. -/
def GoodPass (cfg : Config) (s : DispatchSystem) : DispatchAction cfg → Prop
  | .generate _ => True
  | .schedule result _ => result.mode ≠ .idle → (s.globals.nodeQueues s.schedNode).isEmpty = false →
      s.emptyPasses s.schedNode % maxSeqNumber = 0

/-- What a step adds to the history of dispatches. -/
theorem dispatchStep_cases {cfg : Config} {s t : DispatchSystem} {a : DispatchAction cfg}
    (hinv : DispatchInv cfg s) (hstep : dispatchStep cfg s a = some t) :
    DispatchInv cfg t ∧ ((GoodPass cfg s a ∧ t.dispatched = s.dispatched) ∨
      ∃ popped empty expire, (GoodPass cfg s a ↔ empty % maxSeqNumber = 0) ∧
        (expire = none ∨ expire = some (((popped + empty) % maxSeqNumber : ℕ) : ℤ)) ∧
        t.dispatched = s.dispatched ++ [⟨s.schedNode, ((popped + empty) % maxSeqNumber : ℕ), expire,
          popped % maxSeqNumber⟩]) := by
  obtain ⟨queues, popped, hs, hc⟩ := hinv
  cases a with
  | generate payloads =>
    obtain ⟨g', queues', hgen, hs', hc', -⟩ := generatePacket_ok hs hc s.genNode payloads
    simp only [dispatchStep, hgen] at hstep
    split at hstep
    · cases hstep
      exact ⟨⟨queues', popped, hs', hc'⟩, Or.inl ⟨trivial, rfl⟩⟩
    · cases hstep
  | schedule result now =>
    by_cases hnode : s.schedNode < cfg.nNode
    swap
    · simp only [dispatchStep, if_neg hnode] at hstep
      cases hstep
    rcases schedulePacket_ok hs hc s.schedNode result now with ⟨hmode, hrun⟩ | ⟨hmode, hempty, g', hrun, hs', hc'⟩ |
      ⟨hmode, hempty, g', expire, hrun, hexp, hs', hc'⟩
    · simp only [dispatchStep, if_pos hnode, hrun, Option.some.injEq] at hstep
      subst hstep
      refine ⟨⟨queues, popped, hs, ?_⟩, Or.inl ⟨fun h => absurd hmode h, by simp⟩⟩
      simp only [hmode, ne_eq, not_true_eq_false, false_and, if_false]
      exact hc
    · simp only [dispatchStep, if_pos hnode, hrun, Option.some.injEq] at hstep
      subst hstep
      refine ⟨⟨queues, popped, hs', ?_⟩, Or.inl ⟨fun _ h => absurd (hempty.symm.trans h) (by decide), by simp⟩⟩
      simp only [hmode, ne_eq, not_false_eq_true, true_and, hempty, if_true]
      exact hc'
    · simp only [dispatchStep, if_pos hnode, hrun, Option.some.injEq] at hstep
      subst hstep
      refine ⟨⟨_, Function.update popped s.schedNode (popped s.schedNode + 1), hs', ?_⟩,
        Or.inr ⟨popped s.schedNode, s.emptyPasses s.schedNode, expire, ?_, hexp, rfl⟩⟩
      · simp only [hempty, Bool.false_eq_true, and_false, if_false]
        exact hc'
      · exact ⟨fun h => h hmode hempty, fun h _ _ => h⟩

theorem shift_mod_iff (popped empty : ℕ) :
    (popped + empty) % maxSeqNumber = popped % maxSeqNumber ↔ empty % maxSeqNumber = 0 := by
  simp only [maxSeqNumber]
  omega

theorem dispatchInv_initial (cfg : Config) : DispatchInv cfg (initialDispatch cfg) :=
  ⟨_, _, shape_initial cfg, counts_initial cfg⟩

/-- One empty pass, then one packet: its state goes to entry 1. -/
theorem dispatch_misplaces_after_empty_pass :
    let payload : Payload := ⟨List.replicate payloadSize 0, rfl⟩
    let pass : DispatchAction shipped := .schedule ⟨.rf, []⟩ ⟨0, 0⟩
    ∃ t, Run (dispatchStep shipped) (initialDispatch shipped) [pass, .generate fun _ => payload, pass] t ∧
      ¬ IndexedBySeq t := by
  intro payload pass
  obtain ⟨t, ht⟩ : ∃ t, exec (dispatchStep shipped) (initialDispatch shipped)
      [pass, .generate fun _ => payload, pass] = some t := ⟨_, rfl⟩
  have hd : (exec (dispatchStep shipped) (initialDispatch shipped)
      [pass, .generate fun _ => payload, pass]).map DispatchSystem.dispatched = some [⟨0, 1, none, 0⟩] := rfl
  rw [ht, Option.map_some, Option.some.injEq] at hd
  refine ⟨t, run_of_exec ht, fun h => ?_⟩
  have := (h ⟨0, 1, none, 0⟩ (by rw [hd]; exact List.mem_singleton_self _)).1
  exact absurd this (by decide)

/-- **When every state entry is the packet's own.** All along a run, each dispatch writes the entry that
the packet's sequence number names exactly when, at each dispatch, the number of earlier passes that
found the node's queue empty is a multiple of `MAX_SEQ_NUMBER`. -/
theorem dispatch_indexed_iff (cfg : Config) (as : List (DispatchAction cfg)) (t : DispatchSystem)
    (hrun : Run (dispatchStep cfg) (initialDispatch cfg) as t) :
    Always (dispatchStep cfg) (initialDispatch cfg) as IndexedBySeq ↔
      EveryStep (dispatchStep cfg) (initialDispatch cfg) as (GoodPass cfg) := by
  refine always_iff_everyStep (I := fun s => DispatchInv cfg s ∧ IndexedBySeq s) hrun
    ⟨dispatchInv_initial cfg, fun d hd => absurd hd List.not_mem_nil⟩ (fun s h => h.2) ?_ ?_
  · rintro s a u ⟨hinv, hindexed⟩ hgood hstep
    obtain ⟨hinv', ⟨_, hsame⟩ | ⟨popped, empty, expire, hiff, hexp, hnew⟩⟩ := dispatchStep_cases hinv hstep
    · exact ⟨hinv', fun d hd => hindexed d (by rwa [hsame] at hd)⟩
    · have hshift := (shift_mod_iff popped empty).mpr (hiff.mp hgood)
      refine ⟨hinv', fun d hd => ?_⟩
      rw [hnew, List.mem_append, List.mem_singleton] at hd
      rcases hd with hd | rfl
      · exact hindexed d hd
      · refine ⟨congrArg Nat.cast hshift, fun k hk => ?_⟩
        rcases hexp with rfl | rfl
        · cases hk
        · cases hk
          exact congrArg Nat.cast hshift
  · rintro s a u ⟨hinv, _⟩ hbad hstep hu
    obtain ⟨_, ⟨hgood, _⟩ | ⟨popped, empty, expire, hiff, _, hnew⟩⟩ := dispatchStep_cases hinv hstep
    · exact hbad hgood
    · have hd := (hu _ (by rw [hnew]; exact List.mem_append_right _ (List.mem_singleton_self _))).1
      exact hbad (hiff.mpr ((shift_mod_iff popped empty).mp (Int.natCast_inj.mp hd)))

/-- A packet that is there when the dispatcher first looks. -/
theorem dispatch_indexed_iff_generated_first :
    let payload : Payload := ⟨List.replicate payloadSize 0, rfl⟩
    let as : List (DispatchAction shipped) := [.generate fun _ => payload, .schedule ⟨.rf, []⟩ ⟨0, 0⟩]
    Always (dispatchStep shipped) (initialDispatch shipped) as IndexedBySeq ↔
      EveryStep (dispatchStep shipped) (initialDispatch shipped) as (GoodPass shipped) := by
  intro payload as
  obtain ⟨t, ht⟩ : ∃ t, exec (dispatchStep shipped) (initialDispatch shipped) as = some t := ⟨_, rfl⟩
  exact dispatch_indexed_iff shipped as t (run_of_exec ht)

end CiotVlc.Gateway
