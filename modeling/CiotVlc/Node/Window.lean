import CiotVlc.Foundations.SlidingWindow
import CiotVlc.Node.Status

/-! # The node's receive window is exact

`Tracks` relates the receive status to an abstract window of width `max_ACK_bit_pattern`.
`processData_tracks` is the refinement step: as long as every number lies at least two below the
table's size, handling a packet does not fault and tracks the abstract arrival. What the window
knows about all arrivals is then read back on the status (`WindowExact`).
-/
namespace CiotVlc.Node
open Foundations.Bytes Foundations.Checked Foundations.SlidingWindow
set_option autoImplicit false

def windowWidth : ℕ := maxAckBitPattern.toNat

structure Tracks (status : NodeStatus) (w : Window) : Prop where
  rcvSeq : status.rcvSeq = w.head
  lastRcvSeq : status.lastRcvSeq = w.last
  rcvState : ∀ s < status.size, status.rcvState s = 1 ↔ s ∈ w.marked

theorem tracks_initialize (maxSequence : ℕ) : Tracks (initializeNodeStatus maxSequence) .start where
  rcvSeq := rfl
  lastRcvSeq := rfl
  rcvState := fun s _ => by simp [initializeNodeStatus, Window.start]

/-! ## The scan loop -/

theorem skipReceived_eq {size : ℕ} {rcvState : ℕ → ℤ} {marked : Finset ℕ} {head : ℕ}
    (hcells : ∀ s < size, rcvState s = 1 ↔ s ∈ marked) (hgap : firstMissing marked head < size) :
    skipReceived size rcvState head = .ok (firstMissing marked head : ℤ) := by
  -- the distance to the gap decreases
  induction hd : firstMissing marked head - head generalizing head with
  | zero =>
    have hle := le_firstMissing marked head
    have heq : firstMissing marked head = head := by omega
    have hnot : ¬ rcvState head = 1 := by
      rw [hcells head (by omega), ← heq]
      exact firstMissing_notMem marked _
    rw [skipReceived, if_pos ⟨by omega, by omega⟩, Int.toNat_natCast, if_neg hnot, heq]
  | succ d ih =>
    have hle := le_firstMissing marked head
    have hmem : head ∈ marked := mem_of_lt_firstMissing le_rfl (by omega)
    have hone : rcvState head = 1 := (hcells head (by omega)).mpr hmem
    have hnext := firstMissing_of_mem hmem
    have hih := ih (by omega : firstMissing marked (head + 1) < size) (by omega)
    rw [skipReceived, if_pos ⟨by omega, by omega⟩, Int.toNat_natCast, if_pos hone, hnext]
    exact_mod_cast hih

/-- Reading past the end: when every entry from the head on is marked, the scan leaves the table. -/
theorem skipReceived_fault {size : ℕ} {rcvState : ℕ → ℤ} {head : ℕ} (hle : head ≤ size)
    (hcells : ∀ s, head ≤ s → s < size → rcvState s = 1) :
    skipReceived size rcvState head = .error (.outOfBounds size) := by
  induction hd : size - head generalizing head with
  | zero =>
    have heq : head = size := by omega
    rw [skipReceived, if_neg (by omega), heq]
  | succ d ih =>
    have hih := ih (by omega : head + 1 ≤ size) (fun s hs => hcells s (by omega)) (by omega)
    rw [skipReceived, if_pos ⟨by omega, by omega⟩, Int.toNat_natCast,
      if_pos (hcells head le_rfl (by omega))]
    exact_mod_cast hih

/-! ## One packet -/

section
variable {status : NodeStatus} {w : Window} {arrived : Finset ℕ} {i : ℕ}

theorem markReceived_eq (ht : Tracks status w) (hi : i < status.size) :
    ∃ rcvState, markReceived status i = .ok rcvState ∧
      ∀ s < status.size,
        rcvState s = 1 ↔ s ∈ if w.head ≤ i then insert i w.marked else w.marked := by
  unfold markReceived
  by_cases hge : w.head ≤ i
  · refine ⟨Function.update status.rcvState i 1, ?_, fun s hs => ?_⟩
    · rw [if_pos (by rw [ht.rcvSeq]; omega), writeCell_ok _ _ hi]
    · rw [if_pos hge, Finset.mem_insert]
      by_cases hsi : s = i
      · subst hsi
        simp
      · rw [Function.update_of_ne hsi, ht.rcvState s hs, or_iff_right hsi]
  · refine ⟨status.rcvState, ?_, fun s hs => ?_⟩
    · rw [if_neg (by rw [ht.rcvSeq]; omega)]
    · rw [if_neg hge, ht.rcvState s hs]

/-- The gap lies at most one past the largest number, because nothing from the head on is marked
past it. -/
theorem gap_le (hw : Exact windowWidth arrived w) (i : ℕ) :
    firstMissing (if w.head ≤ i then insert i w.marked else w.marked) w.head ≤ max w.last i + 1 := by
  refine firstMissing_le_of_bound (hw.head_le.trans (Nat.succ_le_succ (le_max_left _ _))) ?_
  intro s hs hhead
  have hold : s ∈ w.marked → s ≤ max w.last i := fun hm =>
    (hw.le_last ((hw.marked_iff s hhead).mp hm)).trans (le_max_left _ _)
  split at hs
  · rcases Finset.mem_insert.mp hs with rfl | hs'
    · exact le_max_right _ _
    · exact hold hs'
  · exact hold hs

/-- **One packet refines one arrival.** -/
theorem processData_tracks {p : NodePacket} (ht : Tracks status w) (hw : Exact windowWidth arrived w)
    (hsize : status.size ≤ 2 ^ 31) (hlast : w.last + 1 < status.size)
    (hp : p.seqNumber.toNat + 1 < status.size) :
    ∃ status', processData status p = .ok status' ∧ status'.size = status.size ∧
      Tracks status' (w.accept windowWidth p.seqNumber.toNat) := by
  obtain ⟨i, hi⟩ : ∃ i, p.seqNumber.toNat = i := ⟨_, rfl⟩
  rw [hi] at hp ⊢
  have hint : int32 p.seqNumber.toNat = (i : ℤ) := by rw [hi, int32_of_lt (by omega)]
  obtain ⟨rcvState, hmark, hcells⟩ := markReceived_eq ht (show i < status.size by omega)
  have hgap := gap_le hw i
  have hscan := @skipReceived_eq _ _ _ w.head hcells (by omega)
  rw [← ht.rcvSeq] at hscan
  have hlastEq : (if (i : ℤ) > status.lastRcvSeq then (i : ℤ) else status.lastRcvSeq) =
      ((max w.last i : ℕ) : ℤ) := by
    rw [ht.lastRcvSeq]
    split <;> omega
  refine ⟨_, processData_ok hint hmark hscan, rfl, ?_, hlastEq, hcells⟩
  have hhead : (w.accept windowWidth i).head =
      max (firstMissing (if w.head ≤ i then insert i w.marked else w.marked) w.head)
        (max w.last i + 1 - windowWidth) := rfl
  have hwidth : (windowWidth : ℤ) = maxAckBitPattern := rfl
  simp only [hlastEq, hhead, ← hwidth]
  split <;> omega

end

/-! ## Runs of packets -/

def seqNumbers (packets : List NodePacket) : List ℕ := packets.map fun p => p.seqNumber.toNat

theorem seqNumbers_snoc (before : List NodePacket) (p : NodePacket) :
    seqNumbers (before ++ [p]) = seqNumbers before ++ [p.seqNumber.toNat] := List.map_append

theorem last_lt {size : ℕ} (hone : 1 < size) {packets : List NodePacket}
    (h : ∀ p ∈ packets, p.seqNumber.toNat + 1 < size) :
    (Window.start.acceptAll windowWidth (seqNumbers packets)).last + 1 < size := by
  have hw := acceptAll_exact (show 0 < windowWidth by decide) (seqNumbers packets)
  rw [hw.last_eq, ← Nat.lt_sub_iff_add_lt]
  refine (Finset.sup_lt_iff (Nat.sub_pos_of_lt hone)).mpr fun s hs => ?_
  obtain ⟨q, hq, rfl⟩ := List.mem_map.mp (List.mem_toFinset.mp hs)
  have := h q hq
  simp only [id_eq]
  omega

theorem processAll_tracks {size : ℕ} (hsize : size ≤ 2 ^ 31) (hone : 1 < size) (packets : List NodePacket)
    (h : ∀ p ∈ packets, p.seqNumber.toNat + 1 < size) :
    ∃ status, processAll (initializeNodeStatus size) packets = .ok status ∧ status.size = size ∧
      Tracks status (Window.start.acceptAll windowWidth (seqNumbers packets)) := by
  induction packets using List.reverseRecOn with
  | nil => exact ⟨_, rfl, rfl, tracks_initialize size⟩
  | append_singleton ps p ih =>
    obtain ⟨st, hrun, hst, ht⟩ := ih fun q hq => h q (List.mem_append_left _ hq)
    have hw := acceptAll_exact (show 0 < windowWidth by decide) (seqNumbers ps)
    have hlast := last_lt hone fun q hq => h q (List.mem_append_left _ hq)
    obtain ⟨st', hstep, hst', ht'⟩ := processData_tracks ht hw (by rwa [hst]) (by rwa [hst])
      (by rw [hst]; exact h p (List.mem_append_right _ (List.mem_singleton_self p)))
    refine ⟨st', ?_, hst'.trans hst, ?_⟩
    · rw [processAll_append, hrun]
      exact (processAll_singleton st p).trans hstep
    · rw [seqNumbers, List.map_append, Window.acceptAll_append]
      exact ht'

/-- The next packet of a run, and the arrival it refines. -/
theorem processAll_snoc_tracks {size : ℕ} (hsize : size ≤ 2 ^ 31) (hone : 1 < size) (before : List NodePacket)
    (p : NodePacket) (h : ∀ q ∈ before ++ [p], q.seqNumber.toNat + 1 < size) :
    ∃ status status', processAll (initializeNodeStatus size) before = .ok status ∧
      processData status p = .ok status' ∧ status.size = size ∧ status'.size = size ∧
      Tracks status (Window.start.acceptAll windowWidth (seqNumbers before)) ∧
      Tracks status' ((Window.start.acceptAll windowWidth (seqNumbers before)).accept windowWidth
        p.seqNumber.toNat) := by
  have hbefore : ∀ q ∈ before, q.seqNumber.toNat + 1 < size := fun q hq => h q (List.mem_append_left _ hq)
  obtain ⟨st, hrun, hst, ht⟩ := processAll_tracks hsize hone before hbefore
  have hw := acceptAll_exact (show 0 < windowWidth by decide) (seqNumbers before)
  obtain ⟨st', hstep, hst', ht'⟩ := processData_tracks ht hw (by rwa [hst])
    (by rw [hst]; exact last_lt hone hbefore)
    (by rw [hst]; exact h p (List.mem_append_right _ (List.mem_singleton_self p)))
  exact ⟨st, st', hrun, hstep, hst, hst'.trans hst, ht, ht'⟩

/-- What the receive status says about the numbers that have arrived. -/
structure WindowExact (arrived : List ℕ) (status : NodeStatus) : Prop where
  pattern_nonneg : 0 ≤ status.lastRcvSeq - status.rcvSeq + 1
  pattern_le : status.lastRcvSeq - status.rcvSeq + 1 ≤ maxAckBitPattern
  last_max : status.lastRcvSeq = (arrived.foldl max 0 : ℕ)
  state_iff : ∀ s : ℕ, status.rcvSeq ≤ s → s ≤ status.lastRcvSeq →
    (status.rcvState s = 1 ↔ s ∈ arrived)
  below : ∀ s : ℕ, s < status.rcvSeq → s ∈ arrived ∨ s < status.lastRcvSeq - maxAckBitPattern + 1

theorem foldl_max_eq_sup (l : List ℕ) : l.foldl max 0 = l.toFinset.sup id := by
  induction l using List.reverseRecOn with
  | nil => rfl
  | append_singleton l a ih =>
    have hset : (l ++ [a]).toFinset = insert a l.toFinset := by
      ext s
      simp
    rw [List.foldl_append, ih, hset, Finset.sup_insert, sup_comm]
    rfl

theorem WindowExact.of_tracks {status : NodeStatus} {w : Window} {arrived : List ℕ}
    (ht : Tracks status w) (hw : Exact windowWidth arrived.toFinset w) (hlast : w.last < status.size) :
    WindowExact arrived status := by
  have hwidth : (windowWidth : ℤ) = maxAckBitPattern := rfl
  have h1 := hw.head_le
  have h2 := hw.width_le
  refine ⟨?_, ?_, ?_, ?_, ?_⟩
  · rw [ht.lastRcvSeq, ht.rcvSeq]
    omega
  · rw [ht.lastRcvSeq, ht.rcvSeq, ← hwidth]
    omega
  · rw [ht.lastRcvSeq, hw.last_eq, foldl_max_eq_sup]
  · intro s hs hle
    rw [ht.rcvSeq] at hs
    rw [ht.lastRcvSeq] at hle
    rw [ht.rcvState s (by omega), hw.marked_iff s (by omega), List.mem_toFinset]
  · intro s hs
    rw [ht.rcvSeq] at hs
    rw [ht.lastRcvSeq, ← hwidth]
    rcases hw.below s (by omega) with harr | hfar
    · exact Or.inl (List.mem_toFinset.mp harr)
    · right
      omega

/-- **The receive window is exact.** Whatever packets were handled before, in whatever order, the next
one does not fault, never moves the head back, and leaves a window that is exact for all of them. -/
theorem processData_window_exact (before : List NodePacket) (p : NodePacket)
    (h : ∀ q ∈ before ++ [p], q.seqNumber.toNat ≤ maxSeqNumber - 2) :
    ∃ status status', processAll (initializeNodeStatus maxSeqNumber) before = .ok status ∧
      processData status p = .ok status' ∧ status.rcvSeq ≤ status'.rcvSeq ∧
      WindowExact (seqNumbers (before ++ [p])) status' := by
  have hlt : ∀ q ∈ before ++ [p], q.seqNumber.toNat + 1 < maxSeqNumber := by
    intro q hq
    have := h q hq
    simp only [maxSeqNumber] at this ⊢
    omega
  have hsize : maxSeqNumber ≤ 2 ^ 31 := by decide
  have hone : 1 < maxSeqNumber := by decide
  obtain ⟨st, st', hrun, hstep, hst, hst', ht, ht'⟩ := processAll_snoc_tracks hsize hone before p hlt
  refine ⟨st, st', hrun, hstep, ?_, ?_⟩
  · rw [ht.rcvSeq, ht'.rcvSeq]
    exact_mod_cast Window.head_le_accept _ _ _
  · have hw := acceptAll_exact (show 0 < windowWidth by decide) (seqNumbers (before ++ [p]))
    have hlast := last_lt hone hlt
    rw [seqNumbers_snoc, Window.acceptAll_append] at hw hlast
    rw [seqNumbers_snoc]
    exact .of_tracks ht' hw (by rw [hst']; exact Nat.lt_of_succ_lt hlast)

/-- A packet that overtakes two others: the window waits for the first gap. -/
theorem processData_window_exact_reordered :
    let p : ℕ → NodePacket := fun n => ⟨1, 1, 0, UInt32.ofNat n, []⟩
    ∃ status status', processAll (initializeNodeStatus maxSeqNumber) [p 0, p 3] = .ok status ∧
      processData status (p 1) = .ok status' ∧ status.rcvSeq ≤ status'.rcvSeq ∧
      WindowExact (seqNumbers ([p 0, p 3] ++ [p 1])) status' :=
  processData_window_exact _ _ (by decide)

end CiotVlc.Node
