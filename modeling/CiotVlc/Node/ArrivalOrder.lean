import CiotVlc.Node.Window

/-! # Arrival order

As long as all numbers fit one window, nothing is ever given up: the receive status is a function of the
set of numbers that have arrived, whatever their order and however often each came.
-/
namespace CiotVlc.Node
open Foundations.Bytes Foundations.Checked Foundations.SlidingWindow
set_option autoImplicit false

/-- The status that a set of arrived numbers leaves. -/
noncomputable def statusOf (size : ℕ) (arrived : Finset ℕ) : NodeStatus where
  rcvSeq := firstMissing arrived 0
  rcvState := fun s => if s ∈ arrived then 1 else 0
  lastRcvSeq := (arrived.sup id : ℕ)
  size

theorem statusOf_empty (size : ℕ) : statusOf size ∅ = initializeNodeStatus size := by
  have hfirst : firstMissing ∅ 0 = 0 := firstMissing_of_notMem (Finset.notMem_empty 0)
  rw [statusOf, hfirst]
  simp [initializeNodeStatus]

theorem firstMissing_zero_le {width : ℕ} {arrived : Finset ℕ} (h : ∀ s ∈ arrived, s < width) :
    firstMissing arrived 0 ≤ width := by
  by_contra hlt
  have hmem := mem_of_lt_firstMissing (Nat.zero_le width) (Nat.not_le.mp hlt)
  exact absurd (h _ hmem) (lt_irrefl _)

theorem markReceived_statusOf {size i : ℕ} {arrived : Finset ℕ} (hi : i < size) :
    markReceived (statusOf size arrived) i =
      .ok (fun s => if s ∈ insert i arrived then (1 : ℤ) else 0) := by
  by_cases hge : firstMissing arrived 0 ≤ i
  · rw [markReceived, if_pos (by simp only [statusOf]; omega), writeCell_ok _ _ (by exact hi)]
    congr 1
    funext s
    by_cases hs : s = i
    · subst hs
      simp
    · rw [Function.update_of_ne hs]
      simp [statusOf, hs]
  · -- below the head everything has arrived already
    have hmem : i ∈ arrived := mem_of_lt_firstMissing (Nat.zero_le i) (Nat.not_le.mp hge)
    rw [markReceived, if_neg (by simp only [statusOf]; omega), Finset.insert_eq_self.mpr hmem]
    rfl

theorem processData_statusOf {size : ℕ} (hsize : size ≤ 2 ^ 31) (hwidth : windowWidth < size)
    {arrived : Finset ℕ} (harrived : ∀ s ∈ arrived, s < windowWidth) {p : NodePacket}
    (hp : p.seqNumber.toNat < windowWidth) :
    processData (statusOf size arrived) p = .ok (statusOf size (insert p.seqNumber.toNat arrived)) := by
  obtain ⟨i, hi⟩ : ∃ i, p.seqNumber.toNat = i := ⟨_, rfl⟩
  rw [hi] at hp ⊢
  have hint : int32 p.seqNumber.toNat = (i : ℤ) := by rw [hi, int32_of_lt (by omega)]
  have hall : ∀ s ∈ insert i arrived, s < windowWidth := by
    intro s hs
    rcases Finset.mem_insert.mp hs with rfl | hs'
    · exact hp
    · exact harrived s hs'
  have hmark := @markReceived_statusOf size i arrived (by omega)
  have hresume := firstMissing_resume (Finset.subset_insert i arrived) 0
  have hfirst := firstMissing_zero_le hall
  have hscan : skipReceived size (fun s => if s ∈ insert i arrived then (1 : ℤ) else 0)
      (firstMissing arrived 0 : ℕ) = .ok ((firstMissing (insert i arrived) 0 : ℕ) : ℤ) := by
    have hcells : ∀ s < size, (if s ∈ insert i arrived then (1 : ℤ) else 0) = 1 ↔ s ∈ insert i arrived := by
      intro s _
      split <;> simp_all
    have h := @skipReceived_eq size _ _ (firstMissing arrived 0) hcells (by rw [hresume]; omega)
    rwa [hresume] at h
  have hsup : (insert i arrived).sup id = max i (arrived.sup id) := Finset.sup_insert
  have hmax : (insert i arrived).sup id < windowWidth :=
    (Finset.sup_lt_iff (show 0 < windowWidth by decide)).mpr hall
  have hlast : (if (i : ℤ) > (statusOf size arrived).lastRcvSeq then (i : ℤ)
      else (statusOf size arrived).lastRcvSeq) = (((insert i arrived).sup id : ℕ) : ℤ) := by
    have hold : (statusOf size arrived).lastRcvSeq = ((arrived.sup id : ℕ) : ℤ) := rfl
    rw [hsup]
    split <;> omega
  have hw : (windowWidth : ℤ) = maxAckBitPattern := rfl
  have hok := processData_ok hint hmark hscan
  simp only [hlast] at hok
  -- the numbers fit the window, so it does not slide
  rw [if_neg (by omega)] at hok
  exact hok

theorem processAll_statusOf {size : ℕ} (hsize : size ≤ 2 ^ 31) (hwidth : windowWidth < size)
    (packets : List NodePacket) (h : ∀ p ∈ packets, p.seqNumber.toNat < windowWidth) :
    processAll (initializeNodeStatus size) packets = .ok (statusOf size (seqNumbers packets).toFinset) := by
  induction packets using List.reverseRecOn with
  | nil => exact congrArg Except.ok (statusOf_empty size).symm
  | append_singleton ps p ih =>
    have hps : ∀ q ∈ ps, q.seqNumber.toNat < windowWidth := fun q hq => h q (List.mem_append_left _ hq)
    have hp := h p (List.mem_append_right _ (List.mem_singleton_self p))
    have harrived : ∀ s ∈ (seqNumbers ps).toFinset, s < windowWidth := by
      intro s hs
      obtain ⟨q, hq, rfl⟩ := List.mem_map.mp (List.mem_toFinset.mp hs)
      exact hps q hq
    have hset : (seqNumbers (ps ++ [p])).toFinset = insert p.seqNumber.toNat (seqNumbers ps).toFinset := by
      ext s
      simp [seqNumbers]
    rw [processAll_append, ih hps, ok_bind, processAll_singleton, hset]
    exact processData_statusOf hsize hwidth harrived hp

/-- **The window does not depend on arrival order or duplicates.** Two sequences of the same numbers below
`max_ACK_bit_pattern` end in one status: the least missing number, the largest, and exactly the arrived
numbers marked. -/
theorem arrival_order_irrelevant (ps qs : List NodePacket)
    (hps : ∀ p ∈ ps, (p.seqNumber.toNat : ℤ) < maxAckBitPattern)
    (hqs : ∀ q ∈ qs, (q.seqNumber.toNat : ℤ) < maxAckBitPattern)
    (hsame : ∀ n, n ∈ seqNumbers ps ↔ n ∈ seqNumbers qs) :
    ∃ status, processAll (initializeNodeStatus maxSeqNumber) ps = .ok status ∧
      processAll (initializeNodeStatus maxSeqNumber) qs = .ok status ∧
      (∃ first : ℕ, status.rcvSeq = first ∧ IsLeast {n | n ∉ seqNumbers ps} first) ∧
      status.lastRcvSeq = ((seqNumbers ps).foldl max 0 : ℕ) ∧
      status.rcvState = fun n => if n ∈ seqNumbers ps then 1 else 0 := by
  have hw : (windowWidth : ℤ) = maxAckBitPattern := rfl
  have hrun := processAll_statusOf (show maxSeqNumber ≤ 2 ^ 31 by decide) (show windowWidth < maxSeqNumber by decide)
  have hset : (seqNumbers ps).toFinset = (seqNumbers qs).toFinset := by
    ext n
    rw [List.mem_toFinset, List.mem_toFinset, hsame]
  refine ⟨statusOf maxSeqNumber (seqNumbers ps).toFinset, hrun ps fun p hp => ?_, ?_, ⟨_, rfl, ?_, ?_⟩, ?_, ?_⟩
  · have := hps p hp
    omega
  · rw [hset]
    exact hrun qs fun q hq => by have := hqs q hq; omega
  · exact fun hmem => firstMissing_notMem (seqNumbers ps).toFinset 0 (List.mem_toFinset.mpr hmem)
  · intro n hn
    by_contra hlt
    exact hn (List.mem_toFinset.mp (mem_of_lt_firstMissing (Nat.zero_le n) (Nat.not_le.mp hlt)))
  · rw [foldl_max_eq_sup]
    rfl
  · funext n
    simp [statusOf]

/-- Three packets, and the same numbers in another order with two of them twice. -/
theorem arrival_order_irrelevant_shuffled :
    let p : ℕ → NodePacket := fun n => ⟨1, 1, 0, UInt32.ofNat n, []⟩
    ∃ status, processAll (initializeNodeStatus maxSeqNumber) [p 0, p 1, p 5] = .ok status ∧
      processAll (initializeNodeStatus maxSeqNumber) [p 5, p 1, p 1, p 0, p 5] = .ok status ∧
      (∃ first : ℕ, status.rcvSeq = first ∧ IsLeast {n | n ∉ seqNumbers [p 0, p 1, p 5]} first) ∧
      status.lastRcvSeq = ((seqNumbers [p 0, p 1, p 5]).foldl max 0 : ℕ) ∧
      status.rcvState = fun n => if n ∈ seqNumbers [p 0, p 1, p 5] then 1 else 0 :=
  arrival_order_irrelevant _ _ (by decide) (by decide) fun n => by
    simp [seqNumbers]
    omega

end CiotVlc.Node
