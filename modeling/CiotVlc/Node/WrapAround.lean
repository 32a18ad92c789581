import CiotVlc.Gateway.Dispatch
import CiotVlc.Node.Window
import CiotVlc.Report.Packet

/-! # Sequence numbers past the end of the table

The gateway numbers packets modulo `MAX_SEQ_NUMBER`; the node compares plain integers, and its scan for
the first missing packet has no bound. Received in order, every packet but the last number of a
round is handled as it should be. The last number fills the table, and the scan leaves it.
-/
namespace CiotVlc.Node
open Foundations.Bytes Foundations.Checked Foundations.SlidingWindow CiotVlc.Gateway CiotVlc.Report
set_option autoImplicit false

/-- The numbers that the gateway stores in the next `n` packets of a node. -/
def numberPackets : ℕ → ℤ → List UInt32
  | 0, _ => []
  | n + 1, arrSeq => seqField arrSeq :: numberPackets n (nextSeq arrSeq)

@[simp] theorem numberPackets_length (n : ℕ) (arrSeq : ℤ) : (numberPackets n arrSeq).length = n := by
  induction n generalizing arrSeq with
  | zero => rfl
  | succ n ih => rw [numberPackets, List.length_cons, ih]

theorem numberPackets_getElem? {n start k : ℕ} (hk : k < n) (hlt : start + k < Node.maxSeqNumber) :
    ((numberPackets n start)[k]?).map UInt32.toNat = some (start + k) := by
  simp only [Node.maxSeqNumber] at hlt
  induction n generalizing start k with
  | zero => omega
  | succ n ih =>
    cases k with
    | zero =>
      have hfield : (seqField (start : ℤ)).toNat = start := by
        rw [seqField, UInt32.toNat_ofNat', ofInt32]
        omega
      simpa [numberPackets] using hfield
    | succ k =>
      have hnext : nextSeq (start : ℤ) = ((start + 1 : ℕ) : ℤ) := by
        unfold nextSeq
        rw [Int.tmod_eq_emod_of_nonneg (by omega)]
        simp only [Gateway.maxSeqNumber]
        omega
      rw [numberPackets, List.getElem?_cons_succ, hnext, ih (by omega) (by omega)]
      congr 1
      omega

/-! ## Packets in order -/

/-- The status after the packets `0`..`k - 1`, in order. -/
structure InOrder (k : ℕ) (status : NodeStatus) : Prop where
  size : status.size = maxSeqNumber
  rcvSeq : status.rcvSeq = k
  lastRcvSeq : status.lastRcvSeq = (k - 1 : ℕ)
  rcvState : ∀ s, status.rcvState s = if s < k then 1 else 0

theorem inOrder_initialize : InOrder 0 (initializeNodeStatus maxSeqNumber) :=
  ⟨rfl, rfl, rfl, fun s => by simp [initializeNodeStatus]⟩

section
variable {k : ℕ} {status : NodeStatus} {p : NodePacket}

theorem InOrder.mark (h : InOrder k status) (hk : k < maxSeqNumber) :
    ∃ rcvState, markReceived status k = .ok rcvState ∧
      ∀ s, rcvState s = if s < k + 1 then 1 else 0 := by
  refine ⟨Function.update status.rcvState k 1, ?_, fun s => ?_⟩
  · rw [markReceived, if_pos (by rw [h.rcvSeq]), writeCell_ok _ _ (by rw [h.size]; exact hk)]
  · rw [Function.update_apply, h.rcvState]
    split_ifs <;> first | rfl | omega

theorem processData_inOrder (h : InOrder k status) (hk : k + 1 < maxSeqNumber) (hp : p.seqNumber.toNat = k) :
    ∃ status', processData status p = .ok status' ∧ InOrder (k + 1) status' := by
  have hint : int32 p.seqNumber.toNat = (k : ℤ) := by
    rw [hp]
    refine int32_of_lt ?_
    simp only [maxSeqNumber] at hk
    omega
  obtain ⟨rcvState, hmark, hcells⟩ := h.mark (by omega)
  have hgap : firstMissing (Finset.range (k + 1)) k = k + 1 := by
    rw [firstMissing_of_mem (by simp), firstMissing_of_notMem (by simp)]
  have hscan : skipReceived status.size rcvState status.rcvSeq = .ok ((k + 1 : ℕ) : ℤ) := by
    rw [h.rcvSeq, @skipReceived_eq _ _ (Finset.range (k + 1)) _ (fun s _ => ?_) (by rw [hgap, h.size]; exact hk),
      hgap]
    rw [hcells, Finset.mem_range]
    split_ifs <;> simp_all
  have hlast : (if (k : ℤ) > status.lastRcvSeq then (k : ℤ) else status.lastRcvSeq) = k := by
    rw [h.lastRcvSeq]
    split <;> omega
  refine ⟨_, processData_ok hint hmark hscan, h.size, ?_, hlast, hcells⟩
  simp only [hlast]
  rw [if_neg (by simp only [maxAckBitPattern]; omega)]

/-- The last number of the table: the scan reads past its end. -/
theorem processData_last_fault (h : InOrder k status) (hk : k + 1 = maxSeqNumber) (hp : p.seqNumber.toNat = k) :
    processData status p = .error (.outOfBounds maxSeqNumber) := by
  have hint : int32 p.seqNumber.toNat = (k : ℤ) := by
    rw [hp]
    refine int32_of_lt ?_
    simp only [maxSeqNumber] at hk
    omega
  obtain ⟨rcvState, hmark, hcells⟩ := h.mark (by omega)
  have hscan : skipReceived status.size rcvState status.rcvSeq = .error (.outOfBounds maxSeqNumber) := by
    rw [h.rcvSeq, h.size]
    refine skipReceived_fault (by omega) fun s _ hs => ?_
    rw [hcells, if_pos (by omega)]
  simp only [processData, hint, hmark, hscan, ok_bind, error_bind]

end

theorem processAll_inOrder {packets : List NodePacket} (hlen : packets.length < maxSeqNumber)
    (hseq : ∀ k (h : k < packets.length), packets[k].seqNumber.toNat = k) :
    ∃ status, processAll (initializeNodeStatus maxSeqNumber) packets = .ok status ∧
      InOrder packets.length status := by
  induction packets using List.reverseRecOn with
  | nil => exact ⟨_, rfl, inOrder_initialize⟩
  | append_singleton ps p ih =>
    rw [List.length_append, List.length_singleton] at hlen
    obtain ⟨st, hrun, hst⟩ := ih (by omega) fun k hk => by
      have h := hseq k (by rw [List.length_append]; omega)
      rwa [List.getElem_append_left hk] at h
    have hp : p.seqNumber.toNat = ps.length := by
      have h := hseq ps.length (by simp)
      rwa [List.getElem_concat_length rfl] at h
    obtain ⟨st', hstep, hst'⟩ := processData_inOrder hst hlen hp
    refine ⟨st', ?_, by rw [List.length_append]; exact hst'⟩
    rw [processAll_append, hrun]
    exact (processAll_singleton st p).trans hstep

/-- After each packet the status reports it as received, and no access left the table. -/
def WrapConsistent (packets : List NodePacket) : Prop :=
  ∀ k < packets.length, ∃ status,
    processAll (initializeNodeStatus maxSeqNumber) (packets.take (k + 1)) = .ok status ∧
    status.rcvSeq = ((k + 1) % maxSeqNumber : ℕ) ∧ patternLength status = 0

section
variable {packets : List NodePacket} {n : ℕ}

theorem seqNumber_of_numbered (hp : packets.map NodePacket.seqNumber = numberPackets n 0) {k : ℕ}
    (hk : k < packets.length) (hlt : k < maxSeqNumber) : packets[k].seqNumber.toNat = k := by
  have hlen : packets.length = n := by rw [← numberPackets_length n 0, ← hp, List.length_map]
  have h := @numberPackets_getElem? n 0 k (by omega) (by omega)
  rw [Nat.cast_zero, ← hp, List.getElem?_map, List.getElem?_eq_getElem hk, Option.map_some, Option.map_some,
    Option.some.injEq] at h
  omega

theorem processAll_take (hp : packets.map NodePacket.seqNumber = numberPackets n 0) {k : ℕ}
    (hk : k ≤ packets.length) (hlt : k < maxSeqNumber) :
    ∃ status, processAll (initializeNodeStatus maxSeqNumber) (packets.take k) = .ok status ∧
      InOrder k status := by
  have hlen : (packets.take k).length = k := by rw [List.length_take]; omega
  obtain ⟨st, hrun, hst⟩ := @processAll_inOrder (packets.take k) (by omega) fun j hj => by
    rw [List.getElem_take]
    exact seqNumber_of_numbered hp _ (by omega)
  exact ⟨st, hrun, by rwa [hlen] at hst⟩

/-- A whole round of numbers makes the node read past its table. -/
theorem processAll_round_fault (hp : packets.map NodePacket.seqNumber = numberPackets n 0)
    (hn : maxSeqNumber ≤ packets.length) :
    processAll (initializeNodeStatus maxSeqNumber) (packets.take maxSeqNumber) =
      .error (.outOfBounds maxSeqNumber) := by
  obtain ⟨k, hk⟩ : ∃ k, k + 1 = maxSeqNumber := ⟨499999, rfl⟩
  obtain ⟨st, hrun, hst⟩ := processAll_take hp (k := k) (by omega) (by omega)
  have hseq := seqNumber_of_numbered hp (k := k) (by omega) (by omega)
  have hfault := processData_last_fault hst hk hseq
  have htake : packets.take maxSeqNumber = packets.take k ++ [packets[k]] := by
    rw [← hk, List.take_succ_eq_append_getElem]
  rw [htake, processAll_append, hrun, ok_bind, processAll_singleton, hfault]

theorem not_wrapConsistent (hp : packets.map NodePacket.seqNumber = numberPackets n 0)
    (hn : maxSeqNumber ≤ packets.length) : ¬ WrapConsistent packets := by
  intro h
  obtain ⟨k, hk⟩ : ∃ k, k + 1 = maxSeqNumber := ⟨499999, rfl⟩
  obtain ⟨st, hrun, _⟩ := h k (by omega)
  rw [hk, processAll_round_fault hp hn] at hrun
  cases hrun

end

/-- The first round of packets, received in order: the last one is not handled. -/
theorem wrap_fails_at_500000 :
    ¬ WrapConsistent ((numberPackets 500000 0).map fun seq => ⟨1, 1, 0, seq, []⟩) := by
  refine not_wrapConsistent (n := 500000) ?_ ?_
  · simp [Function.comp_def]
  · rw [List.length_map, numberPackets_length]
    exact le_refl 500000

/-- **Wrap-around.** The node handles `n` packets received in order exactly when the numbers do not reach
the end of the table. -/
theorem wrapConsistent_iff (n : ℕ) (packets : List NodePacket)
    (hp : packets.map NodePacket.seqNumber = numberPackets n 0) :
    WrapConsistent packets ↔ n < maxSeqNumber := by
  have hlen : packets.length = n := by rw [← numberPackets_length n 0, ← hp, List.length_map]
  constructor
  · intro h
    by_contra hge
    exact not_wrapConsistent hp (by omega) h
  · intro hn k hk
    obtain ⟨st, hrun, hst⟩ := processAll_take hp (k := k + 1) (by omega) (by omega)
    refine ⟨st, hrun, ?_, ?_⟩
    · rw [hst.rcvSeq, Nat.mod_eq_of_lt (by omega)]
    · rw [patternLength, hst.rcvSeq, hst.lastRcvSeq]
      omega

/-- Three packets in order. -/
theorem wrapConsistent_iff_three :
    WrapConsistent [⟨1, 1, 0, 0, []⟩, ⟨1, 1, 0, 1, []⟩, ⟨1, 1, 0, 2, []⟩] :=
  (wrapConsistent_iff 3 _ (by decide)).mpr (by decide)

end CiotVlc.Node
