import CiotVlc.Foundations.Bytes
import CiotVlc.Foundations.Checked
import CiotVlc.Node.Packet

/-! # The node's receive status

`process_data` of the node program: the table `rcv_state` of received sequence numbers, the first
number still waited for and the largest one seen. The table has the size that `malloc` gave it, and
an access outside it is a fault.
-/
namespace CiotVlc.Node
open Foundations.Bytes Foundations.Checked
set_option autoImplicit false

def maxSeqNumber : ℕ := 500000
def maxAckBitPattern : ℤ := 100000

/-- `struct node_status`, with the number of entries that `rcv_state` was allocated with. -/
structure NodeStatus where
  rcvSeq : ℤ
  rcvState : ℕ → ℤ
  lastRcvSeq : ℤ
  size : ℕ

def initializeNodeStatus (maxSequence : ℕ) : NodeStatus :=
  { rcvSeq := 0, rcvState := fun _ => 0, lastRcvSeq := 0, size := maxSequence }

/-- `while (rcv_state[rcv_seq] == 1) rcv_seq += 1` -/
def skipReceived (size : ℕ) (rcvState : ℕ → ℤ) (rcvSeq : ℤ) : Except Fault ℤ :=
  if 0 ≤ rcvSeq ∧ rcvSeq < size then
    if rcvState rcvSeq.toNat = 1 then skipReceived size rcvState (rcvSeq + 1) else .ok rcvSeq
  else .error (.outOfBounds rcvSeq)
  termination_by (size - rcvSeq).toNat

/-- `if (i >= rcv_seq) rcv_state[i] = 1` -/
def markReceived (status : NodeStatus) (i : ℤ) : Except Fault (ℕ → ℤ) :=
  if i ≥ status.rcvSeq then writeCell status.size status.rcvState i 1 else .ok status.rcvState

/-- What `process_data` does with one packet of the process queue. -/
def processData (status : NodeStatus) (processed : NodePacket) : Except Fault NodeStatus := do
  let i := int32 processed.seqNumber.toNat
  let rcvState ← markReceived status i
  let lastRcvSeq := if i > status.lastRcvSeq then i else status.lastRcvSeq
  let rcvSeq ← skipReceived status.size rcvState status.rcvSeq
  let rcvSeq :=
    if lastRcvSeq - rcvSeq + 1 > maxAckBitPattern then lastRcvSeq - maxAckBitPattern + 1 else rcvSeq
  return { status with rcvSeq, rcvState, lastRcvSeq }

theorem processData_ok {status : NodeStatus} {p : NodePacket} {i r : ℤ} {rcvState : ℕ → ℤ}
    (hi : int32 p.seqNumber.toNat = i) (hmark : markReceived status i = .ok rcvState)
    (hscan : skipReceived status.size rcvState status.rcvSeq = .ok r) :
    processData status p =
      let last := if i > status.lastRcvSeq then i else status.lastRcvSeq
      .ok { status with
        rcvSeq := if last - r + 1 > maxAckBitPattern then last - maxAckBitPattern + 1 else r
        rcvState, lastRcvSeq := last } := by
  simp only [processData, hi, hmark, hscan, ok_bind, pure_eq_ok]

/-! ## Packets that change nothing -/

theorem skipReceived_ge {size : ℕ} {rcvState : ℕ → ℤ} {rcvSeq r : ℤ}
    (h : skipReceived size rcvState rcvSeq = .ok r) : rcvSeq ≤ r := by
  -- along the scan
  induction rcvSeq using skipReceived.induct size rcvState with
  | case1 rcvSeq hin hone ih =>
    rw [skipReceived, if_pos hin, if_pos hone] at h
    have := ih h
    omega
  | case2 rcvSeq hin hne =>
    rw [skipReceived, if_pos hin, if_neg hne] at h
    cases h
    exact le_rfl
  | case3 rcvSeq hout =>
    rw [skipReceived, if_neg hout] at h
    cases h

theorem skipReceived_self_iff {size : ℕ} {rcvState : ℕ → ℤ} {rcvSeq : ℤ} :
    skipReceived size rcvState rcvSeq = .ok rcvSeq ↔
      0 ≤ rcvSeq ∧ rcvSeq < size ∧ rcvState rcvSeq.toNat ≠ 1 := by
  constructor
  · intro h
    rw [skipReceived] at h
    split at h
    · next hin =>
      split at h
      · have := skipReceived_ge h
        omega
      · next hne => exact ⟨hin.1, hin.2, hne⟩
    · cases h
  · rintro ⟨h0, h1, hne⟩
    rw [skipReceived, if_pos ⟨h0, h1⟩, if_neg hne]

/-! ## Packets that are handled inside the table -/

theorem markReceived_returns_iff {status : NodeStatus} {i : ℤ} (h : 0 ≤ status.rcvSeq) :
    (∃ rcvState, markReceived status i = .ok rcvState) ↔ i < status.rcvSeq ∨ i < status.size := by
  unfold markReceived
  by_cases hge : i ≥ status.rcvSeq
  · rw [if_pos hge]
    constructor
    · rintro ⟨rcvState, hwrite⟩
      exact Or.inr (writeCell_eq_ok hwrite).2.1
    · intro hlt
      exact ⟨_, if_pos ⟨by omega, by omega⟩⟩
  · rw [if_neg hge]
    exact iff_of_true ⟨_, rfl⟩ (Or.inl (by omega))

/-- The scan stays inside the table exactly when some entry ahead of it is not marked. -/
theorem skipReceived_returns_iff {size : ℕ} {rcvState : ℕ → ℤ} {rcvSeq : ℤ} (h : 0 ≤ rcvSeq) :
    (∃ r, skipReceived size rcvState rcvSeq = .ok r) ↔
      ∃ n : ℕ, rcvSeq ≤ n ∧ n < size ∧ rcvState n ≠ 1 := by
  -- along the scan
  induction rcvSeq using skipReceived.induct size rcvState with
  | case1 rcvSeq hin hone ih =>
    rw [skipReceived, if_pos hin, if_pos hone, ih (by omega)]
    constructor
    · rintro ⟨n, hle, hn⟩
      exact ⟨n, by omega, hn⟩
    · rintro ⟨n, hle, hlt, hne⟩
      have hother : (n : ℤ) ≠ rcvSeq := by
        rintro rfl
        exact hne hone
      exact ⟨n, by omega, hlt, hne⟩
  | case2 rcvSeq hin hne =>
    rw [skipReceived, if_pos hin, if_neg hne]
    exact iff_of_true ⟨_, rfl⟩ ⟨rcvSeq.toNat, by omega, by omega, hne⟩
  | case3 rcvSeq hout =>
    rw [skipReceived, if_neg hout]
    refine iff_of_false ?_ ?_
    · rintro ⟨r, hr⟩
      cases hr
    · rintro ⟨n, hle, hlt, -⟩
      omega

theorem processData_returns_iff {status : NodeStatus} {p : NodePacket} (h : 0 ≤ status.rcvSeq) :
    (∃ status', processData status p = .ok status') ↔
      (int32 p.seqNumber.toNat < status.rcvSeq ∨ int32 p.seqNumber.toNat < status.size) ∧
        ∃ n : ℕ, status.rcvSeq ≤ n ∧ n < status.size ∧ (n : ℤ) ≠ int32 p.seqNumber.toNat ∧
          status.rcvState n ≠ 1 := by
  obtain ⟨i, hi⟩ : ∃ i, int32 p.seqNumber.toNat = i := ⟨_, rfl⟩
  rw [hi]
  -- the scan runs over the table with entry `i` marked
  have hscan : ∀ rcvState, markReceived status i = .ok rcvState →
      ((∃ r, skipReceived status.size rcvState status.rcvSeq = .ok r) ↔
        ∃ n : ℕ, status.rcvSeq ≤ n ∧ n < status.size ∧ (n : ℤ) ≠ i ∧ status.rcvState n ≠ 1) := by
    intro rcvState hmark
    rw [skipReceived_returns_iff h]
    refine exists_congr fun n => and_congr_right fun hle => and_congr_right fun _ => ?_
    unfold markReceived at hmark
    split at hmark
    · next hge =>
      obtain ⟨h0, -, rfl⟩ := writeCell_eq_ok hmark
      by_cases hn : (n : ℤ) = i
      · have hto : n = i.toNat := by omega
        rw [hto, Function.update_self]
        exact iff_of_false (fun hne => hne rfl) fun hne => hne.1 (by omega)
      · rw [Function.update_of_ne (by omega)]
        simp [hn]
    · cases hmark
      exact ⟨fun hne => ⟨by omega, hne⟩, fun hne => hne.2⟩
  rw [← markReceived_returns_iff h]
  constructor
  · rintro ⟨status', hrun⟩
    obtain ⟨rcvState, hmark, hrun⟩ := bind_eq_ok.mp hrun
    obtain ⟨r, hskip, -⟩ := bind_eq_ok.mp hrun
    rw [hi] at hmark
    exact ⟨⟨rcvState, hmark⟩, (hscan rcvState hmark).mp ⟨r, hskip⟩⟩
  · rintro ⟨⟨rcvState, hmark⟩, hgap⟩
    obtain ⟨r, hskip⟩ := (hscan rcvState hmark).mpr hgap
    exact ⟨_, processData_ok hi hmark hskip⟩

theorem processData_rcvSeq_ge {status status' : NodeStatus} {p : NodePacket}
    (hrun : processData status p = .ok status') :
    status.rcvSeq ≤ status'.rcvSeq ∧ status'.size = status.size := by
  obtain ⟨rcvState, -, hrun⟩ := bind_eq_ok.mp hrun
  obtain ⟨r, hskip, hrun⟩ := bind_eq_ok.mp hrun
  have hge := skipReceived_ge hskip
  cases hrun
  refine ⟨?_, rfl⟩
  simp only
  split <;> omega

/-! ## Duplicates -/

/-- The window has `i` already, and stands at a gap. -/
structure AlreadyCounted (status : NodeStatus) (i : ℤ) : Prop where
  received : i < status.rcvSeq ∨ 0 ≤ i ∧ i < status.size ∧ status.rcvState i.toNat = 1
  seen : i ≤ status.lastRcvSeq
  gap : 0 ≤ status.rcvSeq ∧ status.rcvSeq < status.size ∧ status.rcvState status.rcvSeq.toNat ≠ 1
  narrow : status.lastRcvSeq - status.rcvSeq + 1 ≤ maxAckBitPattern

/-- What a report says about the node is the same. -/
structure SameWindow (before after : NodeStatus) : Prop where
  rcvSeq : after.rcvSeq = before.rcvSeq
  rcvState : after.rcvState = before.rcvState
  lastRcvSeq : after.lastRcvSeq = before.lastRcvSeq

theorem markReceived_self_iff {status : NodeStatus} {i : ℤ} :
    markReceived status i = .ok status.rcvState ↔
      i < status.rcvSeq ∨ 0 ≤ i ∧ i < status.size ∧ status.rcvState i.toNat = 1 := by
  unfold markReceived writeCell
  by_cases hge : i ≥ status.rcvSeq
  · rw [if_pos hge]
    by_cases hin : 0 ≤ i ∧ i < status.size
    · rw [if_pos hin, Except.ok.injEq, Function.update_eq_self_iff]
      constructor
      · exact fun h => Or.inr ⟨hin.1, hin.2, h.symm⟩
      · rintro (hlt | ⟨-, -, hone⟩)
        · omega
        · exact hone.symm
    · rw [if_neg hin]
      constructor
      · exact fun h => by cases h
      · rintro (hlt | ⟨h0, h1, -⟩)
        · omega
        · exact absurd ⟨h0, h1⟩ hin
  · rw [if_neg hge]
    exact iff_of_true rfl (Or.inl (by omega))

theorem processData_same_iff (status : NodeStatus) (p : NodePacket) :
    (∃ status', processData status p = .ok status' ∧ SameWindow status status') ↔
      AlreadyCounted status (int32 p.seqNumber.toNat) := by
  obtain ⟨i, hi⟩ : ∃ i, int32 p.seqNumber.toNat = i := ⟨_, rfl⟩
  rw [hi]
  constructor
  · rintro ⟨status', hrun, hsame⟩
    obtain ⟨rcvState, hmark, hrun⟩ := bind_eq_ok.mp hrun
    obtain ⟨r, hscan, hrun⟩ := bind_eq_ok.mp hrun
    rw [hi] at hmark
    rw [hi, pure_eq_ok, Except.ok.injEq] at hrun
    subst hrun
    have hstate := hsame.rcvState
    have hlast := hsame.lastRcvSeq
    have hseq := hsame.rcvSeq
    simp only at hstate hlast hseq
    rw [hstate] at hmark hscan
    have hge := skipReceived_ge hscan
    have hseen : i ≤ status.lastRcvSeq := by
      split at hlast <;> omega
    rw [hlast] at hseq
    -- the second branch would move the head below itself
    have hself : r = status.rcvSeq ∧ status.lastRcvSeq - r + 1 ≤ maxAckBitPattern := by
      split at hseq <;> constructor <;> omega
    rw [hself.1] at hscan hself
    exact ⟨markReceived_self_iff.mp hmark, hseen, skipReceived_self_iff.mp hscan, hself.2⟩
  · intro h
    have hlast : (if i > status.lastRcvSeq then i else status.lastRcvSeq) = status.lastRcvSeq :=
      if_neg (by have := h.seen; omega)
    have hok := processData_ok hi (markReceived_self_iff.mpr h.received) (skipReceived_self_iff.mpr h.gap)
    simp only [hlast] at hok
    rw [if_neg (by have := h.narrow; omega)] at hok
    exact ⟨_, hok, rfl, rfl, rfl⟩

/-! ## The process queue -/

def processAll (status : NodeStatus) (packets : List NodePacket) : Except Fault NodeStatus :=
  packets.foldlM processData status

theorem processAll_append (status : NodeStatus) (ps qs : List NodePacket) :
    processAll status (ps ++ qs) = processAll status ps >>= fun st => processAll st qs :=
  List.foldlM_append

theorem processAll_singleton (status : NodeStatus) (p : NodePacket) :
    processAll status [p] = processData status p := by
  rw [processAll, List.foldlM_cons]
  cases processData status p <;> rfl

end CiotVlc.Node
