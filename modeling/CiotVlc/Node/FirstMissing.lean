import CiotVlc.Node.Window

/-! # The first packet not received

`rcv_seq` goes out in every report as the first packet not received. `process_data` scans past what has
been received, then slides the window, and does not scan again: a jump ahead can leave `rcv_seq` on a
packet that has been received.
-/
namespace CiotVlc.Node
open Foundations.Bytes Foundations.Checked Foundations.SlidingWindow
set_option autoImplicit false

/-! ## Entries of the table -/

def Binary (status : NodeStatus) : Prop := ∀ s, status.rcvState s = 0 ∨ status.rcvState s = 1

theorem binary_start (size : ℕ) : Binary (initializeNodeStatus size) := fun _ => Or.inl rfl

section
variable {status status' : NodeStatus} {p : NodePacket}

theorem Binary.mark (h : Binary status) {i : ℤ} {rcvState : ℕ → ℤ} (hmark : markReceived status i = .ok rcvState)
    (s : ℕ) : rcvState s = 0 ∨ rcvState s = 1 := by
  unfold markReceived at hmark
  split at hmark
  · obtain ⟨-, -, rfl⟩ := writeCell_eq_ok hmark
    rw [Function.update_apply]
    split
    · exact Or.inr rfl
    · exact h s
  · cases hmark
    exact h s

theorem Binary.processData (h : Binary status) (hrun : processData status p = .ok status') : Binary status' := by
  obtain ⟨rcvState, hmark, hrun⟩ := bind_eq_ok.mp hrun
  obtain ⟨r, -, hrun⟩ := bind_eq_ok.mp hrun
  cases hrun
  exact h.mark hmark

theorem Binary.processAll {packets : List NodePacket} (h : Binary status)
    (hrun : processAll status packets = .ok status') : Binary status' := by
  induction packets generalizing status with
  | nil =>
    cases hrun
    exact h
  | cons p ps ih =>
    obtain ⟨st, hstep, hrun⟩ := bind_eq_ok.mp hrun
    exact ih (h.processData hstep) hrun

end

/-! ## One packet -/

/-- The packet is so far ahead that the window slides past a missing packet onto one received before. -/
structure SlidesOntoReceived (status : NodeStatus) (p : NodePacket) : Prop where
  ahead : status.lastRcvSeq < p.seqNumber.toNat
  received : ∃ k : ℕ, (k : ℤ) = p.seqNumber.toNat - maxAckBitPattern + 1 ∧ status.rcvState k = 1
  passed : ∃ s : ℕ, status.rcvSeq ≤ s ∧ (s : ℤ) < p.seqNumber.toNat - maxAckBitPattern + 1 ∧
    status.rcvState s ≠ 1

/-- After a packet, `rcv_seq` is the first number in the window that has not arrived. -/
structure AtFirstMissing (arrived : List ℕ) (status status' : NodeStatus) : Prop where
  unset : 0 ≤ status'.rcvSeq ∧ status'.rcvState status'.rcvSeq.toNat = 0
  least : ∃ first : ℕ, status'.rcvSeq = first ∧
    IsLeast {s : ℕ | status.rcvSeq ≤ s ∧ status'.lastRcvSeq - maxAckBitPattern + 1 ≤ s ∧ s ∉ arrived} first

section
variable {status status' : NodeStatus} {w : Window} {p : NodePacket}

theorem slidesOntoReceived_iff (ht : Tracks status w) (hp : p.seqNumber.toNat < status.size) :
    SlidesOntoReceived status p ↔ w.LandsOnMarked windowWidth p.seqNumber.toNat := by
  have hw : (windowWidth : ℤ) = maxAckBitPattern := rfl
  have hpos : 0 < maxAckBitPattern := by decide
  constructor
  · rintro ⟨hahead, ⟨k, hk, hone⟩, s, hs, hlt, hne⟩
    rw [ht.lastRcvSeq] at hahead
    rw [ht.rcvSeq] at hs
    have hk' : p.seqNumber.toNat + 1 - windowWidth = k := by omega
    refine ⟨by omega, ?_, s, by omega, by omega, ?_⟩
    · rw [hk']
      exact (ht.rcvState k (by omega)).mp hone
    · exact fun hm => hne ((ht.rcvState s (by omega)).mpr hm)
  · rintro ⟨hahead, hmem, s, hs, hlt, hnot⟩
    refine ⟨by rw [ht.lastRcvSeq]; omega, ⟨_, ?_, (ht.rcvState _ (by omega)).mpr hmem⟩, s, ?_, by omega, ?_⟩
    · omega
    · rw [ht.rcvSeq]
      omega
    · exact fun hone => hnot ((ht.rcvState s (by omega)).mp hone)

theorem atFirstMissing_iff {arrived : List ℕ} (hwin : Exact windowWidth arrived.toFinset w)
    (ht : Tracks status w) (ht' : Tracks status' (w.accept windowWidth p.seqNumber.toNat))
    (hbin : Binary status') (hlast : (w.accept windowWidth p.seqNumber.toNat).last + 1 < status'.size)
    (hp : p.seqNumber.toNat < status.size) :
    AtFirstMissing (arrived ++ [p.seqNumber.toNat]) status status' ↔ ¬ SlidesOntoReceived status p := by
  have hw : (windowWidth : ℤ) = maxAckBitPattern := rfl
  obtain ⟨i, hi⟩ : ∃ i, p.seqNumber.toNat = i := ⟨_, rfl⟩
  rw [slidesOntoReceived_iff ht hp, ← accept_head_notMem_iff (by decide) hwin]
  rw [hi] at ht' hlast ⊢
  have hwin' := accept_exact (show 0 < windowWidth by decide) hwin i
  have hset : ∀ s, s ∉ arrived ++ [i] ↔ s ∉ insert i arrived.toFinset := by
    intro s
    simp [or_comm]
  have hcell := ht'.rcvState (w.accept windowWidth i).head (by have := hwin'.head_le; omega)
  constructor
  · intro h hmem
    have hzero := h.unset.2
    rw [ht'.rcvSeq, Int.toNat_natCast, hcell.mpr hmem] at hzero
    cases hzero
  · intro hnot
    refine ⟨⟨by rw [ht'.rcvSeq]; omega, ?_⟩, _, ht'.rcvSeq, ⟨?_, ?_, ?_⟩, ?_⟩
    · rw [ht'.rcvSeq, Int.toNat_natCast]
      exact (hbin _).resolve_right fun hone => hnot (hcell.mp hone)
    · have := w.head_le_accept windowWidth i
      rw [ht.rcvSeq]
      omega
    · have : (w.accept windowWidth i).last + 1 - windowWidth ≤ (w.accept windowWidth i).head := le_max_right _ _
      rw [ht'.lastRcvSeq]
      omega
    · exact (hset _).mpr fun harr => hnot ((hwin'.marked_iff _ le_rfl).mpr harr)
    · rintro s ⟨hs, hlow, hmiss⟩
      rw [ht.rcvSeq] at hs
      rw [ht'.lastRcvSeq] at hlow
      exact accept_head_le hwin i (by omega) (by omega) ((hset s).mp hmiss)

end

/-- One packet of a run leaves `rcv_seq` at the first missing one unless it slides onto a received one. -/
theorem processData_atFirstMissing_iff (before : List NodePacket) (p : NodePacket)
    (h : ∀ q ∈ before ++ [p], q.seqNumber.toNat ≤ maxSeqNumber - 2) :
    ∃ status status', processAll (initializeNodeStatus maxSeqNumber) before = .ok status ∧
      processData status p = .ok status' ∧
      (AtFirstMissing (seqNumbers (before ++ [p])) status status' ↔ ¬ SlidesOntoReceived status p) := by
  have hlt : ∀ q ∈ before ++ [p], q.seqNumber.toNat + 1 < maxSeqNumber := by
    intro q hq
    have := h q hq
    simp only [maxSeqNumber] at this ⊢
    omega
  obtain ⟨st, st', hrun, hstep, hst, hst', ht, ht'⟩ :=
    processAll_snoc_tracks (by decide) (show 1 < maxSeqNumber by decide) before p hlt
  have hw := acceptAll_exact (show 0 < windowWidth by decide) (seqNumbers before)
  have hlast := last_lt (show 1 < maxSeqNumber by decide) hlt
  rw [seqNumbers_snoc, Window.acceptAll_append] at hlast
  have hp := hlt p (List.mem_append_right _ (List.mem_singleton_self p))
  refine ⟨st, st', hrun, hstep, ?_⟩
  rw [seqNumbers_snoc]
  exact atFirstMissing_iff hw ht ht' (((binary_start _).processAll hrun).processData hstep)
    (by rw [hst']; exact hlast) (by rw [hst]; omega)

/-! ## Runs -/

/-- Every packet of the run is handled, and what `P` says of it holds. -/
def EveryPacket (packets : List NodePacket) (P : List NodePacket → NodeStatus → NodePacket → NodeStatus → Prop) :
    Prop :=
  ∀ before p, before ++ [p] <+: packets →
    ∃ status status', processAll (initializeNodeStatus maxSeqNumber) before = .ok status ∧
      processData status p = .ok status' ∧ P before status p status'

/-- **When the acknowledged number is the first one missing.** It is after every packet of a run exactly when
no packet slides the window past a missing number onto a received one. -/
theorem rcv_seq_first_missing_iff (packets : List NodePacket)
    (h : ∀ p ∈ packets, p.seqNumber.toNat ≤ maxSeqNumber - 2) :
    (EveryPacket packets fun before status p status' =>
        AtFirstMissing (seqNumbers (before ++ [p])) status status') ↔
      EveryPacket packets fun _ status p _ => ¬ SlidesOntoReceived status p := by
  have hstep : ∀ before p, before ++ [p] <+: packets → ∀ q ∈ before ++ [p],
      q.seqNumber.toNat ≤ maxSeqNumber - 2 := fun before p hpre q hq => h q (hpre.subset hq)
  constructor
  · intro hall before p hpre
    obtain ⟨st, st', hrun, hdata, hiff⟩ := processData_atFirstMissing_iff before p (hstep before p hpre)
    obtain ⟨t, t', hrun', hdata', hfirst⟩ := hall before p hpre
    cases hrun.symm.trans hrun'
    cases hdata.symm.trans hdata'
    exact ⟨st, st', hrun, hdata, hiff.mp hfirst⟩
  · intro hall before p hpre
    obtain ⟨st, st', hrun, hdata, hiff⟩ := processData_atFirstMissing_iff before p (hstep before p hpre)
    obtain ⟨t, t', hrun', hdata', hgood⟩ := hall before p hpre
    cases hrun.symm.trans hrun'
    exact ⟨st, st', hrun, hdata, hiff.mpr hgood⟩

/-- Packet 1, then packet 100000: the scan stops at the missing packet 0, the slide moves on to packet 1, and
the report names a packet that has been received. -/
theorem slide_onto_received :
    let p : ℕ → NodePacket := fun n => ⟨1, 1, 0, UInt32.ofNat n, []⟩
    (∀ q ∈ [p 1, p 100000], q.seqNumber.toNat ≤ maxSeqNumber - 2) ∧
      (∃ status, processAll (initializeNodeStatus maxSeqNumber) [p 1, p 100000] = .ok status ∧
        status.rcvSeq = 1 ∧ status.rcvState 1 = 1) ∧
      ¬ EveryPacket [p 1, p 100000] fun before status p status' =>
        AtFirstMissing (seqNumbers (before ++ [p])) status status' := by
  intro p
  have h1 : processData (initializeNodeStatus maxSeqNumber) (p 1) =
      .ok ⟨0, Function.update (fun _ => 0) 1 1, 1, maxSeqNumber⟩ :=
    @processData_ok (initializeNodeStatus maxSeqNumber) (p 1) 1 0 _ rfl rfl
      (skipReceived_self_iff.mpr ⟨by decide, by decide, by decide⟩)
  have h2 : processData ⟨0, Function.update (fun _ => 0) 1 1, 1, maxSeqNumber⟩ (p 100000) =
      .ok ⟨1, Function.update (Function.update (fun _ => 0) 1 1) 100000 1, 100000, maxSeqNumber⟩ :=
    @processData_ok ⟨0, Function.update (fun _ => 0) 1 1, 1, maxSeqNumber⟩ (p 100000) 100000 0 _ rfl rfl
      (skipReceived_self_iff.mpr ⟨by decide, by decide, by decide⟩)
  have hone : processAll (initializeNodeStatus maxSeqNumber) [p 1] = .ok _ :=
    (processAll_singleton _ _).trans h1
  have hboth : processAll (initializeNodeStatus maxSeqNumber) [p 1, p 100000] = .ok _ :=
    (processAll_append _ [p 1] [p 100000]).trans (by rw [hone, ok_bind, processAll_singleton, h2])
  refine ⟨by decide, ⟨_, hboth, rfl, rfl⟩, fun h => ?_⟩
  obtain ⟨st, st', hrun, hstep, hfirst⟩ := h [p 1] (p 100000) List.prefix_rfl
  cases hone.symm.trans hrun
  cases h2.symm.trans hstep
  exact absurd hfirst.unset.2 (by decide)

/-- Packet 1 and then packet 0. -/
theorem rcv_seq_first_missing_iff_two :
    let p : ℕ → NodePacket := fun n => ⟨1, 1, 0, UInt32.ofNat n, []⟩
    (EveryPacket [p 1, p 0] fun before status p status' =>
        AtFirstMissing (seqNumbers (before ++ [p])) status status') ↔
      EveryPacket [p 1, p 0] fun _ status p _ => ¬ SlidesOntoReceived status p :=
  rcv_seq_first_missing_iff _ (by decide)

end CiotVlc.Node
