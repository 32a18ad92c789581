import Mathlib.Data.List.NodupEquivFin
import CiotVlc.Gateway.DispatchIndex

/-! # Sequence numbers of queued packets

A node queue holds consecutive numbers modulo `MAX_SEQ_NUMBER`, so a number comes twice as soon as the
queue is longer than that; and `NODE_QUEUE_SIZE` is twice as large. `uniqueNumbers_iff` is the exact
condition on the passes of `generate_packet`.
-/
namespace CiotVlc.Gateway
open Foundations.Runs
set_option autoImplicit false

/-! ## The numbers in a queue -/

def UniqueNumbers (s : DispatchSystem) : Prop :=
  ∀ i, (((s.globals.nodeQueues i).cells s.globals.heap.next).map fun a =>
    (s.globals.heap.data a).seqNumber).Nodup

/-- Consecutive numbers are distinct as long as they do not wrap around completely. -/
theorem numbered_nodup_iff (start n : ℕ) : (numbered start n).Nodup ↔ n ≤ maxSeqNumber := by
  rw [numbered, List.nodup_map_iff_inj_on List.nodup_range]
  simp only [List.mem_range]
  constructor
  · intro hinj
    by_contra hlong
    have hwrap := hinj 0 (by omega) maxSeqNumber (by omega) (by simp)
    simp [maxSeqNumber] at hwrap
  · intro hle j hj k hk heq
    simp only [maxSeqNumber] at hle heq
    omega

theorem uniqueNumbers_iff_gn_le {cfg : Config} {s : DispatchSystem} (hinv : DispatchInv cfg s) :
    UniqueNumbers s ↔ ∀ i, s.globals.gn i ≤ maxSeqNumber := by
  obtain ⟨queues, popped, hs, hc⟩ := hinv
  apply forall_congr'
  intro i
  rw [(hs.holds i).cells_eq, hc.gn i, Int.ofNat_le, ← numbered_nodup_iff (popped i), ← hc.seq i]
  have hinj : Function.Injective UInt32.toNat := fun a b h => UInt32.toNat_inj.mp h
  rw [← List.nodup_map_iff hinj, List.map_map]
  rfl

/-! ## What a step does to the queues -/

/-- The queue of the node is no longer than `MAX_SEQ_NUMBER` after what a pass generates. -/
def FitsSequence (cfg : Config) (s : DispatchSystem) : DispatchAction cfg → Prop
  | .generate _ => s.globals.gn s.genNode + generated cfg s.globals s.genNode ≤ maxSeqNumber
  | .schedule _ _ => True

/-- A generating step adds what it generates to one queue, and a scheduling step adds nothing. -/
theorem dispatchStep_gn {cfg : Config} {s t : DispatchSystem} {a : DispatchAction cfg}
    (hinv : DispatchInv cfg s) (hstep : dispatchStep cfg s a = some t) (j : ℕ) :
    match a with
    | .generate _ => t.globals.gn j =
        s.globals.gn j + if j = s.genNode then (generated cfg s.globals s.genNode : ℤ) else 0
    | .schedule _ _ => t.globals.gn j ≤ s.globals.gn j := by
  obtain ⟨queues, popped, hs, hc⟩ := hinv
  cases a with
  | generate payloads =>
    obtain ⟨g, queues', hgen, -, hc', hlen⟩ := generatePacket_ok hs hc s.genNode payloads
    simp only [dispatchStep, hgen] at hstep
    split at hstep
    · cases hstep
      change g.gn j = _
      rw [hc'.gn, hc.gn, hlen]
      push_cast
      rfl
    · cases hstep
  | schedule result now =>
    change t.globals.gn j ≤ _
    simp only [dispatchStep] at hstep
    split at hstep
    swap
    · cases hstep
    obtain ⟨-, hrun⟩ | ⟨-, -, g, hrun, -, hc'⟩ | ⟨-, -, g, expire, hrun, -, -, hc'⟩ :=
      schedulePacket_ok hs hc s.schedNode result now
    · rw [hrun] at hstep
      cases hstep
      exact le_rfl
    · rw [hrun] at hstep
      cases hstep
      change g.gn j ≤ _
      rw [hc'.gn, hc.gn]
    · rw [hrun] at hstep
      cases hstep
      change g.gn j ≤ _
      rw [hc'.gn, hc.gn]
      by_cases hj : j = s.schedNode
      · subst hj
        rw [Function.update_self, List.length_tail]
        omega
      · rw [Function.update_of_ne hj]

/-! ## Runs -/

/-- **The numbers in every queue stay unique exactly as long as no pass of `generate_packet` makes a queue
longer than `MAX_SEQ_NUMBER`.** -/
theorem uniqueNumbers_iff (cfg : Config) (as : List (DispatchAction cfg)) (t : DispatchSystem)
    (hrun : Run (dispatchStep cfg) (initialDispatch cfg) as t) :
    Always (dispatchStep cfg) (initialDispatch cfg) as UniqueNumbers ↔
      EveryStep (dispatchStep cfg) (initialDispatch cfg) as (FitsSequence cfg) := by
  apply always_iff_everyStep (I := fun s => DispatchInv cfg s ∧ ∀ i, s.globals.gn i ≤ maxSeqNumber) hrun
  · exact ⟨dispatchInv_initial cfg, fun _ => Int.natCast_nonneg maxSeqNumber⟩
  · intro s h
    exact (uniqueNumbers_iff_gn_le h.1).mpr h.2
  · intro s a u h hfits hstep
    refine ⟨(dispatchStep_cases h.1 hstep).1, fun i => ?_⟩
    have hgn := dispatchStep_gn h.1 hstep i
    have hold := h.2 i
    cases a with
    | generate payloads =>
      dsimp only at hgn
      rw [hgn]
      split
      · next hi =>
        rw [hi]
        exact hfits
      · omega
    | schedule result now => exact le_trans hgn hold
  · intro s a u h hbad hstep hu
    have hall := (uniqueNumbers_iff_gn_le (dispatchStep_cases h.1 hstep).1).mp hu
    cases a with
    | generate payloads =>
      have hgn := dispatchStep_gn h.1 hstep s.genNode
      dsimp only at hgn
      rw [if_pos rfl] at hgn
      apply hbad
      change _ + _ ≤ _
      rw [← hgn]
      exact hall s.genNode
    | schedule result now => exact hbad trivial

/-- A queue limit of at most `MAX_SEQ_NUMBER + 1` would be enough. -/
theorem uniqueNumbers_of_nodeQueueSize {cfg : Config} (hsize : cfg.nodeQueueSize ≤ maxSeqNumber + 1)
    {s : DispatchSystem} (hreach : Reachable (dispatchStep cfg) (initialDispatch cfg) s) : UniqueNumbers s := by
  have hboth : DispatchInv cfg s ∧ ∀ i, s.globals.gn i ≤ maxSeqNumber := by
    apply hreach.invariant
    · exact ⟨dispatchInv_initial cfg, fun _ => Int.natCast_nonneg maxSeqNumber⟩
    · intro t a u h hstep
      refine ⟨(dispatchStep_cases h.1 hstep).1, fun i => ?_⟩
      have hgn := dispatchStep_gn h.1 hstep i
      have hold := h.2 i
      cases a with
      | generate payloads =>
        dsimp only at hgn
        rw [hgn]
        split
        · next hi =>
          subst hi
          unfold generated
          split <;> omega
        · omega
      | schedule result now => exact le_trans hgn hold
  exact (uniqueNumbers_iff_gn_le hboth.1).mpr hboth.2

/-- Two packets that wait at once, behind one that was scheduled. -/
theorem uniqueNumbers_iff_two_packets :
    let payload : Payload := ⟨List.replicate payloadSize 0, rfl⟩
    let generate : DispatchAction shipped := .generate fun _ => payload
    let as := [generate, .schedule ⟨.rf, []⟩ ⟨0, 0⟩, generate, generate]
    ∃ t, Run (dispatchStep shipped) (initialDispatch shipped) as t ∧ t.globals.gn 0 = 2 ∧
      Always (dispatchStep shipped) (initialDispatch shipped) as UniqueNumbers := by
  intro payload generate as
  have hgn : ∀ k < as.length, (exec (dispatchStep shipped) (initialDispatch shipped) (as.take k)).map
      (fun s => (s.genNode, decide (s.globals.gn 0 ≤ 2))) = some (0, true) := by decide +kernel
  have hend : (exec (dispatchStep shipped) (initialDispatch shipped) as).map (fun s => s.globals.gn 0) = some 2 := by
    decide +kernel
  obtain ⟨t, ht, htwo⟩ := Option.map_eq_some_iff.mp hend
  refine ⟨t, run_of_exec ht, htwo, (uniqueNumbers_iff shipped as t (run_of_exec ht)).mpr ?_⟩
  refine everyStep_of_exec_take fun k hk => ?_
  obtain ⟨s, hs, hstate⟩ := Option.map_eq_some_iff.mp (hgn k hk)
  obtain ⟨hnode, hle⟩ := Prod.mk.inj hstate
  refine ⟨s, hs, fun a => ?_⟩
  cases a with
  | generate payloads =>
    have hone : generated shipped s.globals s.genNode ≤ 1 := by
      unfold generated
      split <;> simp [shipped]
    have htwo := of_decide_eq_true hle
    change _ + _ ≤ _
    rw [hnode] at hone ⊢
    unfold maxSeqNumber
    omega
  | schedule result now => trivial

/-- With the shipped constants, `n` passes of `generate_packet` put `n` packets into the queue. -/
theorem shipped_generates (payloads : ℕ → Payload) {n : ℕ} (hn : n < 1000000) :
    ∃ s, Run (dispatchStep shipped) (initialDispatch shipped) (List.replicate n (.generate payloads)) s ∧
      DispatchInv shipped s ∧ s.genNode = 0 ∧ s.globals.gn 0 = n := by
  induction n with
  | zero => exact ⟨_, .refl, dispatchInv_initial shipped, rfl, rfl⟩
  | succ n ih =>
    obtain ⟨s, hrun, hinv, hnode, hgn⟩ := ih (by omega)
    obtain ⟨queues, popped, hs, hc⟩ := hinv
    obtain ⟨g, queues', hgen, -⟩ := generatePacket_ok hs hc s.genNode payloads
    have hstep : dispatchStep shipped s (.generate payloads) =
        some { s with globals := g, genNode := (s.genNode + 1) % shipped.nNode } := by
      rw [hnode] at hgen ⊢
      simp only [dispatchStep, hnode, hgen]
      rfl
    have hnew := dispatchStep_gn ⟨queues, popped, hs, hc⟩ hstep 0
    have hone : generated shipped s.globals s.genNode = 1 := by
      rw [generated, hnode, hgn, if_pos]
      · rfl
      · change (n : ℤ) + 1 < 1000000
        omega
    dsimp only at hnew
    rw [if_pos hnode.symm, hone, hgn] at hnew
    refine ⟨_, ?_, (dispatchStep_cases ⟨queues, popped, hs, hc⟩ hstep).1, ?_, ?_⟩
    · rw [List.replicate_succ']
      exact hrun.snoc hstep
    · change (s.genNode + 1) % 1 = 0
      exact Nat.mod_one _
    · rw [hnew]
      push_cast
      rfl

/-- After 500001 packets, the first and the last one carry the same number. -/
theorem sameNumber_after_500001 :
    let payload : Payload := ⟨List.replicate payloadSize 0, rfl⟩
    ∃ s, Run (dispatchStep shipped) (initialDispatch shipped)
      (List.replicate 500001 (.generate fun _ => payload)) s ∧ ¬ UniqueNumbers s := by
  intro payload
  obtain ⟨s, hrun, hinv, -, hgn⟩ := shipped_generates (fun _ => payload) (show 500001 < 1000000 by omega)
  refine ⟨s, hrun, fun hu => ?_⟩
  have hle := (uniqueNumbers_iff_gn_le hinv).mp hu 0
  rw [hgn, maxSeqNumber] at hle
  omega

end CiotVlc.Gateway
