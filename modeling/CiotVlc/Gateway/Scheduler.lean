import Mathlib.Algebra.BigOperators.Group.List.Basic
import Mathlib.Algebra.Order.Ring.Rat
import Mathlib.Logic.Relation
import CiotVlc.Foundations.LeastScan
import CiotVlc.Foundations.SwapRemove
import CiotVlc.Gateway.Dispatch

/-! # Selecting the transmitters of a node

The selection loop of `schedule`. It adds transmitters one by one, as long as one of them lowers the
expected cost (`setCost`), and takes the cheapest each time. The transmitters not yet selected are kept
in `vlc_src_set`, but the scan for the cheapest goes over the positions of that array and takes a position
for a transmitter, which is right only until the first removal. `properSelection_iff` is the exact
condition on the costs under which the loop selects what it should.
-/
namespace CiotVlc.Gateway
open Foundations.Checked Foundations.LeastScan Foundations.SwapRemove Relation
set_option autoImplicit false

/-! ## The loop -/

/-- What `schedule` reads for one node. -/
structure SchedulerInput where
  nVlc : ℕ
  gn : ℤ
  r : ℤ
  vk : ℕ → ℤ
  e : ℕ → ℚ

/-- The local variables; the sets are the first `n_vlc_src` and `n_vlc_tgt` cells of the arrays. -/
structure Selection where
  modeTemp : Mode
  vSum : ℤ
  err : ℚ
  tgt : ℚ
  vlcSrcSet : List ℕ
  vlcTgtSet : List ℕ
  deriving DecidableEq

def startSelection (q : SchedulerInput) : Selection where
  modeTemp := if q.gn * -1 + q.r < 0 then .rf else .idle
  vSum := 0
  err := 1
  tgt := if q.gn * -1 + q.r < 0 then ((q.gn * -1 + q.r : ℤ) : ℚ) else 0
  vlcSrcSet := List.range q.nVlc
  vlcTgtSet := []

/-- `temp` -/
def vlcCost (q : SchedulerInput) (s : Selection) (i : ℕ) : ℚ :=
  ((q.gn * -1 + s.vSum + q.vk i : ℤ) : ℚ) + q.r * s.err * q.e i

/-- `vlc_tgt_set[n_vlc_tgt] = vlc_tmp`, in an array of `N_VLC` cells. -/
def addTarget (q : SchedulerInput) (vlcTgtSet : List ℕ) (vlcTmp : ℕ) : Except Fault (List ℕ) :=
  if vlcTgtSet.length < q.nVlc then .ok (vlcTgtSet ++ [vlcTmp]) else .error (.outOfBounds vlcTgtSet.length)

/-- One turn of the `while`; `none` when the loop is left. -/
def selectRound (q : SchedulerInput) (s : Selection) : Except Fault (Option Selection) :=
  if s.vlcSrcSet.length > 0 then
    match scanLeast (vlcCost q s) (List.range s.vlcSrcSet.length) s.tgt with
    | (some vlcTmp, tgt) => do
      let vlcTgtSet ← addTarget q s.vlcTgtSet vlcTmp
      return some {
        modeTemp := .vlc
        vSum := s.vSum + q.vk vlcTmp
        err := s.err * q.e vlcTmp
        tgt
        vlcSrcSet := swapRemove (· == vlcTmp) s.vlcSrcSet
        vlcTgtSet }
    | (none, _) => return none
  else return none

/-- At most `fuel` turns; `none` when they were not enough. -/
def selectionLoop (q : SchedulerInput) : ℕ → Selection → Option (Except Fault Selection)
  | 0, _ => none
  | fuel + 1, s =>
    match selectRound q s with
    | .error f => some (.error f)
    | .ok none => some (.ok s)
    | .ok (some t) => selectionLoop q fuel t

/-- `t` is the state one turn after `s`. -/
def NextRound (q : SchedulerInput) (s t : Selection) : Prop := selectRound q s = .ok (some t)

/-! ## What the loop is for -/

/-- The cost of using the transmitters `c`: every copy waits in a queue, and a packet that all of them
lose goes to the radio link. -/
def setCost (q : SchedulerInput) (c : List ℕ) : ℚ :=
  ((q.gn * -1 + (c.map q.vk).sum : ℤ) : ℚ) + q.r * (c.map q.e).prod

/-- What the next set has to cost less than; with no transmitter the packet may also stay where it is. -/
def target (q : SchedulerInput) (c : List ℕ) : ℚ := if c = [] then min (setCost q []) 0 else setCost q c

def unselected (q : SchedulerInput) (c : List ℕ) : List ℕ := (List.range q.nVlc).filter (· ∉ c)

/-- The cheapest transmitter to add to `c`, the first one of several, if it lowers the cost. -/
def greedyChoice (q : SchedulerInput) (c : List ℕ) : Option ℕ :=
  (scanLeast (fun k => setCost q (c ++ [k])) (unselected q c) (target q c)).1

/-- `c` comes about by greedy choices. -/
inductive GreedySet (q : SchedulerInput) : List ℕ → Prop
  | nil : GreedySet q []
  | snoc {c : List ℕ} {k : ℕ} : GreedySet q c → greedyChoice q c = some k → GreedySet q (c ++ [k])

/-- With `c` selected, the choice is among the positions that are scanned and precedes the transmitters of
`c` among them; without a choice, none of these is below the target. -/
def ScanFinds (q : SchedulerInput) (c : List ℕ) : Prop :=
  match greedyChoice q c with
  | some k => k < q.nVlc - c.length ∧
      ∀ i ∈ c, i < q.nVlc - c.length → Precedes (fun j => setCost q (c ++ [j])) k i
  | none => ∀ i ∈ c, i < q.nVlc - c.length → target q c ≤ setCost q (c ++ [i])

/-- A turn picks a transmitter that is not yet selected, the cheapest of these, and below the target; it
leaves the loop only when none of these is below the target. -/
structure ProperRound (q : SchedulerInput) (s : Selection) : Prop where
  picks : ∀ t, NextRound q s t → ∃ k < q.nVlc, t.vlcTgtSet = s.vlcTgtSet ++ [k] ∧ k ∉ s.vlcTgtSet ∧
    vlcCost q s k < s.tgt ∧ ∀ i < q.nVlc, i ∉ s.vlcTgtSet → vlcCost q s k ≤ vlcCost q s i
  stops : selectRound q s = .ok none → ∀ i < q.nVlc, i ∉ s.vlcTgtSet → s.tgt ≤ vlcCost q s i

/-- The loop ends inside its arrays with every transmitter selected at most once, and all its turns are
proper. -/
def ProperSelection (q : SchedulerInput) : Prop :=
  (∃ fuel s, selectionLoop q fuel (startSelection q) = some (.ok s) ∧ s.vlcTgtSet.Nodup) ∧
  ∀ s, ReflTransGen (NextRound q) (startSelection q) s → ProperRound q s

/-! ## Positions and transmitters -/

/-- What the scan over the positions takes when `c` is selected. -/
def positionChoice (q : SchedulerInput) (c : List ℕ) : Option ℕ :=
  (scanLeast (fun k => setCost q (c ++ [k])) (List.range (q.nVlc - c.length)) (target q c)).1

theorem mem_unselected {q : SchedulerInput} {c : List ℕ} {k : ℕ} : k ∈ unselected q c ↔ k < q.nVlc ∧ k ∉ c := by
  simp [unselected]

theorem unselected_increasing (q : SchedulerInput) (c : List ℕ) : (unselected q c).Pairwise (· < ·) :=
  List.pairwise_lt_range.filter _

theorem greedyChoice_eq_some_iff {q : SchedulerInput} {c : List ℕ} {k : ℕ} :
    greedyChoice q c = some k ↔
      FirstLeast (fun j => setCost q (c ++ [j])) (target q c) (· ∈ unselected q c) k :=
  scanLeast_eq_some_iff (unselected_increasing q c)

theorem greedyChoice_eq_none_iff {q : SchedulerInput} {c : List ℕ} :
    greedyChoice q c = none ↔ ∀ k ∈ unselected q c, target q c ≤ setCost q (c ++ [k]) :=
  scanLeast_eq_none_iff (unselected_increasing q c)

theorem positionChoice_eq_some_iff {q : SchedulerInput} {c : List ℕ} {k : ℕ} :
    positionChoice q c = some k ↔
      FirstLeast (fun j => setCost q (c ++ [j])) (target q c) (· ∈ List.range (q.nVlc - c.length)) k :=
  scanLeast_eq_some_iff List.pairwise_lt_range

theorem positionChoice_eq_none_iff {q : SchedulerInput} {c : List ℕ} :
    positionChoice q c = none ↔
      ∀ k ∈ List.range (q.nVlc - c.length), target q c ≤ setCost q (c ++ [k]) :=
  scanLeast_eq_none_iff List.pairwise_lt_range

/-- A position that is not an unselected transmitter is a selected one. -/
theorem mem_of_position {q : SchedulerInput} {c : List ℕ} {i : ℕ} (hi : i ∈ List.range (q.nVlc - c.length))
    (hu : i ∉ unselected q c) : i ∈ c := by
  rw [List.mem_range] at hi
  rw [mem_unselected] at hu
  by_contra hc
  exact hu ⟨by omega, hc⟩

/-- Scanning positions finds the cheapest transmitter exactly under `ScanFinds`. -/
theorem positionChoice_eq_greedyChoice_iff (q : SchedulerInput) (c : List ℕ) :
    positionChoice q c = greedyChoice q c ↔ ScanFinds q c := by
  unfold ScanFinds
  cases hg : greedyChoice q c with
  | some k =>
    have hk := greedyChoice_eq_some_iff.mp hg
    rw [positionChoice_eq_some_iff, hk.of_other_iff, List.mem_range]
    apply and_congr_right
    intro _
    constructor
    · intro h i hi hlt
      exact h i (List.mem_range.mpr hlt) fun hu => (mem_unselected.mp hu).2 hi
    · intro h i hi hu
      exact h i (mem_of_position hi hu) (List.mem_range.mp hi)
  | none =>
    have hle := greedyChoice_eq_none_iff.mp hg
    rw [positionChoice_eq_none_iff]
    constructor
    · intro h i _ hlt
      exact h i (List.mem_range.mpr hlt)
    · intro h i hi
      by_cases hu : i ∈ unselected q c
      · exact hle i hu
      · exact h i (mem_of_position hi hu) (List.mem_range.mp hi)

/-! ## One turn -/

/-- The variables of the loop when it has selected `c`, each transmitter once. -/
structure Mirrors (q : SchedulerInput) (c : List ℕ) (s : Selection) : Prop where
  vlcTgtSet : s.vlcTgtSet = c
  vSum : s.vSum = (c.map q.vk).sum
  err : s.err = (c.map q.e).prod
  tgt : s.tgt = target q c
  sets : (c ++ s.vlcSrcSet).Perm (List.range q.nVlc)

theorem mirrors_start (q : SchedulerInput) : Mirrors q [] (startSelection q) where
  vlcTgtSet := rfl
  vSum := rfl
  err := rfl
  tgt := by
    have hcost : setCost q [] = ((q.gn * -1 + q.r : ℤ) : ℚ) := by simp [setCost]
    rw [target, if_pos rfl, hcost, startSelection]
    dsimp only
    split
    · next h => exact (min_eq_left (by exact_mod_cast h.le)).symm
    · next h => exact (min_eq_right (by exact_mod_cast not_lt.mp h)).symm
  sets := List.Perm.refl _

section
variable {q : SchedulerInput} {c : List ℕ} {s : Selection} (h : Mirrors q c s)
include h

theorem Mirrors.nodup : c.Nodup :=
  (List.nodup_append.mp (h.sets.nodup_iff.mpr List.nodup_range)).1

theorem Mirrors.vlcSrcSet_length : s.vlcSrcSet.length = q.nVlc - c.length := by
  have hlen := h.sets.length_eq
  rw [List.length_append, List.length_range] at hlen
  omega

theorem Mirrors.vlcCost_eq : vlcCost q s = fun k => setCost q (c ++ [k]) := by
  funext k
  simp only [vlcCost, setCost, h.vSum, h.err, List.map_append, List.map_cons, List.map_nil,
    List.sum_append, List.sum_singleton, List.prod_append, List.prod_singleton]
  rw [add_assoc (q.gn * -1), mul_assoc]

theorem Mirrors.scan_fst :
    (scanLeast (vlcCost q s) (List.range s.vlcSrcSet.length) s.tgt).1 = positionChoice q c := by
  rw [positionChoice, h.vlcCost_eq, h.vlcSrcSet_length, h.tgt]

theorem Mirrors.turn_none (hp : positionChoice q c = none) : selectRound q s = .ok none := by
  rw [← h.scan_fst] at hp
  unfold selectRound
  generalize scanLeast (vlcCost q s) (List.range s.vlcSrcSet.length) s.tgt = best at hp
  obtain ⟨k, tgt⟩ := best
  cases hp
  split <;> rfl

/-- The position taken is added to the targets; if it is a new transmitter, it leaves the sources. -/
theorem Mirrors.turn_some {k : ℕ} (hp : positionChoice q c = some k) :
    ∃ t, NextRound q s t ∧ t.vlcTgtSet = c ++ [k] ∧ (k ∉ c → Mirrors q (c ++ [k]) t) := by
  have hlt := List.mem_range.mp (positionChoice_eq_some_iff.mp hp).mem
  have hroom : s.vlcSrcSet.length > 0 := by
    rw [h.vlcSrcSet_length]
    omega
  have hfst := h.scan_fst.trans hp
  have hsnd := scanLeast_snd_of_some List.pairwise_lt_range hfst
  have hadd : addTarget q s.vlcTgtSet k = .ok (c ++ [k]) := by
    rw [addTarget, h.vlcTgtSet, if_pos (by omega)]
  refine ⟨⟨.vlc, s.vSum + q.vk k, s.err * q.e k, vlcCost q s k, swapRemove (· == k) s.vlcSrcSet, c ++ [k]⟩, ?_,
    rfl, ?_⟩
  · rw [NextRound, selectRound, if_pos hroom]
    generalize scanLeast (vlcCost q s) (List.range s.vlcSrcSet.length) s.tgt = best at hfst hsnd
    obtain ⟨j, tgt⟩ := best
    cases hfst
    obtain rfl : tgt = vlcCost q s k := hsnd
    simp only [hadd, ok_bind, pure_eq_ok]
  · intro hnew
    have hmem : k ∈ s.vlcSrcSet := by
      have hall := h.sets.mem_iff.mpr (List.mem_range.mpr (show k < q.nVlc by omega))
      exact (List.mem_append.mp hall).resolve_left hnew
    have hfind : s.vlcSrcSet.find? (· == k) = some k := by
      cases hf : s.vlcSrcSet.find? (· == k) with
      | none => exact absurd (beq_self_eq_true k) (by simpa using List.find?_eq_none.mp hf k hmem)
      | some j => rw [beq_iff_eq.mp (List.find?_some (p := (· == k)) hf)]
    exact {
      vlcTgtSet := rfl
      vSum := by simp [h.vSum]
      err := by simp [h.err]
      tgt := by
        rw [target, if_neg (by simp)]
        exact congrFun h.vlcCost_eq k
      sets := by
        rw [List.append_assoc]
        exact ((perm_swapRemove hfind).symm.append_left c).trans h.sets }

/-- A turn is proper exactly if the position it takes is the cheapest transmitter. -/
theorem Mirrors.properRound_iff : ProperRound q s ↔ positionChoice q c = greedyChoice q c := by
  constructor
  · intro hr
    cases hp : positionChoice q c with
    | none =>
      apply Eq.symm
      rw [greedyChoice_eq_none_iff]
      intro k hk
      rw [mem_unselected] at hk
      have hstop := hr.stops (h.turn_none hp) k hk.1 (h.vlcTgtSet ▸ hk.2)
      rwa [h.tgt, h.vlcCost_eq] at hstop
    | some k =>
      obtain ⟨t, ht, htgt, -⟩ := h.turn_some hp
      obtain ⟨j, hj, hsnoc, hnew, hbelow, hleast⟩ := hr.picks t ht
      rw [htgt, h.vlcTgtSet] at hsnoc
      obtain rfl : k = j := by simpa using hsnoc
      rw [h.vlcTgtSet] at hnew hleast
      rw [h.tgt, h.vlcCost_eq] at hbelow
      rw [h.vlcCost_eq] at hleast
      have hfirst := positionChoice_eq_some_iff.mp hp
      apply Eq.symm
      apply greedyChoice_eq_some_iff.mpr
      refine ⟨mem_unselected.mpr ⟨hj, hnew⟩, hbelow, fun i hi => ?_⟩
      rw [mem_unselected] at hi
      by_cases hik : i < k
      · -- an earlier position has been scanned as well
        have hk := List.mem_range.mp hfirst.mem
        exact hfirst.precedes i (List.mem_range.mpr (by omega))
      · exact (hleast i hi.1 hi.2).lt_or_eq.imp id fun heq => ⟨heq, not_lt.mp hik⟩
  · intro hpos
    constructor
    · intro t ht
      cases hp : positionChoice q c with
      | none =>
        rw [NextRound, h.turn_none hp] at ht
        cases ht
      | some k =>
        have hk := greedyChoice_eq_some_iff.mp (hpos.symm.trans hp)
        have hmem := mem_unselected.mp hk.mem
        obtain ⟨u, hu, htgt, -⟩ := h.turn_some hp
        obtain rfl : t = u := by
          rw [NextRound] at ht hu
          simpa using ht.symm.trans hu
        refine ⟨k, hmem.1, by rw [htgt, h.vlcTgtSet], by rw [h.vlcTgtSet]; exact hmem.2, ?_, ?_⟩
        · rw [h.tgt, h.vlcCost_eq]
          exact hk.below
        · intro i hi hnew
          rw [h.vlcTgtSet] at hnew
          rw [h.vlcCost_eq]
          exact (hk.precedes i (mem_unselected.mpr ⟨hi, hnew⟩)).le
    · intro hstop i hi hnew
      cases hp : positionChoice q c with
      | none =>
        rw [h.vlcTgtSet] at hnew
        rw [h.tgt, h.vlcCost_eq]
        exact greedyChoice_eq_none_iff.mp (hpos.symm.trans hp) i (mem_unselected.mpr ⟨hi, hnew⟩)
      | some k =>
        obtain ⟨t, ht, -⟩ := h.turn_some hp
        rw [NextRound, hstop] at ht
        cases ht

end

/-! ## Whole selections -/

theorem reaches_of_scanFinds {q : SchedulerInput} (hfinds : ∀ c, GreedySet q c → ScanFinds q c)
    {s : Selection} (hs : ReflTransGen (NextRound q) (startSelection q) s) :
    ∃ c, GreedySet q c ∧ Mirrors q c s := by
  induction hs with
  | refl => exact ⟨[], .nil, mirrors_start q⟩
  | tail _ hnext ih =>
    obtain ⟨c, hc, h⟩ := ih
    have hpos := (positionChoice_eq_greedyChoice_iff q c).mpr (hfinds c hc)
    cases hp : positionChoice q c with
    | none =>
      rw [NextRound, h.turn_none hp] at hnext
      cases hnext
    | some k =>
      obtain ⟨u, hu, -, hkeep⟩ := h.turn_some hp
      rw [NextRound, hu] at hnext
      cases hnext
      have hg := hpos.symm.trans hp
      exact ⟨c ++ [k], hc.snoc hg, hkeep (mem_unselected.mp (greedyChoice_eq_some_iff.mp hg).mem).2⟩

/-- As long as all turns are proper, the loop follows the greedy choices. -/
theorem follows_greedySet {q : SchedulerInput}
    (hproper : ∀ s, ReflTransGen (NextRound q) (startSelection q) s → ProperRound q s) {c : List ℕ}
    (hc : GreedySet q c) : ∃ s, ReflTransGen (NextRound q) (startSelection q) s ∧ Mirrors q c s := by
  induction hc with
  | nil => exact ⟨startSelection q, .refl, mirrors_start q⟩
  | snoc _ hg ih =>
    obtain ⟨s, hs, h⟩ := ih
    have hp := (h.properRound_iff.mp (hproper s hs)).trans hg
    obtain ⟨t, ht, -, hkeep⟩ := h.turn_some hp
    exact ⟨t, hs.tail ht, hkeep (mem_unselected.mp (greedyChoice_eq_some_iff.mp hg).mem).2⟩

theorem positionChoice_of_proper {q : SchedulerInput}
    (hproper : ∀ s, ReflTransGen (NextRound q) (startSelection q) s → ProperRound q s) {c : List ℕ}
    (hc : GreedySet q c) : positionChoice q c = greedyChoice q c := by
  obtain ⟨s, hs, h⟩ := follows_greedySet hproper hc
  exact h.properRound_iff.mp (hproper s hs)

/-- One turn more than there are transmitters left is enough. -/
theorem selectionLoop_returns {q : SchedulerInput} (hfinds : ∀ c, GreedySet q c → ScanFinds q c)
    {fuel : ℕ} {c : List ℕ} {s : Selection} (hc : GreedySet q c) (h : Mirrors q c s)
    (hfuel : q.nVlc - c.length < fuel) :
    ∃ t, selectionLoop q fuel s = some (.ok t) ∧ t.vlcTgtSet.Nodup := by
  induction fuel generalizing c s with
  | zero => exact absurd hfuel (Nat.not_lt_zero _)
  | succ fuel ih =>
    have hpos := (positionChoice_eq_greedyChoice_iff q c).mpr (hfinds c hc)
    cases hp : positionChoice q c with
    | none =>
      refine ⟨s, ?_, h.vlcTgtSet ▸ h.nodup⟩
      rw [selectionLoop, h.turn_none hp]
    | some k =>
      obtain ⟨t, ht, -, hkeep⟩ := h.turn_some hp
      have hg := hpos.symm.trans hp
      have hk := mem_unselected.mp (greedyChoice_eq_some_iff.mp hg).mem
      have hlt := List.mem_range.mp (positionChoice_eq_some_iff.mp hp).mem
      have hrest : q.nVlc - (c ++ [k]).length < fuel := by
        rw [List.length_append, List.length_singleton]
        omega
      rw [selectionLoop, ht]
      exact ih (hc.snoc hg) (hkeep hk.2) hrest

/-- **The loop selects what it should exactly when, after each greedy choice, the scan over the positions
still finds the next one.** -/
theorem properSelection_iff (q : SchedulerInput) :
    ProperSelection q ↔ ∀ c, GreedySet q c → ScanFinds q c := by
  constructor
  · intro h c hc
    exact (positionChoice_eq_greedyChoice_iff q c).mp (positionChoice_of_proper h.2 hc)
  · intro hfinds
    constructor
    · obtain ⟨s, hs, hnodup⟩ := selectionLoop_returns hfinds .nil (mirrors_start q) (Nat.lt_succ_self _)
      exact ⟨_, s, hs, hnodup⟩
    · intro s hs
      obtain ⟨c, hc, h⟩ := reaches_of_scanFinds hfinds hs
      exact h.properRound_iff.mpr ((positionChoice_eq_greedyChoice_iff q c).mpr (hfinds c hc))

/-- With one transmitter there is no removal before the last scan, and the condition always holds. -/
theorem scanFinds_of_one {q : SchedulerInput} (hone : q.nVlc ≤ 1) {c : List ℕ} (hc : GreedySet q c) :
    ScanFinds q c := by
  unfold ScanFinds
  cases hc with
  | nil =>
    cases hg : greedyChoice q [] with
    | none => simp
    | some k => simpa using (mem_unselected.mp (greedyChoice_eq_some_iff.mp hg).mem).1
  | @snoc c k _ hk =>
    have hk := (mem_unselected.mp (greedyChoice_eq_some_iff.mp hk).mem).1
    have hnone : q.nVlc - (c ++ [k]).length = 0 := by
      rw [List.length_append, List.length_singleton]
      omega
    cases hg : greedyChoice q (c ++ [k]) with
    | none =>
      intro i _ hi
      omega
    | some j =>
      have hj := mem_unselected.mp (greedyChoice_eq_some_iff.mp hg).mem
      obtain rfl : j = k := by omega
      exact absurd (by simp) hj.2

/-- Two transmitters with empty queues; the first one delivers every other packet, the second one none. -/
def twoTransmitters : SchedulerInput where
  nVlc := 2
  gn := 10
  r := 4
  vk := fun _ => 0
  e := fun k => if k = 0 then 1 / 2 else 1

/-- The second transmitter is no help, but the first one is taken again and again, until the array of
targets is left. -/
theorem twoTransmitters_not_proper :
    selectionLoop twoTransmitters 3 (startSelection twoTransmitters) = some (.error (.outOfBounds 2)) ∧
    ¬ ProperSelection twoTransmitters := by
  constructor
  · decide +kernel
  · intro h
    have hfirst : greedyChoice twoTransmitters [] = some 0 := by decide +kernel
    have hagain : positionChoice twoTransmitters [0] ≠ greedyChoice twoTransmitters [0] := by decide +kernel
    exact hagain (positionChoice_of_proper h.2 (GreedySet.nil.snoc hfirst))

end CiotVlc.Gateway
