import Mathlib

/-! # A receive window over the natural numbers

A receiver keeps the smallest number it still waits for (`head`), the largest number seen (`last`)
and the set of marked arrivals. Accepting a number marks it, moves the head to the first gap, and
then slides the head so that `[head, last]` never spans more than `width` numbers; what the slide
passes is given up. `Exact` says what such a window knows about the set of all arrivals, and
`accept_exact` that one arrival keeps it.
-/
namespace Foundations.SlidingWindow
set_option autoImplicit false

structure Window where
  head : ℕ
  last : ℕ
  marked : Finset ℕ

def Window.start : Window := ⟨0, 0, ∅⟩

/-! ## The first gap -/

theorem exists_missing (marked : Finset ℕ) (head : ℕ) : ∃ s, head ≤ s ∧ s ∉ marked := by
  obtain ⟨s, hs⟩ := marked.exists_nat_subset_range
  refine ⟨max head s, le_max_left _ _, fun hm => ?_⟩
  have := Finset.mem_range.mp (hs hm)
  exact absurd (le_max_right head s) (by omega)

def firstMissing (marked : Finset ℕ) (head : ℕ) : ℕ := Nat.find (exists_missing marked head)

theorem le_firstMissing (marked : Finset ℕ) (head : ℕ) : head ≤ firstMissing marked head :=
  (Nat.find_spec (exists_missing marked head)).1

theorem firstMissing_notMem (marked : Finset ℕ) (head : ℕ) : firstMissing marked head ∉ marked :=
  (Nat.find_spec (exists_missing marked head)).2

theorem mem_of_lt_firstMissing {marked : Finset ℕ} {head s : ℕ} (h : head ≤ s)
    (hs : s < firstMissing marked head) : s ∈ marked := by
  by_contra hm
  exact Nat.find_min (exists_missing marked head) hs ⟨h, hm⟩

theorem firstMissing_of_notMem {marked : Finset ℕ} {head : ℕ} (h : head ∉ marked) :
    firstMissing marked head = head :=
  le_antisymm (Nat.find_min' _ ⟨le_rfl, h⟩) (le_firstMissing marked head)

theorem firstMissing_of_mem {marked : Finset ℕ} {head : ℕ} (h : head ∈ marked) :
    firstMissing marked head = firstMissing marked (head + 1) := by
  have hne : firstMissing marked head ≠ head := by
    intro he
    have hnot := firstMissing_notMem marked head
    rw [he] at hnot
    exact hnot h
  have hle := le_firstMissing marked head
  refine le_antisymm (Nat.find_min' _ ⟨?_, firstMissing_notMem _ _⟩)
    (Nat.find_min' _ ⟨by omega, firstMissing_notMem _ _⟩)
  have := le_firstMissing marked (head + 1)
  omega

/-- A scan that starts where an earlier one stopped finds what a scan from the first start would. -/
theorem firstMissing_resume {marked more : Finset ℕ} (h : marked ⊆ more) (head : ℕ) :
    firstMissing more (firstMissing marked head) = firstMissing more head := by
  refine le_antisymm (Nat.find_min' _ ⟨?_, firstMissing_notMem _ _⟩)
    (Nat.find_min' _ ⟨(le_firstMissing marked head).trans (le_firstMissing _ _), firstMissing_notMem _ _⟩)
  by_contra hlt
  have hmem := mem_of_lt_firstMissing (le_firstMissing more head) (Nat.not_le.mp hlt)
  exact firstMissing_notMem more head (h hmem)

/-! ## Arrivals -/

def Window.accept (width : ℕ) (w : Window) (i : ℕ) : Window :=
  let marked := if w.head ≤ i then insert i w.marked else w.marked
  let last := max w.last i
  { head := max (firstMissing marked w.head) (last + 1 - width), last, marked }

theorem Window.head_le_accept (width : ℕ) (w : Window) (i : ℕ) : w.head ≤ (w.accept width i).head :=
  (le_firstMissing _ _).trans (le_max_left _ _)

/-- What a window knows about the numbers that have arrived. -/
structure Exact (width : ℕ) (arrived : Finset ℕ) (w : Window) : Prop where
  head_le : w.head ≤ w.last + 1
  width_le : w.last + 1 - w.head ≤ width
  last_eq : w.last = arrived.sup id
  marked_iff : ∀ s, w.head ≤ s → (s ∈ w.marked ↔ s ∈ arrived)
  below : ∀ s < w.head, s ∈ arrived ∨ s + width < w.last + 1

theorem exact_start {width : ℕ} (h : 0 < width) : Exact width ∅ Window.start where
  head_le := Nat.zero_le _
  width_le := h
  last_eq := rfl
  marked_iff := fun _ _ => Iff.rfl
  below := fun s hs => absurd hs (Nat.not_lt_zero s)

theorem Exact.le_last {width : ℕ} {arrived : Finset ℕ} {w : Window} (h : Exact width arrived w) {s : ℕ}
    (hs : s ∈ arrived) : s ≤ w.last := by
  rw [h.last_eq]
  exact Finset.le_sup (f := id) hs

/-- The gap behind a full prefix lies at most one past the largest arrival. -/
theorem firstMissing_le_of_bound {marked : Finset ℕ} {head last : ℕ} (hh : head ≤ last + 1)
    (hb : ∀ s ∈ marked, head ≤ s → s ≤ last) : firstMissing marked head ≤ last + 1 := by
  refine Nat.find_min' _ ⟨hh, fun hm => ?_⟩
  have := hb _ hm hh
  omega

/-- **One arrival keeps the window exact.** -/
theorem accept_exact {width : ℕ} (hw : 0 < width) {arrived : Finset ℕ} {w : Window}
    (h : Exact width arrived w) (i : ℕ) : Exact width (insert i arrived) (w.accept width i) := by
  set marked := if w.head ≤ i then insert i w.marked else w.marked with hmarked
  have hiff : ∀ s, w.head ≤ s → (s ∈ marked ↔ s ∈ insert i arrived) := by
    intro s hs
    rw [hmarked]
    split
    · rw [Finset.mem_insert, Finset.mem_insert, h.marked_iff s hs]
    · next hlt => rw [Finset.mem_insert, h.marked_iff s hs, or_iff_right (by omega)]
  have hbound : ∀ s ∈ marked, w.head ≤ s → s ≤ max w.last i := by
    intro s hs hhead
    rcases Finset.mem_insert.mp ((hiff s hhead).mp hs) with rfl | hs'
    · exact le_max_right _ _
    · exact (h.le_last hs').trans (le_max_left _ _)
  have hfirst : firstMissing marked w.head ≤ max w.last i + 1 :=
    firstMissing_le_of_bound (h.head_le.trans (Nat.succ_le_succ (le_max_left _ _))) hbound
  have hge := w.head_le_accept width i
  refine ⟨?_, ?_, ?_, ?_, ?_⟩
  · -- neither the gap nor the slide goes past `last + 1`
    exact max_le hfirst (Nat.sub_le _ _)
  · have : max w.last i + 1 - width ≤ (w.accept width i).head := le_max_right _ _
    change max w.last i + 1 - (w.accept width i).head ≤ width
    omega
  · change max w.last i = _
    rw [Finset.sup_insert, h.last_eq, max_comm]
    rfl
  · exact fun s hs => hiff s (hge.trans hs)
  · intro s hs
    change s ∈ insert i arrived ∨ s + width < max w.last i + 1
    rcases lt_max_iff.mp hs with hgap | hslide
    · by_cases hhead : w.head ≤ s
      · exact Or.inl ((hiff s hhead).mp (mem_of_lt_firstMissing hhead hgap))
      · -- already given up, or arrived, before this step
        rcases h.below s (by omega) with harr | hfar
        · exact Or.inl (Finset.mem_insert_of_mem harr)
        · right
          have := le_max_left w.last i
          omega
    · right
      omega

/-- The arrival lies so far ahead that the head slides past a gap, and it lands on a marked number. -/
def Window.LandsOnMarked (width : ℕ) (w : Window) (i : ℕ) : Prop :=
  w.last < i ∧ i + 1 - width ∈ w.marked ∧ ∃ s, w.head ≤ s ∧ s < i + 1 - width ∧ s ∉ w.marked

/-- The head comes to stand on a gap unless it lands on a marked number. -/
theorem accept_head_notMem_iff {width : ℕ} (hwidth : 1 < width) {arrived : Finset ℕ} {w : Window}
    (h : Exact width arrived w) (i : ℕ) :
    (w.accept width i).head ∉ (w.accept width i).marked ↔ ¬ w.LandsOnMarked width i := by
  obtain ⟨marked, hmarked⟩ : ∃ marked, marked = if w.head ≤ i then insert i w.marked else w.marked := ⟨_, rfl⟩
  have hiff : ∀ s, s ≠ i → (s ∈ marked ↔ s ∈ w.marked) := by
    intro s hs
    rw [hmarked]
    split
    · rw [Finset.mem_insert, or_iff_right hs]
    · rfl
  have hhead : (w.accept width i).head = max (firstMissing marked w.head) (max w.last i + 1 - width) := by
    rw [hmarked]
    rfl
  have hset : (w.accept width i).marked = marked := by
    rw [hmarked]
    rfl
  have hge := le_firstMissing marked w.head
  have hgap := firstMissing_notMem marked w.head
  have hspan := h.width_le
  rw [hhead, hset]
  rcases le_or_gt (max w.last i + 1 - width) (firstMissing marked w.head) with hslide | hslide
  · rw [max_eq_left hslide]
    refine iff_of_true hgap ?_
    rintro ⟨hlast, -, s, hs, hlt, hnot⟩
    rw [max_eq_right hlast.le] at hslide
    exact hnot ((hiff s (by omega)).mp (mem_of_lt_firstMissing hs (by omega)))
  · rw [max_eq_right hslide.le]
    -- only a new largest number makes the head slide
    have hlast : w.last < i := by
      by_contra hle
      rw [max_eq_left (Nat.not_lt.mp hle)] at hslide
      omega
    rw [max_eq_right hlast.le] at hslide ⊢
    rw [hiff _ (by omega)]
    constructor
    · exact fun hnot hlands => hnot hlands.2.1
    · exact fun hlands hmem =>
        hlands ⟨hlast, hmem, _, hge, hslide, fun hm => hgap ((hiff _ (by omega)).mpr hm)⟩

/-- Nothing from the old head and from the lower end of the window on, and below the new head, is missing. -/
theorem accept_head_le {width : ℕ} {arrived : Finset ℕ} {w : Window} (h : Exact width arrived w) (i : ℕ) {s : ℕ}
    (hs : w.head ≤ s) (hlow : (w.accept width i).last + 1 - width ≤ s) (hmiss : s ∉ insert i arrived) :
    (w.accept width i).head ≤ s := by
  refine max_le ?_ hlow
  by_contra hlt
  have hmem := mem_of_lt_firstMissing hs (Nat.not_le.mp hlt)
  refine hmiss ?_
  split at hmem
  · exact Finset.mem_insert.mpr ((Finset.mem_insert.mp hmem).imp_right (h.marked_iff s hs).mp)
  · exact Finset.mem_insert_of_mem ((h.marked_iff s hs).mp hmem)

/-! ## Sequences of arrivals -/

def Window.acceptAll (width : ℕ) (w : Window) (arrivals : List ℕ) : Window :=
  arrivals.foldl (Window.accept width) w

theorem Window.acceptAll_append (width : ℕ) (w : Window) (as bs : List ℕ) :
    w.acceptAll width (as ++ bs) = (w.acceptAll width as).acceptAll width bs := List.foldl_append

theorem acceptAll_exact {width : ℕ} (hw : 0 < width) (arrivals : List ℕ) :
    Exact width arrivals.toFinset (Window.start.acceptAll width arrivals) := by
  induction arrivals using List.reverseRecOn with
  | nil => exact exact_start hw
  | append_singleton as a ih =>
    have h := accept_exact hw ih a
    have hset : (as ++ [a]).toFinset = insert a as.toFinset := by
      ext s
      simp
    rw [hset, Window.acceptAll_append]
    exact h

/-- Numbers that arrive in order leave no gap. -/
theorem acceptAll_range {width : ℕ} (hw : 0 < width) (n : ℕ) :
    Window.start.acceptAll width (List.range n) = ⟨n, n - 1, Finset.range n⟩ := by
  induction n with
  | zero => rfl
  | succ n ih =>
    have hmarked : insert n (Finset.range n) = Finset.range (n + 1) := (Finset.range_add_one).symm
    have hgap : firstMissing (Finset.range (n + 1)) n = n + 1 := by
      rw [firstMissing_of_mem (Finset.self_mem_range_succ n), firstMissing_of_notMem Finset.notMem_range_self]
    rw [List.range_succ, Window.acceptAll_append, ih]
    change Window.accept width _ n = _
    simp only [Window.accept, le_refl, if_true, hmarked, hgap]
    congr 1
    · omega
    · omega

end Foundations.SlidingWindow
