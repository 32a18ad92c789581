import Mathlib.Data.List.Induction
import Mathlib.Order.Lattice

/-! # Scans for a least element

A loop that goes through a list and keeps the entry whose cost is below everything seen so far, starting
from a target. On an increasing list it finds the first of the least entries below the target
(`FirstLeast`), or nothing when no entry is below it.
-/
namespace Foundations.LeastScan
set_option autoImplicit false

variable {α κ : Type} [LinearOrder α] [LinearOrder κ]

/-- One pass over the list: the entry kept, and what an entry has to be below. -/
def scanLeast (cost : α → κ) (xs : List α) (tgt : κ) : Option α × κ :=
  xs.foldl (fun best x => if cost x < best.2 then (some x, cost x) else best) (none, tgt)

/-- `k` is the cheaper one, or the first of two that cost the same. -/
def Precedes (cost : α → κ) (k i : α) : Prop := cost k < cost i ∨ cost k = cost i ∧ k ≤ i

instance (cost : α → κ) (k i : α) : Decidable (Precedes cost k i) := inferInstanceAs (Decidable (_ ∨ _))

/-- `k` is in `S` and costs less than the target, and no member of `S` precedes it. -/
structure FirstLeast (cost : α → κ) (tgt : κ) (S : α → Prop) (k : α) : Prop where
  mem : S k
  below : cost k < tgt
  precedes : ∀ i, S i → Precedes cost k i

theorem Precedes.le {cost : α → κ} {k i : α} (h : Precedes cost k i) : cost k ≤ cost i := by
  rcases h with h | h
  · exact h.le
  · exact h.1.le

theorem Precedes.antisymm {cost : α → κ} {k i : α} (h : Precedes cost k i) (h' : Precedes cost i k) :
    k = i := by
  unfold Precedes at h h'
  grind

theorem FirstLeast.unique {cost : α → κ} {tgt : κ} {S : α → Prop} {k i : α}
    (h : FirstLeast cost tgt S k) (h' : FirstLeast cost tgt S i) : k = i :=
  (h.precedes i h'.mem).antisymm (h'.precedes k h.mem)

/-- The first least member of one set is that of another exactly if it belongs to it and precedes the
members that only the other set has. -/
theorem FirstLeast.of_other_iff {cost : α → κ} {tgt : κ} {S U : α → Prop} {k : α}
    (h : FirstLeast cost tgt U k) :
    FirstLeast cost tgt S k ↔ S k ∧ ∀ i, S i → ¬ U i → Precedes cost k i := by
  constructor
  · intro hS
    exact ⟨hS.mem, fun i hi _ => hS.precedes i hi⟩
  · intro hS
    refine ⟨hS.1, h.below, fun i hi => ?_⟩
    by_cases hu : U i
    · exact h.precedes i hu
    · exact hS.2 i hi hu

/-- What the pass has found after the entries `xs`. -/
def Found (cost : α → κ) (tgt : κ) (xs : List α) : Option α × κ → Prop
  | (none, t) => t = tgt ∧ ∀ x ∈ xs, tgt ≤ cost x
  | (some k, t) => t = cost k ∧ FirstLeast cost tgt (· ∈ xs) k

theorem found_snoc {cost : α → κ} {tgt : κ} {xs : List α} {x : α} {best : Option α × κ}
    (h : Found cost tgt xs best) (hlt : ∀ y ∈ xs, y < x) :
    Found cost tgt (xs ++ [x]) (if cost x < best.2 then (some x, cost x) else best) := by
  obtain ⟨k, t⟩ := best
  cases k with
  | none =>
    obtain ⟨rfl, hle⟩ := h
    by_cases hx : cost x < t
    · rw [if_pos hx]
      refine ⟨rfl, by simp, hx, ?_⟩
      intro i hi
      rcases List.mem_append.mp hi with hi | hi
      · exact Or.inl (hx.trans_le (hle i hi))
      · exact Or.inr ⟨by rw [List.mem_singleton.mp hi], (List.mem_singleton.mp hi).ge⟩
    · rw [if_neg hx]
      refine ⟨rfl, ?_⟩
      intro i hi
      rcases List.mem_append.mp hi with hi | hi
      · exact hle i hi
      · rw [List.mem_singleton.mp hi]
        exact not_lt.mp hx
  | some k =>
    obtain ⟨rfl, hk⟩ := h
    by_cases hx : cost x < cost k
    · rw [if_pos hx]
      refine ⟨rfl, by simp, hx.trans hk.below, ?_⟩
      intro i hi
      rcases List.mem_append.mp hi with hi | hi
      · exact Or.inl (hx.trans_le (hk.precedes i hi).le)
      · exact Or.inr ⟨by rw [List.mem_singleton.mp hi], (List.mem_singleton.mp hi).ge⟩
    · rw [if_neg hx]
      refine ⟨rfl, List.mem_append_left _ hk.mem, hk.below, ?_⟩
      intro i hi
      rcases List.mem_append.mp hi with hi | hi
      · exact hk.precedes i hi
      · rw [List.mem_singleton.mp hi]
        rcases (not_lt.mp hx).lt_or_eq with h | h
        · exact Or.inl h
        · exact Or.inr ⟨h, (hlt k hk.mem).le⟩

theorem found_scanLeast (cost : α → κ) (tgt : κ) {xs : List α} (hxs : xs.Pairwise (· < ·)) :
    Found cost tgt xs (scanLeast cost xs tgt) := by
  induction xs using List.reverseRecOn with
  | nil => exact ⟨rfl, by simp⟩
  | append_singleton xs x ih =>
    have hparts := List.pairwise_append.mp hxs
    rw [scanLeast, List.foldl_append]
    exact found_snoc (ih hparts.1) fun y hy => hparts.2.2 y hy x (List.mem_singleton_self x)

/-! ## The result of a pass -/

section
variable {cost : α → κ} {tgt : κ} {xs : List α} (hxs : xs.Pairwise (· < ·))
include hxs

theorem scanLeast_eq_none_iff : (scanLeast cost xs tgt).1 = none ↔ ∀ x ∈ xs, tgt ≤ cost x := by
  have hfound := found_scanLeast cost tgt hxs
  generalize scanLeast cost xs tgt = best at hfound
  obtain ⟨k, t⟩ := best
  cases k with
  | none => simpa using hfound.2
  | some k => simpa using ⟨k, hfound.2.mem, hfound.2.below⟩

theorem scanLeast_eq_some_iff {k : α} :
    (scanLeast cost xs tgt).1 = some k ↔ FirstLeast cost tgt (· ∈ xs) k := by
  have hfound := found_scanLeast cost tgt hxs
  generalize scanLeast cost xs tgt = best at hfound
  obtain ⟨j, t⟩ := best
  cases j with
  | none =>
    refine ⟨nofun, fun hk => ?_⟩
    exact absurd hk.below (not_lt.mpr (hfound.2 k hk.mem))
  | some j =>
    constructor
    · intro h
      cases h
      exact hfound.2
    · intro hk
      exact congrArg some (hfound.2.unique hk)

theorem scanLeast_snd_of_some {k : α} (h : (scanLeast cost xs tgt).1 = some k) :
    (scanLeast cost xs tgt).2 = cost k := by
  have hfound := found_scanLeast cost tgt hxs
  generalize scanLeast cost xs tgt = best at hfound h
  obtain ⟨j, t⟩ := best
  cases h
  exact hfound.1

end

end Foundations.LeastScan
