import Mathlib.Algebra.Order.Group.Multiset
import Mathlib.Data.Finset.Card

/-! # Allocated blocks

The blocks in use are a finite set. An allocator answers with a block that is not in use, and only a block in use
can be given back. `Owns` accounts for every block in use exactly once, so blocks that are accounted for can be
given back, and what is accounted for afterwards is the rest.
-/
namespace Foundations.Blocks
set_option autoImplicit false

variable {α : Type}

/-! ## Blocks that are accounted for -/

def Owns (b : Finset α) (m : Multiset α) : Prop := b.val = m

section
variable {b : Finset α} {m : Multiset α}

theorem owns_empty : Owns (∅ : Finset α) 0 := rfl

theorem Owns.congr {m' : Multiset α} (h : Owns b m) (heq : m = m') : Owns b m' := by
  rw [← heq]
  exact h

theorem cons_list_add (a : α) (as : List α) (m : Multiset α) : (↑(a :: as) + m : Multiset α) = a ::ₘ (↑as + m) := by
  rw [← Multiset.cons_coe, Multiset.cons_add]

theorem Owns.mem (h : Owns b m) {a : α} : a ∈ b ↔ a ∈ m := by
  rw [← Finset.mem_val, h]

theorem Owns.nodup (h : Owns b m) : m.Nodup := by
  rw [← h]
  exact b.nodup

theorem Owns.card (h : Owns b m) : b.card = m.card := by
  rw [← h]
  rfl

end

/-! ## The allocator -/

/-- A call that answers nothing stops the program. -/
def orStop {ε β : Type} (stop : ε) : Option β → Except ε β
  | none => .error stop
  | some x => .ok x

variable [DecidableEq α]

def alloc (b : Finset α) (a : α) : Option (Finset α) := if a ∈ b then none else some (insert a b)

def free (b : Finset α) (a : α) : Option (Finset α) := if a ∈ b then some (b.erase a) else none

/-- The blocks are given back from left to right. -/
def freeAll (b : Finset α) (as : List α) : Option (Finset α) := as.foldlM free b

variable {b b' : Finset α} {m : Multiset α} {a : α}

/-- A block that was allocated is accounted for once. -/
theorem Owns.alloc (h : Owns b m) (ha : alloc b a = some b') : Owns b' (a ::ₘ m) := by
  unfold Blocks.alloc at ha
  split at ha
  · cases ha
  · next hnew =>
    cases ha
    rw [Owns, Finset.insert_val_of_notMem hnew, h]

/-- A block that is accounted for can be given back. -/
theorem Owns.free (h : Owns b (a ::ₘ m)) : ∃ b', free b a = some b' ∧ Owns b' m := by
  refine ⟨b.erase a, if_pos (h.mem.mpr (Multiset.mem_cons_self a m)), ?_⟩
  rw [Owns, Finset.erase_val, h, Multiset.erase_cons_head]

theorem Owns.freeAll {as : List α} (h : Owns b (as + m)) : ∃ b', freeAll b as = some b' ∧ Owns b' m := by
  induction as generalizing b with
  | nil =>
    refine ⟨b, rfl, h.congr ?_⟩
    rw [Multiset.coe_nil, zero_add]
  | cons a as ih =>
    obtain ⟨c, hc, howns⟩ := (h.congr (cons_list_add a as m)).free
    obtain ⟨b', hb', hrest⟩ := ih howns
    refine ⟨b', ?_, hrest⟩
    rw [Blocks.freeAll, List.foldlM_cons, hc]
    exact hb'

end Foundations.Blocks
