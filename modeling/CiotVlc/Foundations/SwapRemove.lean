import Mathlib.Data.List.Basic
import Mathlib.Data.List.Perm.Basic

/-! # Removal from an unordered table

A table without order is shrunk by overwriting an entry with the last one. `swapRemove p` does so to the
first entry that fits `p`; up to order, exactly this entry is gone.
-/
namespace Foundations.SwapRemove
set_option autoImplicit false

variable {α : Type}

/-- Overwrite the first entry that fits by the last one, and shorten the table. -/
def swapRemove (p : α → Bool) (table : List α) : List α :=
  match table.findIdx? p, table.getLast? with
  | some i, some last => (table.set i last).dropLast
  | _, _ => table

theorem cons_perm_cons_set {xs : List α} {i : ℕ} (hi : i < xs.length) (a : α) :
    (a :: xs).Perm (xs[i] :: xs.set i a) := by
  have hsplit : xs = xs.take i ++ xs[i] :: xs.drop (i + 1) := by
    rw [List.getElem_cons_drop, List.take_append_drop]
  have hset : xs.set i a = xs.take i ++ a :: xs.drop (i + 1) :=
    List.set_eq_take_append_cons_drop.trans (if_pos hi)
  calc a :: xs
    _ = a :: (xs.take i ++ xs[i] :: xs.drop (i + 1)) := congrArg _ hsplit
    _ |>.Perm (a :: xs[i] :: (xs.take i ++ xs.drop (i + 1))) := List.perm_middle.cons a
    _ |>.Perm (xs[i] :: a :: (xs.take i ++ xs.drop (i + 1))) := List.Perm.swap _ _ _
    _ |>.Perm (xs[i] :: (xs.take i ++ a :: xs.drop (i + 1))) := List.perm_middle.symm.cons _
    _ = xs[i] :: xs.set i a := by rw [hset]

/-- Nothing fits, and nothing happens. -/
theorem swapRemove_of_none {p : α → Bool} {table : List α} (h : table.find? p = none) :
    swapRemove p table = table := by
  have hidx : table.findIdx? p = none :=
    List.findIdx?_eq_none_iff.mpr fun x hx => by simpa using List.find?_eq_none.mp h x hx
  rw [swapRemove, hidx]

/-- **Up to order, the first entry that fits is gone.** -/
theorem perm_swapRemove {p : α → Bool} {table : List α} {x : α} (h : table.find? p = some x) :
    table.Perm (x :: swapRemove p table) := by
  rw [List.find?_eq_bind_findIdx?_getElem?, Option.bind_eq_some_iff] at h
  obtain ⟨i, hidx, hx⟩ := h
  obtain ⟨hlt, hget⟩ := List.getElem?_eq_some_iff.mp hx
  obtain ⟨init, last, rfl⟩ : ∃ init last, table = init ++ [last] := by
    rcases List.eq_nil_or_concat' table with rfl | h
    · cases hlt
    · exact h
  have hlast : (init ++ [last]).getLast? = some last := List.getLast?_concat
  rw [swapRemove, hidx, hlast]
  simp only
  rw [List.length_append, List.length_singleton] at hlt
  rcases Nat.lt_or_ge i init.length with hin | hend
  · rw [List.set_append_left _ _ hin, List.dropLast_concat]
    rw [List.getElem_append_left hin] at hget
    rw [← hget]
    exact (List.perm_append_singleton last init).trans (cons_perm_cons_set hin last)
  · have hi : i = init.length := by omega
    subst hi
    rw [List.set_append_right _ _ (Nat.le_refl _), Nat.sub_self, List.set_cons_zero, List.dropLast_concat]
    have hx : x = last := by
      rw [← hget]
      simp
    rw [hx]
    exact List.perm_append_singleton last init

theorem mem_of_mem_swapRemove {p : α → Bool} {table : List α} {a : α} (h : a ∈ swapRemove p table) :
    a ∈ table := by
  rcases hfind : table.find? p with _ | x
  · rwa [swapRemove_of_none hfind] at h
  · exact (perm_swapRemove hfind).mem_iff.mpr (List.mem_cons_of_mem _ h)

end Foundations.SwapRemove
