import Mathlib.Data.List.Basic
import Mathlib.Tactic.Linarith

/-! # Block codes that repair a bounded number of symbols

`wrongSymbols` counts the positions at which a received word differs from the sent one. A decoder
`Repairs` a code word when it restores the data of every word with at most `t` wrong symbols and
returns their number. `repairTo` is the bounded-distance decoder of a single code word.
-/
namespace Foundations.BlockCode
set_option autoImplicit false

variable {α : Type} [DecidableEq α]

def wrongSymbols : List α → List α → ℕ
  | x :: xs, y :: ys => (if x = y then 0 else 1) + wrongSymbols xs ys
  | _, _ => 0

/-- An encoding of the symbols that keeps them apart keeps the number of wrong ones. -/
theorem wrongSymbols_map {β : Type} [DecidableEq β] {f : α → β} {l l' : List α}
    (h : ∀ a ∈ l, ∀ b ∈ l', f a = f b → a = b) : wrongSymbols (l.map f) (l'.map f) = wrongSymbols l l' := by
  induction l generalizing l' with
  | nil => rfl
  | cons a l ih =>
    cases l' with
    | nil => rfl
    | cons b l' =>
      have hab : f a = f b ↔ a = b := ⟨h a List.mem_cons_self b List.mem_cons_self, congrArg f⟩
      have hrest := ih fun x hx y hy => h x (List.mem_cons_of_mem _ hx) y (List.mem_cons_of_mem _ hy)
      simp only [List.map_cons, wrongSymbols, hab, hrest]

@[simp] theorem wrongSymbols_self (l : List α) : wrongSymbols l l = 0 := by
  induction l with
  | nil => rfl
  | cons a l ih => rw [wrongSymbols, if_pos rfl, ih]

theorem wrongSymbols_append_left (front l l' : List α) :
    wrongSymbols (front ++ l) (front ++ l') = wrongSymbols l l' := by
  induction front with
  | nil => rfl
  | cons a front ih => rw [List.cons_append, List.cons_append, wrongSymbols, if_pos rfl, ih, Nat.zero_add]

theorem wrongSymbols_map_map {β : Type} (f g : β → α) (ks : List β) :
    wrongSymbols (ks.map f) (ks.map g) = ks.countP fun k => f k ≠ g k := by
  induction ks with
  | nil => rfl
  | cons k ks ih =>
    rw [List.map_cons, List.map_cons, wrongSymbols, ih, List.countP_cons, Nat.add_comm]
    by_cases hk : f k = g k <;> simp [hk]

theorem wrongSymbols_set_le (l l' : List α) (i : ℕ) (v : α) :
    wrongSymbols l (l'.set i v) ≤ wrongSymbols l l' + 1 := by
  induction l generalizing l' i with
  | nil => exact Nat.zero_le _
  | cons a l ih =>
    cases l' with
    | nil => exact Nat.le_succ _
    | cons b l' =>
      cases i with
      | zero =>
        simp only [List.set_cons_zero, wrongSymbols]
        split <;> omega
      | succ i =>
        have hrest := ih l' i
        simp only [List.set_cons_succ, wrongSymbols]
        omega

/-! ## Decoders -/

abbrev Decoder (α : Type) := List α → List α → List α × ℤ

def Repairs (decode : Decoder α) (data parity : List α) (t : ℕ) : Prop :=
  ∀ data' parity' : List α, data'.length = data.length → parity'.length = parity.length →
    wrongSymbols (data ++ parity) (data' ++ parity') ≤ t →
    decode data' parity' = (data, (wrongSymbols (data ++ parity) (data' ++ parity') : ℤ))

/-- The decoder of one code word: beyond the distance it leaves the data and returns `failure`. -/
def repairTo (data parity : List α) (t : ℕ) (failure : ℤ) : Decoder α := fun data' parity' =>
  let wrong := wrongSymbols (data ++ parity) (data' ++ parity')
  if wrong ≤ t then (data, wrong) else (data', failure)

theorem repairTo_repairs (data parity : List α) (t : ℕ) (failure : ℤ) :
    Repairs (repairTo data parity t failure) data parity t :=
  fun _ _ _ _ h => if_pos h

end Foundations.BlockCode
