import CiotVlc.Foundations.BitPack
import CiotVlc.Foundations.Runs

/-! # Symbols on a line

A shift register sends the bits of a word lowest first (`lsbBits`); `lsbBits_append` says that filling a
word from below appends symbols. `manchester` sends a bit as a falling or a rising pair of symbols. A
receiver takes symbols one by one: `Takes` is its triple, `takes_countdown` the rule for a value whose
bits are collected from the most significant one down.
-/
namespace Foundations.LineCode
open Foundations.BitPack Foundations.Runs
set_option autoImplicit false

def lsbBits (w n : ℕ) : List Bool := (List.range w).map n.testBit

@[simp] theorem lsbBits_length (w n : ℕ) : (lsbBits w n).length = w := by simp [lsbBits]

@[simp] theorem lsbBits_zero (n : ℕ) : lsbBits 0 n = [] := rfl

theorem lsbBits_append {r n low : ℕ} (bits : ℕ) (h : low < 2 ^ r) :
    lsbBits (r + n) (low + bits * 2 ^ r) = lsbBits r low ++ lsbBits n bits := by
  rw [lsbBits, List.range_add, List.map_append, List.map_map, Nat.add_comm low, Nat.mul_comm]
  congr 1
  · apply List.map_congr_left
    intro i hi
    rw [Nat.testBit_two_pow_mul_add _ h, if_pos (List.mem_range.mp hi)]
  · apply List.map_congr_left
    intro i _
    rw [Function.comp_apply, Nat.testBit_two_pow_mul_add _ h, if_neg (by omega), Nat.add_sub_cancel_left]

theorem word_lt {r n low bits : ℕ} (h : low < 2 ^ r) (hb : bits < 2 ^ n) :
    low + bits * 2 ^ r < 2 ^ (r + n) := by
  have hmul : (bits + 1) * 2 ^ r ≤ 2 ^ n * 2 ^ r := Nat.mul_le_mul_right _ hb
  rw [Nat.add_mul] at hmul
  rw [Nat.pow_add, Nat.mul_comm (2 ^ r)]
  omega

/-! ## Manchester pairs -/

def manchester (b : Bool) : List Bool := [!b, b]

def encode (bits : List Bool) : List Bool := bits.flatMap manchester

@[simp] theorem encode_nil : encode [] = [] := rfl

@[simp] theorem encode_cons (b : Bool) (bits : List Bool) : encode (b :: bits) = manchester b ++ encode bits := rfl

@[simp] theorem encode_length (bits : List Bool) : (encode bits).length = 2 * bits.length := by
  induction bits with
  | nil => rfl
  | cons b bits ih =>
    rw [encode_cons, List.length_append, ih, List.length_cons, manchester, List.length_cons,
      List.length_singleton]
    omega

def encodeBytes (bytes : List UInt8) : List Bool := bytes.flatMap fun b => encode (msbBits 8 b.toNat)

/-! ## Receivers -/

/-- The number with its `j` low bits cleared: what a receiver has collected in front of bit `j - 1`. -/
def highBits (n j : ℕ) : ℕ := n / 2 ^ j * 2 ^ j

@[simp] theorem highBits_zero (n : ℕ) : highBits n 0 = n := by simp [highBits]

theorem highBits_of_lt {n w : ℕ} (h : n < 2 ^ w) : highBits n w = 0 := by
  rw [highBits, Nat.div_eq_of_lt h, Nat.zero_mul]

theorem highBits_le (n j : ℕ) : highBits n j ≤ n := Nat.div_mul_le_self n (2 ^ j)

theorem highBits_succ (n j : ℕ) : highBits n (j + 1) + (n.testBit j).toNat * 2 ^ j = highBits n j := by
  have hbit : (n.testBit j).toNat = n / 2 ^ j % 2 := by rw [Nat.toNat_testBit]
  have hdiv : n / 2 ^ (j + 1) = n / 2 ^ j / 2 := by rw [pow_succ, Nat.div_div_eq_div_mul]
  have hsplit := Nat.div_add_mod (n / 2 ^ j) 2
  rw [highBits, highBits, hbit, hdiv, pow_succ, ← Nat.mul_assoc, Nat.mul_right_comm, ← Nat.add_mul,
    Nat.mul_comm (n / 2 ^ j / 2), hsplit]

/-- From a state with `P`, the receiver takes these symbols, and is then in a state with `Q`. -/
def Takes {σ α : Type} (step : σ → α → Option σ) (P : σ → Prop) (xs : List α) (Q : σ → Prop) : Prop :=
  ∀ s, P s → ∃ t, Run step s xs t ∧ Q t

theorem Takes.trans {σ α : Type} {step : σ → α → Option σ} {P Q R : σ → Prop} {xs ys : List α}
    (h : Takes step P xs Q) (h' : Takes step Q ys R) : Takes step P (xs ++ ys) R := by
  intro s hs
  obtain ⟨t, hrun, ht⟩ := h s hs
  obtain ⟨u, hrun', hu⟩ := h' t ht
  exact ⟨u, hrun.append hrun', hu⟩

section
variable {σ : Type} {step : σ → Bool → Option σ} {Q : σ → Prop}

/-- A counter that runs down to zero takes the Manchester pairs of a value, most significant bit first. -/
theorem takes_countdown {F : ℕ → σ → Prop} {v : ℕ}
    (hmore : ∀ j, Takes step (F (j + 1)) (manchester (v.testBit (j + 1))) (F j))
    (hlast : Takes step (F 0) (manchester (v.testBit 0)) Q) (j : ℕ) :
    Takes step (F j) (encode (msbBits (j + 1) v)) Q := by
  induction j with
  | zero =>
    rw [msbBits, msbBits, encode_cons, encode_nil, List.append_nil]
    exact hlast
  | succ j ih =>
    rw [msbBits, encode_cons]
    exact (hmore j).trans ih

theorem takes_bytes {F : List UInt8 → σ → Prop} (n : ℕ)
    (hbyte : ∀ pre b, pre.length < n → Takes step (F pre) (encode (msbBits 8 b.toNat)) (F (pre ++ [b])))
    (bytes pre : List UInt8) (hn : pre.length + bytes.length ≤ n) :
    Takes step (F pre) (encodeBytes bytes) (F (pre ++ bytes)) := by
  induction bytes generalizing pre with
  | nil =>
    rw [List.append_nil]
    exact fun s hs => ⟨s, .refl, hs⟩
  | cons b bytes ih =>
    rw [List.length_cons] at hn
    have hrest := ih (pre ++ [b]) (by rw [List.length_append, List.length_singleton]; omega)
    rw [List.append_assoc, List.singleton_append] at hrest
    exact (hbyte pre b (by omega)).trans hrest

end

end Foundations.LineCode
