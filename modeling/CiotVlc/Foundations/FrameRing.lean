import CiotVlc.Foundations.Bytes

/-! # Rings of equal frames

A ring of `slots` frames of `size` bytes each. Frames are numbered from 0 on, without end; frame `k` lies
at `slot k`, so the reader and the writer of a ring are two frame numbers, and a ring index is the slot
of one. Two frames less than `slots` apart are disjoint, and their slots differ.
-/
namespace Foundations.FrameRing
open Foundations.Bytes
set_option autoImplicit false

structure RingShape where
  base : ℕ
  size : ℕ
  slots : ℕ
  size_pos : 0 < size
  slots_pos : 0 < slots

namespace RingShape
variable (R : RingShape)

/-- Where frame `k` lies. -/
def slot (k : ℕ) : ℕ := R.base + R.size * (k % R.slots)

/-- The first address behind the ring. -/
def limit : ℕ := R.base + R.size * R.slots

theorem base_le_slot (k : ℕ) : R.base ≤ R.slot k := Nat.le_add_right _ _

theorem slot_add_size_le (k : ℕ) : R.slot k + R.size ≤ R.limit := by
  have hlt := Nat.mod_lt k R.slots_pos
  have hmul : R.size * (k % R.slots + 1) ≤ R.size * R.slots := Nat.mul_le_mul_left _ hlt
  rw [slot, limit]
  rw [Nat.mul_add] at hmul
  omega

variable {R}

theorem mod_ne_of_lt {j k n : ℕ} (hjk : j < k) (hk : k < j + n) : j % n ≠ k % n := by
  intro h
  have hzero := Nat.sub_mod_eq_zero_of_mod_eq h.symm
  rw [Nat.mod_eq_of_lt (by omega)] at hzero
  omega

theorem slot_disjoint {j k : ℕ} (hjk : j < k) (hk : k < j + R.slots) :
    R.slot j + R.size ≤ R.slot k ∨ R.slot k + R.size ≤ R.slot j := by
  have hne := mod_ne_of_lt hjk hk
  unfold slot
  rcases Nat.lt_or_gt_of_ne hne with h | h
  · have hmul : R.size * (j % R.slots + 1) ≤ R.size * (k % R.slots) := Nat.mul_le_mul_left _ h
    rw [Nat.mul_add] at hmul
    omega
  · have hmul : R.size * (k % R.slots + 1) ≤ R.size * (j % R.slots) := Nat.mul_le_mul_left _ h
    rw [Nat.mul_add] at hmul
    omega

theorem slot_ne {j k : ℕ} (hjk : j < k) (hk : k < j + R.slots) : R.slot j ≠ R.slot k := by
  have hpos := R.size_pos
  rcases slot_disjoint hjk hk with h | h <;> omega

theorem slot_add_slots (k : ℕ) : R.slot (k + R.slots) = R.slot k := by
  rw [slot, slot, Nat.add_mod_right]

/-- Reader and writer at the same slot: nothing is in the ring. -/
theorem slot_eq_iff {j k : ℕ} (hjk : j ≤ k) (hk : k < j + R.slots) : R.slot j = R.slot k ↔ j = k := by
  constructor
  · intro h
    by_contra hne
    exact slot_ne (by omega) hk h
  · rintro rfl
    rfl

theorem slot_succ (k : ℕ) :
    R.slot (k + 1) = if R.limit ≤ R.slot k + R.size then R.base else R.slot k + R.size := by
  have hpos := R.slots_pos
  have hlt := Nat.mod_lt k hpos
  have hmul : R.size * (k % R.slots + 1) = R.size * (k % R.slots) + R.size := by rw [Nat.mul_add, Nat.mul_one]
  have hsucc : (k + 1) % R.slots = if k % R.slots + 1 = R.slots then 0 else k % R.slots + 1 := by
    rw [Nat.add_mod]
    by_cases h1 : R.slots = 1
    · simp [h1, Nat.mod_one]
    · rw [Nat.mod_eq_of_lt (show 1 < R.slots by omega)]
      split
      · next he => rw [he, Nat.mod_self]
      · exact Nat.mod_eq_of_lt (by omega)
  unfold slot limit
  rw [hsucc]
  by_cases hlast : k % R.slots + 1 = R.slots
  · rw [if_pos hlast, if_pos, Nat.mul_zero, Nat.add_zero]
    rw [hlast] at hmul
    omega
  · rw [if_neg hlast, if_neg, hmul, Nat.add_assoc]
    have hless : R.size * (k % R.slots + 1 + 1) ≤ R.size * R.slots := Nat.mul_le_mul_left _ (by omega)
    have hsize := R.size_pos
    rw [Nat.mul_add] at hless
    omega

end RingShape

/-! ## What the ring holds -/

variable {R : RingShape} {m : Memory} {frames : List (List UInt8)} {d : ℕ}

/-- The frames from number `d` on lie in their slots. -/
def HoldsFrom (R : RingShape) (m : Memory) (frames : List (List UInt8)) (d : ℕ) : Prop :=
  ∀ j (h : j < frames.length), d ≤ j → image m (R.slot j) R.size = frames[j]

theorem HoldsFrom.succ (h : HoldsFrom R m frames d) : HoldsFrom R m frames (d + 1) :=
  fun j hj hd => h j hj (by omega)

theorem HoldsFrom.store_of_disjoint (h : HoldsFrom R m frames d) {a : ℕ} {bs : List UInt8}
    (hout : ∀ j < frames.length, d ≤ j → R.slot j + R.size ≤ a ∨ a + bs.length ≤ R.slot j) :
    HoldsFrom R (store m a bs) frames d := by
  intro j hj hd
  rw [image_store_disjoint _ _ _ _ _ (hout j hj hd)]
  exact h j hj hd

/-- A store into the slot behind the last frame keeps them, as long as the ring is not over-full. -/
theorem HoldsFrom.store_next (h : HoldsFrom R m frames d) (hroom : frames.length < d + R.slots) {a : ℕ}
    {bs : List UInt8} (ha : R.slot frames.length ≤ a) (hb : a + bs.length ≤ R.slot frames.length + R.size) :
    HoldsFrom R (store m a bs) frames d := by
  refine h.store_of_disjoint fun j hj hd => ?_
  rcases RingShape.slot_disjoint (R := R) hj (by omega) with hlt | hlt <;> omega

theorem HoldsFrom.store_front (h : HoldsFrom R m frames d) {a : ℕ} {bs : List UInt8}
    (ha : a + bs.length ≤ R.base) : HoldsFrom R (store m a bs) frames d :=
  h.store_of_disjoint fun j _ _ => Or.inr (ha.trans (R.base_le_slot j))

theorem HoldsFrom.push (h : HoldsFrom R m frames d) {frame : List UInt8}
    (hframe : image m (R.slot frames.length) R.size = frame) : HoldsFrom R m (frames ++ [frame]) d := by
  intro j hj hd
  rw [List.length_append, List.length_singleton] at hj
  rcases Nat.lt_succ_iff_lt_or_eq.mp hj with hlt | rfl
  · rw [List.getElem_append_left hlt]
    exact h j hlt hd
  · rw [List.getElem_concat_length rfl]
    exact hframe

end Foundations.FrameRing
