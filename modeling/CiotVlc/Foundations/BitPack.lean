import Mathlib.Data.List.GetD
import Mathlib.Data.Nat.Bitwise
import Mathlib.Tactic.Linarith
import Mathlib.Tactic.Ring

/-! # Bits, most significant first

`msbBits w n` lists the `w` low bits of `n`, most significant first, and `msbValue w bs` is the
number whose top bits (of `w`) are `bs`, padded with zeros on the right. `packMsb` cuts a bit string
into bytes, the last one padded, and `unpackMsb` reads a given number of bits back.
-/
namespace Foundations.BitPack
set_option autoImplicit false

/-- The `w` low bits of `n`, most significant first. -/
def msbBits : ℕ → ℕ → List Bool
  | 0, _ => []
  | w + 1, n => n.testBit w :: msbBits w n

/-- The `w`-bit number whose leading bits are `bs`. -/
def msbValue : ℕ → List Bool → ℕ
  | 0, _ => 0
  | _ + 1, [] => 0
  | w + 1, b :: bs => b.toNat * 2 ^ w + msbValue w bs

@[simp] theorem msbBits_length (w n : ℕ) : (msbBits w n).length = w := by
  induction w with
  | zero => rfl
  | succ w ih => rw [msbBits, List.length_cons, ih]

@[simp] theorem msbValue_nil (w : ℕ) : msbValue w [] = 0 := by cases w <;> rfl

theorem msbValue_lt (w : ℕ) (bs : List Bool) : msbValue w bs < 2 ^ w := by
  induction w generalizing bs with
  | zero => simp [msbValue]
  | succ w ih =>
    cases bs with
    | nil => simp
    | cons b bs =>
      have := ih bs
      rw [msbValue, pow_succ]
      cases b <;> simp only [Bool.toNat_false, Bool.toNat_true] <;> omega

theorem msbBits_congr {w n m : ℕ} (h : ∀ i < w, n.testBit i = m.testBit i) :
    msbBits w n = msbBits w m := by
  induction w with
  | zero => rfl
  | succ w ih => rw [msbBits, msbBits, h w (Nat.lt_succ_self w), ih fun i hi => h i (by omega)]

theorem msbBits_msbValue_take (w : ℕ) (bs : List Bool) (h : bs.length ≤ w) :
    (msbBits w (msbValue w bs)).take bs.length = bs := by
  induction w generalizing bs with
  | zero =>
    have : bs = [] := List.length_eq_zero_iff.mp (by omega)
    subst this
    rfl
  | succ w ih =>
    cases bs with
    | nil => rfl
    | cons b bs =>
      have hlt := msbValue_lt w bs
      have htop : (b.toNat * 2 ^ w + msbValue w bs).testBit w = b := by
        rw [Nat.mul_comm, Nat.testBit_two_pow_mul_add _ hlt]
        cases b <;> simp
      have hlow : ∀ i < w, (b.toNat * 2 ^ w + msbValue w bs).testBit i = (msbValue w bs).testBit i := by
        intro i hi
        rw [Nat.mul_comm, Nat.testBit_two_pow_mul_add _ hlt, if_pos hi]
      rw [msbValue, msbBits, htop, msbBits_congr hlow, List.length_cons, List.take_succ_cons,
        ih bs (by simpa using h)]

theorem msbBits_msbValue (w : ℕ) (bs : List Bool) (h : bs.length = w) :
    msbBits w (msbValue w bs) = bs := by
  have ht := msbBits_msbValue_take w bs (by omega)
  rwa [h, List.take_of_length_le (by simp)] at ht

theorem msbValue_msbBits (w n : ℕ) : msbValue w (msbBits w n) = n % 2 ^ w := by
  induction w with
  | zero => rw [pow_zero, Nat.mod_one, msbValue]
  | succ w ih => rw [msbBits, msbValue, ih, Nat.toNat_testBit, Nat.mod_pow_succ, Nat.mul_comm, Nat.add_comm]

theorem or_shiftLeft (a w : ℕ) (b : Bool) :
    a * 2 ^ (w + 1) ||| b.toNat <<< w = (2 * a + b.toNat) * 2 ^ w := by
  have hlt : b.toNat <<< w < 2 ^ (w + 1) := by
    rw [Nat.shiftLeft_eq, pow_succ]
    have := Nat.two_pow_pos w
    cases b <;> simp only [Bool.toNat_false, Bool.toNat_true] <;> omega
  rw [Nat.mul_comm a, ← Nat.two_pow_add_eq_or_of_lt hlt, Nat.shiftLeft_eq, pow_succ]
  ring

/-! ## Bytes -/

def byteCount (n : ℕ) : ℕ := (n + 7) / 8

/-- The first `n` bytes of a bit string, each with its first bit on top. -/
def packMsb : ℕ → List Bool → List UInt8
  | 0, _ => []
  | n + 1, bs => UInt8.ofNat (msbValue 8 (bs.take 8)) :: packMsb n (bs.drop 8)

/-- The first `n` bits of a byte string. -/
def unpackMsb (n : ℕ) (bytes : List UInt8) : List Bool :=
  (bytes.flatMap fun b => msbBits 8 b.toNat).take n

theorem unpackMsb_cons (n : ℕ) (b : UInt8) (bytes : List UInt8) :
    unpackMsb n (b :: bytes) = (msbBits 8 b.toNat).take n ++ unpackMsb (n - 8) bytes := by
  rw [unpackMsb, List.flatMap_cons, List.take_append, msbBits_length]
  rfl

@[simp] theorem packMsb_length (n : ℕ) (bs : List Bool) : (packMsb n bs).length = n := by
  induction n generalizing bs with
  | zero => rfl
  | succ n ih => rw [packMsb, List.length_cons, ih]

theorem packMsb_byte (bs : List Bool) : (UInt8.ofNat (msbValue 8 bs)).toNat = msbValue 8 bs := by
  rw [UInt8.toNat_ofNat']
  exact Nat.mod_eq_of_lt (msbValue_lt 8 bs)

/-- **Packing loses nothing.** -/
theorem unpackMsb_packMsb (n : ℕ) (bs : List Bool) (h : bs.length ≤ 8 * n) :
    unpackMsb bs.length (packMsb n bs) = bs := by
  induction n generalizing bs with
  | zero =>
    have : bs = [] := List.length_eq_zero_iff.mp (by omega)
    subst this
    rfl
  | succ n ih =>
    rw [packMsb, unpackMsb_cons, packMsb_byte]
    by_cases hlen : bs.length ≤ 8
    · -- one byte holds everything that is left
      have hnil : bs.length - 8 = 0 := by omega
      rw [List.take_of_length_le hlen, msbBits_msbValue_take 8 bs hlen, hnil]
      simp [unpackMsb]
    · have h8 : (bs.take 8).length = 8 := by rw [List.length_take]; omega
      have hdrop : bs.length - 8 = (bs.drop 8).length := List.length_drop.symm
      have hih := ih (bs.drop 8) (by rw [← hdrop]; omega)
      rw [msbBits_msbValue 8 _ h8, List.take_of_length_le (by omega), hdrop, hih, List.take_append_drop]

theorem byteCount_spec (n : ℕ) : n ≤ 8 * byteCount n := by unfold byteCount; omega

end Foundations.BitPack
