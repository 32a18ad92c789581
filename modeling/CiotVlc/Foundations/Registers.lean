import CiotVlc.Foundations.Bytes

/-! # 32-bit registers

The arithmetic of a processor whose registers hold 32-bit words: results are cut off at the width, a
shift uses the low five bits of its count, and a load of `n` bytes replaces the low `n` bytes of a
register only. The lemmas say when nothing is cut off.
-/
namespace Foundations.Registers
open Foundations.Bytes
set_option autoImplicit false

def add (a b : ℕ) : ℕ := (a + b) % 2 ^ 32
def sub (a b : ℕ) : ℕ := (a + (2 ^ 32 - b % 2 ^ 32)) % 2 ^ 32
def lsl (a n : ℕ) : ℕ := (a <<< (n % 32)) % 2 ^ 32
def lsr (a n : ℕ) : ℕ := a >>> (n % 32)

def loadReg (m : Memory) (reg a n : ℕ) : ℕ := reg / 256 ^ n * 256 ^ n + load m a n

structure Store where
  addr : ℕ
  bytes : List UInt8
  deriving DecidableEq, Repr

def storeReg (reg a n : ℕ) : Store := ⟨a, littleEndian n reg⟩

/-- The memory after a pass that stores at most once. -/
def applyStore (m : Memory) : Option Store → Memory
  | none => m
  | some st => store m st.addr st.bytes

@[simp] theorem applyStore_none (m : Memory) : applyStore m none = m := rfl

@[simp] theorem applyStore_some (m : Memory) (st : Store) :
    applyStore m (some st) = store m st.addr st.bytes := rfl

theorem add_of_lt {a b : ℕ} (h : a + b < 2 ^ 32) : add a b = a + b := Nat.mod_eq_of_lt h

theorem sub_of_le {a b : ℕ} (h : b ≤ a) (ha : a < 2 ^ 32) : sub a b = a - b := by
  unfold sub
  omega

theorem lsr_testBit_zero {a n : ℕ} (h : n < 32) : (lsr a n).testBit 0 = a.testBit n := by
  rw [lsr, Nat.mod_eq_of_lt h, Nat.testBit_shiftRight, Nat.add_zero]

theorem lsl_eq {a n : ℕ} (h : n < 32) (ha : a * 2 ^ n < 2 ^ 32) : lsl a n = a * 2 ^ n := by
  rw [lsl, Nat.mod_eq_of_lt h, Nat.shiftLeft_eq, Nat.mod_eq_of_lt ha]

theorem loadReg_of_lt {reg n : ℕ} (h : reg < 256 ^ n) (m : Memory) (a : ℕ) : loadReg m reg a n = load m a n := by
  rw [loadReg, Nat.div_eq_of_lt h, Nat.zero_mul, Nat.zero_add]

theorem loadReg_lt {reg n : ℕ} (h : reg < 256 ^ n) (m : Memory) (a : ℕ) : loadReg m reg a n < 256 ^ n := by
  rw [loadReg_of_lt h]
  exact load_lt m a n

end Foundations.Registers
