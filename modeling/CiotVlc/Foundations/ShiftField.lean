import Mathlib.Algebra.Field.MinimalAxioms
import Mathlib.Data.Fintype.EquivFin
import Mathlib.Data.Nat.Bitwise
import Mathlib.Order.Interval.Finset.Nat

/-! # Fields of characteristic two from shift registers

A register of `bits` bits whose step is linear in exclusive or, and which runs from `1` through all nonzero
contents before it is back at `1`, makes its contents a field: the sum is exclusive or, and a content times
another is the second one shifted as often as it takes to reach the first from `1`.
-/
namespace Foundations.ShiftField
set_option autoImplicit false

structure ShiftRegister where
  bits : ℕ
  next : ℕ → ℕ
  bits_pos : 0 < bits
  next_lt : ∀ a, next a < 2 ^ bits
  next_xor : ∀ a b, next (a ^^^ b) = next a ^^^ next b
  cycles : next^[2 ^ bits - 1] 1 = 1
  primitive : ∀ i, 0 < i → i < 2 ^ bits - 1 → next^[i] 1 ≠ 1

namespace ShiftRegister
variable (w : ShiftRegister)

/-- The number of nonzero contents. -/
def order : ℕ := 2 ^ w.bits - 1

def power (i : ℕ) : ℕ := w.next^[i] 1

variable {w}

theorem two_le_pow : 2 ≤ 2 ^ w.bits := by
  have h := Nat.pow_le_pow_right (n := 2) (by omega) w.bits_pos
  simpa using h

theorem order_pos : 0 < w.order := by
  have h := @two_le_pow w
  unfold order
  omega

theorem lt_pow_iff {a : ℕ} : a < 2 ^ w.bits ↔ a ≤ w.order := by
  have h := @two_le_pow w
  unfold order
  omega

theorem next_zero : w.next 0 = 0 := by
  have h := w.next_xor 0 0
  rwa [Nat.xor_self, Nat.xor_self] at h

theorem iterate_xor (n a b : ℕ) : w.next^[n] (a ^^^ b) = w.next^[n] a ^^^ w.next^[n] b := by
  induction n generalizing a b with
  | zero => rfl
  | succ n ih => simp only [Function.iterate_succ_apply, w.next_xor, ih]

theorem iterate_zero (n : ℕ) : w.next^[n] 0 = 0 := by
  induction n with
  | zero => rfl
  | succ n ih => rw [Function.iterate_succ_apply, next_zero, ih]

theorem iterate_lt (n : ℕ) {a : ℕ} (ha : a < 2 ^ w.bits) : w.next^[n] a < 2 ^ w.bits := by
  induction n generalizing a with
  | zero => exact ha
  | succ n ih => exact ih (w.next_lt a)

theorem iterate_power (n i : ℕ) : w.next^[n] (w.power i) = w.power (n + i) :=
  (Function.iterate_add_apply w.next n i 1).symm

theorem power_lt (i : ℕ) : w.power i < 2 ^ w.bits :=
  iterate_lt i (by have h := @two_le_pow w; omega)

theorem power_add_order (i : ℕ) : w.power (i + w.order) = w.power i := by
  rw [← iterate_power]
  exact congrArg w.next^[i] w.cycles

theorem power_add_mul_order (i k : ℕ) : w.power (i + k * w.order) = w.power i := by
  induction k with
  | zero => simp
  | succ k ih => rw [Nat.succ_mul, ← Nat.add_assoc, power_add_order, ih]

theorem power_mod_order (i : ℕ) : w.power (i % w.order) = w.power i := by
  conv => rhs; rw [← Nat.mod_add_div i w.order, Nat.mul_comm, power_add_mul_order]

theorem power_ne_zero (i : ℕ) : w.power i ≠ 0 := by
  intro hzero
  -- Once the register is empty it stays empty, yet it is back at `1` after every round.
  have hone : w.power (0 + i * w.order) = 1 := power_add_mul_order 0 i
  have hle : i ≤ i * w.order := Nat.le_mul_of_pos_right i order_pos
  have hsplit : w.power (0 + i * w.order) = w.next^[i * w.order - i] (w.power i) := by
    rw [iterate_power]
    congr 1
    omega
  rw [hsplit, hzero, iterate_zero] at hone
  exact Nat.zero_ne_one hone

theorem power_eq_one_iff {i : ℕ} : w.power i = 1 ↔ w.order ∣ i := by
  rw [← power_mod_order]
  constructor
  · intro h
    by_contra hdvd
    exact w.primitive _ (Nat.pos_of_ne_zero fun h0 => hdvd (Nat.dvd_of_mod_eq_zero h0))
      (Nat.mod_lt _ order_pos) h
  · intro h
    rw [Nat.mod_eq_zero_of_dvd h]
    rfl

theorem power_inj {i j : ℕ} (hi : i < w.order) (hj : j < w.order) (h : w.power i = w.power j) : i = j := by
  wlog hij : i ≤ j generalizing i j
  · exact (this hj hi h.symm (by omega)).symm
  have hround : w.power (w.order - j + i) = 1 := by
    rw [← iterate_power, h, iterate_power, Nat.sub_add_cancel (by omega)]
    exact power_eq_one_iff.mpr (Nat.dvd_refl _)
  have hdvd := power_eq_one_iff.mp hround
  by_contra hne
  exact absurd (Nat.le_of_dvd (by omega) hdvd) (by omega)

/-- The powers of the first `order` exponents are all nonzero contents. -/
theorem exists_power {a : ℕ} (h0 : 0 < a) (ha : a < 2 ^ w.bits) : ∃ i < w.order, w.power i = a := by
  have hmaps : ∀ i ∈ Finset.range w.order, w.power i ∈ Finset.Ioo 0 (2 ^ w.bits) := fun i _ =>
    Finset.mem_Ioo.mpr ⟨Nat.pos_of_ne_zero (power_ne_zero i), power_lt i⟩
  have hinj : Set.InjOn w.power (Finset.range w.order) := fun i hi j hj h =>
    power_inj (Finset.mem_range.mp hi) (Finset.mem_range.mp hj) h
  have hcard : (Finset.Ioo 0 (2 ^ w.bits)).card ≤ (Finset.range w.order).card := by
    rw [Nat.card_Ioo, Finset.card_range, order]
    omega
  obtain ⟨i, hi, hpower⟩ := Finset.surj_on_of_inj_on_of_card_le (fun i _ => w.power i) hmaps
    (fun i j hi hj h => hinj hi hj h) hcard a (Finset.mem_Ioo.mpr ⟨h0, ha⟩)
  exact ⟨i, Finset.mem_range.mp hi, hpower.symm⟩

end ShiftRegister

/-! ## The field -/

structure Symbol (w : ShiftRegister) where
  val : ℕ
  lt : val < 2 ^ w.bits
  deriving DecidableEq

namespace Symbol
variable {w : ShiftRegister}
open ShiftRegister

@[ext] theorem ext {a b : Symbol w} (h : a.val = b.val) : a = b := by
  cases a
  cases b
  cases h
  rfl

theorem exists_log (a : Symbol w) : ∃ i, a.val ≠ 0 → i < w.order ∧ w.power i = a.val := by
  by_cases h : a.val = 0
  · exact ⟨0, fun hne => absurd h hne⟩
  · obtain ⟨i, hi⟩ := exists_power (Nat.pos_of_ne_zero h) a.lt
    exact ⟨i, fun _ => hi⟩

noncomputable def log (a : Symbol w) : ℕ := (exists_log a).choose

theorem power_log {a : Symbol w} (h : a.val ≠ 0) : w.power a.log = a.val :=
  ((exists_log a).choose_spec h).2

theorem log_lt {a : Symbol w} (h : a.val ≠ 0) : a.log < w.order := ((exists_log a).choose_spec h).1

instance : Zero (Symbol w) := ⟨⟨0, by have h := @two_le_pow w; omega⟩⟩

instance : One (Symbol w) := ⟨⟨1, by have h := @two_le_pow w; omega⟩⟩

instance : Add (Symbol w) := ⟨fun a b => ⟨a.val ^^^ b.val, Nat.xor_lt_two_pow a.lt b.lt⟩⟩

instance : Neg (Symbol w) := ⟨fun a => a⟩

noncomputable instance : Mul (Symbol w) :=
  ⟨fun a b => if a.val = 0 then 0 else ⟨w.next^[a.log] b.val, iterate_lt _ b.lt⟩⟩

noncomputable instance : Inv (Symbol w) :=
  ⟨fun a => if a.val = 0 then 0 else ⟨w.power (w.order - a.log), power_lt _⟩⟩

@[simp] theorem val_zero : (0 : Symbol w).val = 0 := rfl

@[simp] theorem val_one : (1 : Symbol w).val = 1 := rfl

@[simp] theorem val_add (a b : Symbol w) : (a + b).val = a.val ^^^ b.val := rfl

theorem val_mul (a b : Symbol w) : (a * b).val = if a.val = 0 then 0 else w.next^[a.log] b.val := by
  change (if a.val = 0 then (0 : Symbol w) else _).val = _
  split <;> rfl

theorem val_inv (a : Symbol w) : (a⁻¹).val = if a.val = 0 then 0 else w.power (w.order - a.log) := by
  change (if a.val = 0 then (0 : Symbol w) else _).val = _
  split <;> rfl

/-- Powers multiply by adding their exponents, whichever exponents are taken. -/
theorem val_mul_power {a b : Symbol w} {i j : ℕ} (ha : a.val = w.power i) (hb : b.val = w.power j) :
    (a * b).val = w.power (i + j) := by
  have hne : a.val ≠ 0 := by
    rw [ha]
    exact power_ne_zero i
  rw [val_mul, if_neg hne, hb, iterate_power, Nat.add_comm, ← iterate_power, power_log hne, ha, iterate_power,
    Nat.add_comm]

theorem zero_mul' (a : Symbol w) : 0 * a = 0 := Symbol.ext (by rw [val_mul]; rfl)

theorem mul_zero' (a : Symbol w) : a * 0 = 0 := by
  apply Symbol.ext
  rw [val_mul]
  split
  · rfl
  · exact iterate_zero _

theorem eq_zero_or_power (a : Symbol w) : a = 0 ∨ ∃ i, a.val = w.power i := by
  by_cases h : a.val = 0
  · exact Or.inl (Symbol.ext h)
  · exact Or.inr ⟨a.log, (power_log h).symm⟩

noncomputable instance : Field (Symbol w) := by
  apply Field.ofMinimalAxioms (Symbol w)
  case add_assoc => exact fun a b c => Symbol.ext (Nat.xor_assoc _ _ _)
  case zero_add => exact fun a => Symbol.ext (Nat.zero_xor _)
  case neg_add_cancel => exact fun a => Symbol.ext (Nat.xor_self _)
  case mul_assoc =>
    intro a b c
    rcases eq_zero_or_power a with rfl | ⟨i, ha⟩
    · simp only [zero_mul']
    rcases eq_zero_or_power b with rfl | ⟨j, hb⟩
    · simp only [zero_mul', mul_zero']
    rcases eq_zero_or_power c with rfl | ⟨k, hc⟩
    · simp only [mul_zero']
    apply Symbol.ext
    rw [val_mul_power (val_mul_power ha hb) hc, val_mul_power ha (val_mul_power hb hc), Nat.add_assoc]
  case mul_comm =>
    intro a b
    rcases eq_zero_or_power a with rfl | ⟨i, ha⟩
    · rw [zero_mul', mul_zero']
    rcases eq_zero_or_power b with rfl | ⟨j, hb⟩
    · rw [zero_mul', mul_zero']
    apply Symbol.ext
    rw [val_mul_power ha hb, val_mul_power hb ha, Nat.add_comm]
  case one_mul =>
    intro a
    rcases eq_zero_or_power a with rfl | ⟨i, ha⟩
    · exact mul_zero' 1
    apply Symbol.ext
    have hone : (1 : Symbol w).val = w.power 0 := rfl
    rw [val_mul_power hone ha, Nat.zero_add, ha]
  case mul_inv_cancel =>
    intro a ha
    have hne : a.val ≠ 0 := fun h => ha (Symbol.ext h)
    have hinv : (a⁻¹).val = w.power (w.order - a.log) := by rw [val_inv, if_neg hne]
    have hlog := log_lt hne
    apply Symbol.ext
    rw [val_mul_power (power_log hne).symm hinv, Nat.add_sub_cancel' (Nat.le_of_lt hlog)]
    exact power_eq_one_iff.mpr (Nat.dvd_refl _)
  case inv_zero => exact Symbol.ext (by rw [val_inv]; rfl)
  case left_distrib =>
    intro a b c
    apply Symbol.ext
    rw [val_add, val_mul, val_mul, val_mul]
    split
    · exact (Nat.xor_self 0).symm
    · exact iterate_xor _ _ _
  case exists_pair_ne => exact ⟨0, 1, fun h => Nat.zero_ne_one (congrArg Symbol.val h)⟩

/-! ## Contents as symbols -/

def of (w : ShiftRegister) (a : ℕ) : Symbol w := ⟨a % 2 ^ w.bits, Nat.mod_lt _ (Nat.two_pow_pos _)⟩

theorem add_self (a : Symbol w) : a + a = 0 := Symbol.ext (Nat.xor_self _)

theorem neg_eq (a : Symbol w) : -a = a := rfl

theorem sub_eq_add' (a b : Symbol w) : a - b = a + b := sub_eq_add_neg a b

@[simp] theorem of_zero : of w 0 = 0 := Symbol.ext (Nat.zero_mod _)

@[simp] theorem of_one : of w 1 = 1 :=
  Symbol.ext (Nat.mod_eq_of_lt (by have h := @two_le_pow w; omega))

theorem of_xor (a b : ℕ) : of w (a ^^^ b) = of w a + of w b := Symbol.ext Nat.xor_mod_two_pow

theorem val_of {a : ℕ} (ha : a < 2 ^ w.bits) : (of w a).val = a := Nat.mod_eq_of_lt ha

theorem of_val (a : Symbol w) : of w a.val = a := Symbol.ext (val_of a.lt)

theorem of_inj {a b : ℕ} (ha : a < 2 ^ w.bits) (hb : b < 2 ^ w.bits) (h : of w a = of w b) : a = b := by
  rw [← val_of ha, h, val_of hb]

theorem of_eq_zero_iff {a : ℕ} (ha : a < 2 ^ w.bits) : of w a = 0 ↔ a = 0 :=
  ⟨fun h => of_inj ha (Nat.two_pow_pos _) (h.trans of_zero.symm), fun h => by rw [h, of_zero]⟩

/-- The generator of the powers. -/
def alpha (w : ShiftRegister) : Symbol w := of w (w.power 1)

theorem of_power (i : ℕ) : of w (w.power i) = alpha w ^ i := by
  induction i with
  | zero => exact of_one
  | succ i ih =>
    apply Symbol.ext
    have hi : (alpha w ^ i).val = w.power i := by rw [← ih, val_of (power_lt i)]
    have h1 : (alpha w).val = w.power 1 := val_of (power_lt 1)
    rw [pow_succ, val_mul_power hi h1, val_of (power_lt _)]

theorem alpha_ne_zero : alpha w ≠ 0 := by
  intro h
  exact power_ne_zero 1 ((of_eq_zero_iff (power_lt 1)).mp h)

theorem alpha_pow_eq_one_iff {i : ℕ} : alpha w ^ i = 1 ↔ w.order ∣ i := by
  rw [← power_eq_one_iff, ← of_power]
  constructor
  · exact fun h => of_inj (power_lt i) (by have := @two_le_pow w; omega) (h.trans of_one.symm)
  · exact fun h => by rw [h, of_one]

theorem alpha_pow_mod (i : ℕ) : alpha w ^ (i % w.order) = alpha w ^ i := by
  rw [← of_power, ← of_power, power_mod_order]

theorem alpha_pow_eq_iff {i j : ℕ} : alpha w ^ i = alpha w ^ j ↔ i % w.order = j % w.order := by
  constructor
  · intro h
    rw [← alpha_pow_mod i, ← alpha_pow_mod j, ← of_power, ← of_power] at h
    exact power_inj (Nat.mod_lt _ order_pos) (Nat.mod_lt _ order_pos) (of_inj (power_lt _) (power_lt _) h)
  · intro h
    rw [← alpha_pow_mod i, h, alpha_pow_mod]

theorem exists_alpha_pow {a : Symbol w} (ha : a ≠ 0) : ∃ i < w.order, alpha w ^ i = a := by
  have hne : a.val ≠ 0 := fun h => ha (Symbol.ext h)
  refine ⟨a.log, log_lt hne, ?_⟩
  rw [← of_power, power_log hne, of_val]

end Symbol

end Foundations.ShiftField
