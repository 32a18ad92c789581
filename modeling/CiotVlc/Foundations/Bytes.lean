import Mathlib.Data.List.GetD
import Mathlib.Tactic.Linarith
import Mathlib.Tactic.Ring

/-! # Little-endian words and byte memories

`littleEndian w n` is what copying a `w`-byte unsigned integer on a little-endian host writes, and
`ofLittleEndian` what copying the bytes back reads. `int32`/`ofInt32` are the two's complement
reading of four bytes. A byte memory is a total function of the address; `image m a n` is its
content on `[a, a + n)`, and `store` overwrites a block.
-/
namespace Foundations.Bytes
set_option autoImplicit false

/-! ## Words -/

def littleEndian : ℕ → ℕ → List UInt8
  | 0, _ => []
  | w + 1, n => UInt8.ofNat n :: littleEndian w (n / 256)

def ofLittleEndian : List UInt8 → ℕ
  | [] => 0
  | b :: bs => b.toNat + 256 * ofLittleEndian bs

@[simp] theorem littleEndian_length (w n : ℕ) : (littleEndian w n).length = w := by
  induction w generalizing n with
  | zero => rfl
  | succ w ih => rw [littleEndian, List.length_cons, ih]

theorem ofLittleEndian_lt (bs : List UInt8) : ofLittleEndian bs < 256 ^ bs.length := by
  induction bs with
  | nil => simp [ofLittleEndian]
  | cons b bs ih =>
    have hb : b.toNat < 256 := b.toNat_lt
    rw [ofLittleEndian, List.length_cons, pow_succ]
    omega

/-- Reading back what was written gives the number modulo the width. -/
theorem ofLittleEndian_littleEndian (w n : ℕ) : ofLittleEndian (littleEndian w n) = n % 256 ^ w := by
  induction w generalizing n with
  | zero => simp [littleEndian, ofLittleEndian, Nat.mod_one]
  | succ w ih =>
    have hb : (UInt8.ofNat n).toNat = n % 256 := UInt8.toNat_ofNat'
    rw [littleEndian, ofLittleEndian, ih, hb, pow_succ', Nat.mod_mul]

theorem ofLittleEndian_of_lt {w n : ℕ} (h : n < 256 ^ w) :
    ofLittleEndian (littleEndian w n) = n := by
  rw [ofLittleEndian_littleEndian, Nat.mod_eq_of_lt h]

theorem littleEndian_ofLittleEndian (bs : List UInt8) :
    littleEndian bs.length (ofLittleEndian bs) = bs := by
  induction bs with
  | nil => rfl
  | cons b bs ih =>
    have hb : b.toNat < 256 := b.toNat_lt
    have hlow : UInt8.ofNat (b.toNat + 256 * ofLittleEndian bs) = b := by
      apply UInt8.toNat_inj.mp
      rw [UInt8.toNat_ofNat']
      omega
    have hhigh : (b.toNat + 256 * ofLittleEndian bs) / 256 = ofLittleEndian bs := by omega
    rw [ofLittleEndian, List.length_cons, littleEndian, hlow, hhigh, ih]

theorem uint8_ofInt_natCast (n : ℕ) : UInt8.ofInt (n : ℤ) = UInt8.ofNat n := by
  apply UInt8.toNat_inj.mp
  rw [UInt8.ofInt, UInt8.toNat_ofNat', UInt8.toNat_ofNat']
  omega

/-! ## Two's complement -/

def int32 (n : ℕ) : ℤ := if n < 2 ^ 31 then n else n - 2 ^ 32

def ofInt32 (x : ℤ) : ℕ := (x % 2 ^ 32).toNat

def FitsInt32 (x : ℤ) : Prop := -2 ^ 31 ≤ x ∧ x < 2 ^ 31

theorem ofInt32_lt (x : ℤ) : ofInt32 x < 256 ^ 4 := by
  have h0 := Int.emod_nonneg x (show (2 ^ 32 : ℤ) ≠ 0 by norm_num)
  have h1 := Int.emod_lt_of_pos x (show (0 : ℤ) < 2 ^ 32 by norm_num)
  unfold ofInt32
  norm_num at h0 h1 ⊢
  omega

theorem int32_ofInt32 {x : ℤ} (h : FitsInt32 x) : int32 (ofInt32 x) = x := by
  unfold FitsInt32 at h
  unfold int32 ofInt32
  norm_num at h ⊢
  split <;> omega

/-- The value of a 32-bit `int` that a computation leaves when it overflows. -/
def wrap32 (x : ℤ) : ℤ := int32 (ofInt32 x)

theorem wrap32_of_fits {x : ℤ} (h : FitsInt32 x) : wrap32 x = x := int32_ofInt32 h

theorem int32_of_lt {n : ℕ} (h : n < 2 ^ 31) : int32 n = n := if_pos h

/-! ## Memories -/

abbrev Memory := ℕ → UInt8

def image (m : Memory) (a n : ℕ) : List UInt8 := (List.range n).map fun i => m (a + i)

/-- The little-endian word of `w` bytes at `a`. -/
def load (m : Memory) (a w : ℕ) : ℕ := ofLittleEndian (image m a w)

def store (m : Memory) (a : ℕ) (bs : List UInt8) : Memory :=
  fun x => if a ≤ x ∧ x < a + bs.length then bs.getD (x - a) 0 else m x

@[simp] theorem image_length (m : Memory) (a n : ℕ) : (image m a n).length = n := by simp [image]

theorem image_succ (m : Memory) (a n : ℕ) : image m a (n + 1) = image m a n ++ [m (a + n)] := by
  simp [image, List.range_succ]

theorem image_add (m : Memory) (a n k : ℕ) :
    image m a (n + k) = image m a n ++ image m (a + n) k := by
  simp [image, List.range_add, Function.comp_def, Nat.add_assoc]

theorem image_getElem? (m : Memory) (a n i : ℕ) (h : i < n) : (image m a n)[i]? = some (m (a + i)) := by
  simp [image, h]

theorem image_headD (m : Memory) (a : ℕ) {n : ℕ} (h : 0 < n) (b : UInt8) : (image m a n).headD b = m a := by
  rw [List.headD_eq_head?_getD, List.head?_eq_getElem?, image_getElem? m a n 0 h, Option.getD_some, Nat.add_zero]

theorem image_congr {m m' : Memory} {a n : ℕ} (h : ∀ x, a ≤ x → x < a + n → m x = m' x) :
    image m a n = image m' a n := by
  apply List.map_congr_left
  intro i hi
  exact h _ (Nat.le_add_right _ _) (Nat.add_lt_add_left (List.mem_range.mp hi) a)

theorem image_eq_iff {m m' : Memory} {a n : ℕ} :
    image m a n = image m' a n ↔ ∀ x, a ≤ x → x < a + n → m x = m' x := by
  refine ⟨fun h x hx hlt => ?_, image_congr⟩
  have hi : x - a < n := by omega
  have := congrArg (fun l => l[x - a]?) h
  simp only [image_getElem? _ _ _ _ hi, Option.some.injEq] at this
  rwa [show a + (x - a) = x by omega] at this

theorem load_lt (m : Memory) (a w : ℕ) : load m a w < 256 ^ w := by
  have := ofLittleEndian_lt (image m a w)
  rwa [image_length] at this

theorem store_outside (m : Memory) (a : ℕ) (bs : List UInt8) (x : ℕ)
    (h : x < a ∨ a + bs.length ≤ x) : store m a bs x = m x := by
  rw [store, if_neg (by omega)]

theorem store_inside (m : Memory) (a : ℕ) (bs : List UInt8) (i : ℕ) (h : i < bs.length) :
    store m a bs (a + i) = bs[i] := by
  rw [store, if_pos (by omega), Nat.add_sub_cancel_left, List.getD_eq_getElem _ _ h]

@[simp] theorem image_store (m : Memory) (a : ℕ) (bs : List UInt8) :
    image (store m a bs) a bs.length = bs := by
  apply List.ext_getElem (by simp)
  intro i h _
  rw [image_length] at h
  simp only [image, List.getElem_map, List.getElem_range]
  exact store_inside m a bs i h

theorem store_append (m : Memory) (a : ℕ) (xs ys : List UInt8) :
    store (store m a xs) (a + xs.length) ys = store m a (xs ++ ys) := by
  funext x
  simp only [store, List.length_append]
  by_cases hys : a + xs.length ≤ x ∧ x < a + xs.length + ys.length
  · rw [if_pos hys, if_pos (by omega), List.getD_append_right _ _ _ _ (by omega)]
    congr 1
    omega
  · rw [if_neg hys]
    by_cases hxs : a ≤ x ∧ x < a + xs.length
    · rw [if_pos hxs, if_pos (by omega), List.getD_append _ _ _ _ (by omega)]
    · rw [if_neg hxs, if_neg (by omega)]

theorem image_store_disjoint (m : Memory) (a : ℕ) (bs : List UInt8) (b n : ℕ)
    (h : b + n ≤ a ∨ a + bs.length ≤ b) : image (store m a bs) b n = image m b n := by
  apply image_congr
  intro x h1 h2
  exact store_outside m a bs x (by omega)

theorem load_store (m : Memory) (a w n : ℕ) :
    load (store m a (littleEndian w n)) a w = n % 256 ^ w := by
  have h := image_store m a (littleEndian w n)
  rw [littleEndian_length] at h
  rw [load, h, ofLittleEndian_littleEndian]

theorem load_store_disjoint (m : Memory) (a : ℕ) (bs : List UInt8) (b w : ℕ)
    (h : b + w ≤ a ∨ a + bs.length ≤ b) : load (store m a bs) b w = load m b w := by
  rw [load, load, image_store_disjoint m a bs b w h]

/-! ## Parts of an image -/

section
variable {m : Memory} {a : ℕ} {pre mid post : List UInt8}

theorem image_append_iff : image m a (pre ++ post).length = pre ++ post ↔
    image m a pre.length = pre ∧ image m (a + pre.length) post.length = post := by
  rw [List.length_append, image_add]
  constructor
  · intro h
    exact List.append_inj h (image_length _ _ _)
  · rintro ⟨hpre, hpost⟩
    rw [hpre, hpost]

theorem load_store_front {bs : List UInt8} {w n : ℕ} (h : bs.take w = littleEndian w n) (hn : n < 256 ^ w)
    (m : Memory) (a : ℕ) : load (store m a bs) a w = n := by
  have himage := image_store m a bs
  rw [← List.take_append_drop w bs, h] at himage
  have hword := (image_append_iff.mp himage).1
  rw [littleEndian_length] at hword
  rw [← List.take_append_drop w bs, h, load, hword]
  exact ofLittleEndian_of_lt hn

theorem image_part (h : image m a (pre ++ (mid ++ post)).length = pre ++ (mid ++ post)) :
    image m (a + pre.length) mid.length = mid :=
  (image_append_iff.mp (image_append_iff.mp h).2).1

theorem image_store_part {bs : List UInt8}
    (h : image m a (pre ++ (mid ++ post)).length = pre ++ (mid ++ post)) (hlen : bs.length = mid.length) :
    image (store m (a + pre.length) bs) a (pre ++ (bs ++ post)).length = pre ++ (bs ++ post) := by
  obtain ⟨hpre, hrest⟩ := image_append_iff.mp h
  obtain ⟨-, hpost⟩ := image_append_iff.mp hrest
  rw [← hlen] at hpost
  refine image_append_iff.mpr ⟨?_, image_append_iff.mpr ⟨image_store _ _ _, ?_⟩⟩
  · rw [image_store_disjoint _ _ _ _ _ (Or.inl le_rfl), hpre]
  · rw [image_store_disjoint _ _ _ _ _ (Or.inr le_rfl), hpost]

end

end Foundations.Bytes
