import Mathlib.Data.Nat.Basic
import Mathlib.Order.Basic

/-! # Rings of frames of different sizes

The frames of a ring lie in one piece each, and begin below a limit: a frame may spill over it, and the
next one begins at the base again. A producer writes a frame behind the last one and publishes it unless
the index behind it is where the consumer reads; only then does it take the next frame. It looks at the
read index behind the frame, never at what lies in between, so a frame can cross the reader.
-/
namespace Foundations.SpillRing
set_option autoImplicit false

structure Extent where
  start : ℕ
  size : ℕ
  deriving DecidableEq, Repr

def Extent.Apart (e f : Extent) : Prop := e.start + e.size ≤ f.start ∨ f.start + f.size ≤ e.start

/-- Where the frame behind this one begins. -/
def behind (base limit : ℕ) (e : Extent) : ℕ := if limit ≤ e.start + e.size then base else e.start + e.size

/-- The indices, the size of a frame that is written and not published, and the frames in between. -/
structure RingState where
  read : ℕ
  write : ℕ
  pending : Option ℕ
  unread : List Extent
  deriving DecidableEq, Repr

/-- The producer's turn, with a next frame of `n` bytes. -/
def RingState.produce (base limit : ℕ) (ring : RingState) (n : ℕ) : RingState :=
  let size := ring.pending.getD n
  let next := behind base limit ⟨ring.write, size⟩
  if next = ring.read then { ring with pending := some size }
  else { ring with write := next, pending := none, unread := ring.unread ++ [⟨ring.write, size⟩] }

def RingState.consume (base limit : ℕ) (ring : RingState) : Option RingState :=
  match ring.unread with
  | [] => none
  | e :: rest => some { ring with read := behind base limit e, unread := rest }

/-- The next frame, of `n` bytes, begins below the reader and ends above it. -/
def RingState.Crosses (ring : RingState) (n : ℕ) : Prop := ring.write < ring.read ∧ ring.read < ring.write + n

/-! ## Where the frames lie -/

/-- Frames one behind the other, from `a` up to `b`. -/
def Contiguous (limit : ℕ) : ℕ → List Extent → ℕ → Prop
  | a, [], b => a = b
  | a, e :: rest, b => e.start = a ∧ 0 < e.size ∧ a < limit ∧ Contiguous limit (a + e.size) rest b

/-- The unread frames, from the read to the write index: in one piece, or up to the limit and from the base
on. -/
inductive Layout (base limit r w : ℕ) (frames : List Extent) : Prop
  | straight (h : Contiguous limit r frames w)
  | wrapped {front back : List Extent} {b : ℕ} (hframes : frames = front ++ back)
      (hfront : Contiguous limit r front b) (hb : limit ≤ b) (hback : Contiguous limit base back w) (hlt : w < r)

structure RingState.Sound (base limit : ℕ) (ring : RingState) : Prop where
  read : base ≤ ring.read ∧ ring.read < limit
  write : base ≤ ring.write ∧ ring.write < limit
  layout : Layout base limit ring.read ring.write ring.unread
  pending : ∀ n, ring.pending = some n → 0 < n ∧ ¬ ring.Crosses n

section
variable {base limit a b n : ℕ} {frames : List Extent}

theorem Contiguous.le (h : Contiguous limit a frames b) : a ≤ b := by
  induction frames generalizing a with
  | nil => exact h.le
  | cons e frames ih => exact (Nat.le_add_right a e.size).trans (ih h.2.2.2)

theorem Contiguous.bounds (h : Contiguous limit a frames b) {e : Extent} (he : e ∈ frames) :
    a ≤ e.start ∧ e.start + e.size ≤ b := by
  induction frames generalizing a with
  | nil => exact absurd he List.not_mem_nil
  | cons f frames ih =>
    obtain ⟨hstart, -, -, hrest⟩ := h
    rcases List.mem_cons.mp he with rfl | he
    · exact ⟨hstart.ge, by rw [hstart]; exact hrest.le⟩
    · have hbounds := ih hrest he
      exact ⟨by omega, hbounds.2⟩

theorem Contiguous.snoc (h : Contiguous limit a frames b) (hb : b < limit) (hn : 0 < n) :
    Contiguous limit a (frames ++ [⟨b, n⟩]) (b + n) := by
  induction frames generalizing a with
  | nil =>
    cases h
    exact ⟨rfl, hn, hb, rfl⟩
  | cons e frames ih =>
    obtain ⟨hstart, hsize, ha, hrest⟩ := h
    exact ⟨hstart, hsize, ha, ih hrest⟩

/-! ## What a sound ring can do -/

variable {ring next : RingState} {r w : ℕ}

/-- The first frame lies at the read index. -/
theorem Layout.head (h : Layout base limit r w frames) (hr : r < limit) :
    frames = [] ∧ r = w ∨ ∃ e rest, frames = e :: rest ∧ e.start = r ∧ 0 < e.size ∧ r ≠ w := by
  cases h with
  | straight h =>
    cases frames with
    | nil => exact Or.inl ⟨rfl, h⟩
    | cons e rest =>
      obtain ⟨hstart, hsize, -, hrest⟩ := h
      have hlt : r < w := lt_of_lt_of_le (Nat.lt_add_of_pos_right hsize) hrest.le
      exact Or.inr ⟨e, rest, rfl, hstart, hsize, hlt.ne⟩
  | @wrapped front back b hframes hfront hb hback hlt =>
    cases front with
    | nil =>
      cases hfront
      exact absurd hr (Nat.not_lt.mpr hb)
    | cons e front =>
      obtain ⟨hstart, hsize, -, -⟩ := hfront
      exact Or.inr ⟨e, front ++ back, hframes, hstart, hsize, hlt.ne'⟩

theorem Layout.base_le (h : Layout base limit r w frames) (hr : base ≤ r) {e : Extent} (he : e ∈ frames) :
    base ≤ e.start := by
  cases h with
  | straight h => exact hr.trans (h.bounds he).1
  | wrapped hframes hfront _ hback _ =>
    rw [hframes] at he
    rcases List.mem_append.mp he with he | he
    · exact hr.trans (hfront.bounds he).1
    · exact (hback.bounds he).1

/-- **A frame overlaps an unread one exactly when it crosses the reader.** -/
theorem Layout.apart_iff (h : Layout base limit r w frames) (hr : r < limit) :
    (∀ e ∈ frames, Extent.Apart ⟨w, n⟩ e) ↔ ¬ (w < r ∧ r < w + n) := by
  unfold Extent.Apart
  constructor
  · rintro hall ⟨hlt, hcross⟩
    rcases h.head hr with ⟨-, heq⟩ | ⟨e, rest, hframes, hstart, hsize, -⟩
    · omega
    · have hapart := hall e (by rw [hframes]; exact List.mem_cons_self)
      dsimp only at hapart
      omega
  · intro hcross e he
    dsimp only
    cases h with
    | straight h => exact Or.inr (h.bounds he).2
    | wrapped hframes hfront _ hback hlt =>
      rw [hframes] at he
      rcases List.mem_append.mp he with he | he
      · have hbounds := hfront.bounds he
        omega
      · exact Or.inr (hback.bounds he).2

theorem Layout.snoc (h : Layout base limit r w frames) (hr : base ≤ r ∧ r < limit) (hw : w < limit) (hn : 0 < n)
    (hcross : ¬ (w < r ∧ r < w + n)) (hroom : behind base limit ⟨w, n⟩ ≠ r) :
    Layout base limit r (behind base limit ⟨w, n⟩) (frames ++ [⟨w, n⟩]) := by
  unfold behind at hroom ⊢
  dsimp only at hroom ⊢
  cases h with
  | straight h =>
    split at hroom
    · next hspill =>
      rw [if_pos hspill]
      exact .wrapped (List.append_nil _).symm (h.snoc hw hn) hspill rfl (by omega)
    · next hspill =>
      rw [if_neg hspill]
      exact .straight (h.snoc hw hn)
  | wrapped hframes hfront hb hback hlt =>
    rw [if_neg (by omega)] at hroom ⊢
    rw [hframes, List.append_assoc]
    exact .wrapped rfl hfront hb (hback.snoc hw hn) (by omega)

/-- Behind its first frame the reader is still above the write index only if it was before. -/
theorem Layout.tail {e : Extent} (h : Layout base limit r w (e :: frames)) (hr : r < limit) (hw : base ≤ w)
    (hw' : w < limit) :
    Layout base limit (behind base limit e) w frames ∧
      (w < behind base limit e → w < r ∧ r ≤ behind base limit e) := by
  unfold behind
  cases h with
  | straight h =>
    obtain ⟨hstart, -, -, hrest⟩ := h
    have hle := hrest.le
    rw [if_neg (by omega), hstart]
    exact ⟨.straight hrest, fun hlt => by omega⟩
  | @wrapped front back b hframes hfront hb hback hlt =>
    cases front with
    | nil =>
      cases hfront
      exact absurd hr (Nat.not_lt.mpr hb)
    | cons f front =>
      cases hframes
      obtain ⟨hstart, -, -, hrest⟩ := hfront
      cases front with
      | nil =>
        cases hrest
        rw [if_pos (by omega)]
        exact ⟨.straight hback, fun hlt => by omega⟩
      | cons g front =>
        have hmore := hrest.2.2.1
        rw [if_neg (by omega), hstart]
        exact ⟨.wrapped rfl hrest hb hback (by omega), fun _ => ⟨hlt, Nat.le_add_right _ _⟩⟩

theorem behind_bounds {e : Extent} (hbase : base < limit) (hstart : base ≤ e.start) :
    base ≤ behind base limit e ∧ behind base limit e < limit := by
  unfold behind
  split <;> omega

theorem RingState.Sound.produce (h : ring.Sound base limit) (hn : 0 < n)
    (hcross : ring.pending = none → ¬ ring.Crosses n) : (ring.produce base limit n).Sound base limit := by
  obtain ⟨size, hsize, hpos, hsafe⟩ : ∃ size, ring.pending.getD n = size ∧ 0 < size ∧ ¬ ring.Crosses size := by
    cases hp : ring.pending with
    | none => exact ⟨n, rfl, hn, hcross hp⟩
    | some k => exact ⟨k, rfl, h.pending k hp⟩
  simp only [RingState.produce, hsize]
  by_cases hfull : behind base limit ⟨ring.write, size⟩ = ring.read
  · rw [if_pos hfull]
    refine ⟨h.read, h.write, h.layout, fun k hk => ?_⟩
    cases hk
    exact ⟨hpos, hsafe⟩
  · rw [if_neg hfull]
    exact ⟨h.read, behind_bounds (by have := h.read; omega) h.write.1,
      h.layout.snoc h.read h.write.2 hpos hsafe hfull, nofun⟩

theorem RingState.Sound.consume (h : ring.Sound base limit) (hconsume : ring.consume base limit = some next) :
    next.Sound base limit := by
  obtain ⟨hread, hwrite, hlayout, hpending⟩ := h
  cases hunread : ring.unread with
  | nil =>
    rw [RingState.consume, hunread] at hconsume
    cases hconsume
  | cons e rest =>
    rw [RingState.consume, hunread] at hconsume
    cases hconsume
    rw [hunread] at hlayout
    obtain ⟨htail, hmoved⟩ := hlayout.tail hread.2 hwrite.1 hwrite.2
    have hstart : base ≤ e.start := by
      rcases hlayout.head hread.2 with ⟨hnil, -⟩ | ⟨f, rest', heq, hstart, -⟩
      · cases hnil
      · cases heq
        omega
    refine ⟨behind_bounds (by omega) hstart, hwrite, htail, fun n hn => ⟨(hpending n hn).1, ?_⟩⟩
    rintro ⟨hlt, hcross⟩
    obtain ⟨hbelow, hle⟩ := hmoved hlt
    exact (hpending n hn).2 ⟨hbelow, lt_of_le_of_lt hle hcross⟩

end

end Foundations.SpillRing
