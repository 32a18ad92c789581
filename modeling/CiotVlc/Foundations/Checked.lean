import Mathlib.Data.List.GetD
import Mathlib.Data.List.Induction
import Mathlib.Logic.Function.Basic
import Mathlib.Tactic.Linarith

/-! # Checked accesses

A computation that would leave the bounds of an array stops with a `Fault`, so that "every access
is inside the array" is the statement that the computation returns. `readCell` and `writeCell` act
on an array of `size` cells, `readByte` on a received buffer, and `put` appends to a send buffer of
fixed capacity.
-/
namespace Foundations.Checked
set_option autoImplicit false

/-- What stops a computation: an access at this index, outside the array it was meant for, or an
access through a null pointer. -/
inductive Fault
  | outOfBounds (index : ℤ)
  | nullPointer
  deriving DecidableEq, Repr

variable {α β : Type}

/-! ## Sequencing -/

@[simp] theorem ok_bind (a : α) (f : α → Except Fault β) : (Except.ok a >>= f) = f a := rfl

@[simp] theorem error_bind (e : Fault) (f : α → Except Fault β) :
    (Except.error e >>= f) = .error e := rfl

@[simp] theorem pure_eq_ok (a : α) : (pure a : Except Fault α) = .ok a := rfl

theorem bind_eq_ok {x : Except Fault α} {f : α → Except Fault β} {b : β} :
    x >>= f = .ok b ↔ ∃ a, x = .ok a ∧ f a = .ok b := by
  cases x with
  | error e => simp
  | ok a => simp

theorem toOption_eq_some {ε : Type} {x : Except ε α} {a : α} : x.toOption = some a ↔ x = .ok a := by
  cases x with
  | error e => simp [Except.toOption]
  | ok b => simp [Except.toOption]

/-! ## Loops -/

/-- What every iteration keeps, the loop keeps. -/
theorem foldlM_invariant {f : β → α → Except Fault β} {I : β → Prop} {xs : List α} {s t : β}
    (h : xs.foldlM f s = .ok t) (h0 : I s) (keep : ∀ u, ∀ x ∈ xs, ∀ v, I u → f u x = .ok v → I v) : I t := by
  induction xs generalizing s with
  | nil =>
    cases h
    exact h0
  | cons x xs ih =>
    rw [List.foldlM_cons] at h
    obtain ⟨u, hu, ht⟩ := bind_eq_ok.mp h
    exact ih ht (keep s x List.mem_cons_self u h0 hu) fun v y hy => keep v y (List.mem_cons_of_mem _ hy)

/-- A loop returns when every iteration does, with an invariant that speaks of the elements done so far. -/
theorem foldlM_returns {f : β → α → Except Fault β} {I : List α → β → Prop} {xs : List α} {s : β} (h0 : I [] s)
    (step : ∀ done x rest u, xs = done ++ x :: rest → I done u → ∃ v, f u x = .ok v ∧ I (done ++ [x]) v) :
    ∃ t, xs.foldlM f s = .ok t ∧ I xs t := by
  induction xs generalizing s I with
  | nil => exact ⟨s, rfl, h0⟩
  | cons x xs ih =>
    obtain ⟨u, hu, hi⟩ := step [] x xs s rfl h0
    obtain ⟨t, ht, hi⟩ := @ih (fun done => I (x :: done)) u hi fun done y rest v hxs hv =>
      step (x :: done) y rest v (congrArg (x :: ·) hxs) hv
    refine ⟨t, ?_, hi⟩
    rw [List.foldlM_cons, hu]
    exact ht

theorem foldlM_range_returns {f : β → ℕ → Except Fault β} {I : ℕ → β → Prop} {n : ℕ} {s : β} (h0 : I 0 s)
    (step : ∀ k < n, ∀ u, I k u → ∃ v, f u k = .ok v ∧ I (k + 1) v) :
    ∃ t, (List.range n).foldlM f s = .ok t ∧ I n t := by
  induction n with
  | zero => exact ⟨s, rfl, h0⟩
  | succ n ih =>
    obtain ⟨u, hu, hi⟩ := ih fun k hk => step k (Nat.lt_succ_of_lt hk)
    obtain ⟨v, hv, hi⟩ := step n (Nat.lt_succ_self n) u hi
    refine ⟨v, ?_, hi⟩
    rw [List.range_succ, List.foldlM_append, hu, ok_bind, List.foldlM_cons, hv]
    rfl

theorem foldlM_each {f : β → α → Except Fault β} {xs : List α} {s t : β} (h : xs.foldlM f s = .ok t) :
    ∀ x ∈ xs, ∃ u v, f u x = .ok v := by
  induction xs generalizing s with
  | nil => exact fun _ hx => absurd hx List.not_mem_nil
  | cons x xs ih =>
    rw [List.foldlM_cons] at h
    obtain ⟨u, hu, ht⟩ := bind_eq_ok.mp h
    intro y hy
    rcases List.mem_cons.mp hy with rfl | hy
    · exact ⟨s, u, hu⟩
    · exact ih ht y hy

/-- A loop returns exactly when every iteration does, from the state that those before it lead to. -/
theorem foldlM_returns_iff {f : β → α → Except Fault β} {xs : List α} {s : β} :
    (∃ t, xs.foldlM f s = .ok t) ↔
      ∀ before x, before ++ [x] <+: xs → ∀ u, before.foldlM f s = .ok u → ∃ v, f u x = .ok v := by
  induction xs using List.reverseRecOn with
  | nil => simp
  | append_singleton xs x ih =>
    have hsnoc : ∀ u, xs.foldlM f s = .ok u → (xs ++ [x]).foldlM f s = f u x := by
      intro u hu
      rw [List.foldlM_append, hu, ok_bind, List.foldlM_cons]
      cases f u x <;> rfl
    constructor
    · rintro ⟨t, ht⟩ before y hpre u hu
      have hmid := ht
      rw [List.foldlM_append] at hmid
      obtain ⟨v, hv, -⟩ := bind_eq_ok.mp hmid
      rcases List.prefix_concat_iff.mp hpre with heq | hpre
      · obtain ⟨rfl, hy⟩ := List.append_inj' heq rfl
        cases hy
        exact ⟨t, (hsnoc u hu).symm.trans ht⟩
      · exact ih.mp ⟨v, hv⟩ before y hpre u hu
    · intro h
      obtain ⟨v, hv⟩ := ih.mpr fun before y hpre => h before y (hpre.trans (List.prefix_append xs [x]))
      obtain ⟨w, hw⟩ := h xs x List.prefix_rfl v hv
      exact ⟨w, (hsnoc v hv).trans hw⟩

/-! ## Arrays -/

def readCell (size : ℕ) (cells : ℕ → β) (i : ℤ) : Except Fault β :=
  if 0 ≤ i ∧ i < size then .ok (cells i.toNat) else .error (.outOfBounds i)

def writeCell (size : ℕ) (cells : ℕ → β) (i : ℤ) (v : β) : Except Fault (ℕ → β) :=
  if 0 ≤ i ∧ i < size then .ok (Function.update cells i.toNat v) else .error (.outOfBounds i)

theorem readCell_ok {size : ℕ} (cells : ℕ → β) {i : ℕ} (h : i < size) :
    readCell size cells (i : ℤ) = .ok (cells i) := by
  rw [readCell, if_pos ⟨Int.natCast_nonneg i, by exact_mod_cast h⟩, Int.toNat_natCast]

theorem writeCell_ok {size : ℕ} (cells : ℕ → β) {i : ℕ} (v : β) (h : i < size) :
    writeCell size cells (i : ℤ) v = .ok (Function.update cells i v) := by
  rw [writeCell, if_pos ⟨Int.natCast_nonneg i, by exact_mod_cast h⟩, Int.toNat_natCast]

theorem readCell_eq_ok {size : ℕ} {cells : ℕ → β} {i : ℤ} {v : β} (h : readCell size cells i = .ok v) :
    0 ≤ i ∧ i < size ∧ v = cells i.toNat := by
  unfold readCell at h
  split at h
  · next hb => exact ⟨hb.1, hb.2, (Except.ok.inj h).symm⟩
  · cases h

theorem writeCell_eq_ok {size : ℕ} {cells cells' : ℕ → β} {i : ℤ} {v : β}
    (h : writeCell size cells i v = .ok cells') :
    0 ≤ i ∧ i < size ∧ cells' = Function.update cells i.toNat v := by
  unfold writeCell at h
  split at h
  · next hb => exact ⟨hb.1, hb.2, (Except.ok.inj h).symm⟩
  · cases h

/-! ## Received bytes -/

def readByte (bytes : List UInt8) (i : ℕ) : Except Fault UInt8 :=
  match bytes[i]? with
  | some b => .ok b
  | none => .error (.outOfBounds i)

theorem readByte_append (pre : List UInt8) (b : UInt8) (rest : List UInt8) :
    readByte (pre ++ b :: rest) pre.length = .ok b := by
  simp [readByte]

def readBytes (bytes : List UInt8) (i n : ℕ) : Except Fault (List UInt8) :=
  if i + n ≤ bytes.length then .ok ((bytes.drop i).take n) else .error (.outOfBounds (i + n - 1))

theorem readBytes_append (pre mid rest : List UInt8) :
    readBytes (pre ++ (mid ++ rest)) pre.length mid.length = .ok mid := by
  rw [readBytes, if_pos (by simp), List.drop_left, List.take_left]

theorem readByte_returns_iff {bytes : List UInt8} {i : ℕ} :
    (∃ b, readByte bytes i = .ok b) ↔ i < bytes.length := by
  unfold readByte
  by_cases h : i < bytes.length
  · simp [h]
  · rw [List.getElem?_eq_none (Nat.not_lt.mp h)]
    simp [h]

theorem readBytes_returns_iff {bytes : List UInt8} {i n : ℕ} :
    (∃ out, readBytes bytes i n = .ok out) ↔ i + n ≤ bytes.length := by
  unfold readBytes
  split
  · next h => exact iff_of_true ⟨_, rfl⟩ h
  · next h => exact iff_of_false (fun ⟨_, hr⟩ => by cases hr) h

theorem readBytes_eq_ok {bytes out : List UInt8} {i n : ℕ} (h : readBytes bytes i n = .ok out) :
    out = (bytes.drop i).take n := by
  unfold readBytes at h
  split at h
  · exact (Except.ok.inj h).symm
  · cases h

/-! ## Send buffers -/

def put (cap : ℕ) (bs buf : List UInt8) : Except Fault (List UInt8) :=
  if buf.length + bs.length ≤ cap then .ok (buf ++ bs) else .error (.outOfBounds cap)

theorem put_ok {cap : ℕ} {bs buf : List UInt8} (h : buf.length + bs.length ≤ cap) :
    put cap bs buf = .ok (buf ++ bs) := if_pos h

theorem put_eq_ok {cap : ℕ} {bs buf out : List UInt8} (h : put cap bs buf = .ok out) :
    out = buf ++ bs ∧ out.length ≤ cap := by
  unfold put at h
  split at h
  · next hle =>
    cases h
    exact ⟨rfl, by rwa [List.length_append]⟩
  · cases h

end Foundations.Checked
