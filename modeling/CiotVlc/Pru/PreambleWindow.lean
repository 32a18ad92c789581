import Mathlib.Order.Bounds.Defs
import CiotVlc.Pru.RxDecode

/-! # The preamble search as a window

The search keeps two counters and one symbol, and starts over from that symbol when an edge is missing. It
should find the first place where the last 24 symbols are the preamble, as comparing them would.
`matched` says how much of an alternating sequence the symbols received so far end in: the counters hold
just this number, and it is the greatest one, so no start is missed.
-/
namespace CiotVlc.Pru
open Foundations.Bytes Foundations.Registers Foundations.Runs
set_option autoImplicit false

/-! ## What the symbols end in -/

/-- One symbol more: it continues the sequence, or starts a new one, or neither. -/
def nextMatched (k : ℕ) (b : Bool) : ℕ := if b = (k % 2 == 0) then k + 1 else b.toNat

def matched (w : List Bool) : ℕ := w.foldl nextMatched 0

theorem matched_snoc (w : List Bool) (b : Bool) : matched (w ++ [b]) = nextMatched (matched w) b := by
  simp [matched]

theorem nextMatched_le (k : ℕ) (b : Bool) : nextMatched k b ≤ k + 1 := by
  unfold nextMatched
  split
  · exact le_rfl
  · exact (Bool.toNat_le b).trans (Nat.le_add_left 1 k)

theorem preambleSymbols_succ (n : ℕ) : preambleSymbols (n + 1) = preambleSymbols n ++ [n % 2 == 0] := by
  simp [preambleSymbols, List.range_succ]

theorem preambleSymbols_matched (w : List Bool) : preambleSymbols (matched w) <:+ w := by
  induction w using List.reverseRecOn with
  | nil => exact List.suffix_refl []
  | append_singleton w b ih =>
    rw [matched_snoc, nextMatched]
    split
    · next hb =>
      rw [preambleSymbols_succ, ← hb]
      exact List.suffix_append_self_iff.mpr ih
    · cases b with
      | true => exact List.suffix_append w [true]
      | false => exact List.nil_suffix

/-- Two alternating sequences at the end of the same symbols are as long as each other, up to pairs. -/
theorem preambleSymbols_parity {w : List Bool} {n k : ℕ} (hn : preambleSymbols (n + 1) <:+ w)
    (hk : preambleSymbols (k + 1) <:+ w) : n % 2 = k % 2 := by
  rw [preambleSymbols_succ] at hn hk
  obtain ⟨u, hu⟩ := hn
  obtain ⟨v, hv⟩ := hk
  rw [← List.append_assoc] at hu hv
  have hlast := (List.append_inj' (hu.trans hv.symm) rfl).2
  simp at hlast
  omega

theorem le_matched {w : List Bool} {n : ℕ} (h : preambleSymbols n <:+ w) : n ≤ matched w := by
  induction w using List.reverseRecOn generalizing n with
  | nil =>
    have hlen := h.length_le
    simp [preambleSymbols] at hlen
    omega
  | append_singleton w b ih =>
    cases n with
    | zero => exact Nat.zero_le _
    | succ n =>
      rw [preambleSymbols_succ] at h
      obtain ⟨u, hu⟩ := h
      rw [← List.append_assoc] at hu
      obtain ⟨hw, hb⟩ := List.append_inj' hu rfl
      have hsuffix : preambleSymbols n <:+ w := ⟨u, hw⟩
      have hle := ih hsuffix
      rw [matched_snoc, nextMatched]
      split
      · omega
      · next hne =>
        -- the symbol continues the shorter sequence but not the longer one: the shorter one is empty
        cases n with
        | zero =>
          have hone : b = true := (List.cons.inj hb).1.symm
          rw [hone]
          decide
        | succ n =>
          obtain ⟨k, hk⟩ : ∃ k, matched w = k + 1 := ⟨matched w - 1, by omega⟩
          have hgreatest := preambleSymbols_matched w
          rw [hk] at hgreatest hne
          have hparity := preambleSymbols_parity hsuffix hgreatest
          have hsame : (n + 1) % 2 = (k + 1) % 2 := by omega
          rw [← hsame] at hne
          exact absurd (List.cons.inj hb).1.symm hne

/-- **`matched` is the length of the longest alternating sequence at the end.** -/
theorem matched_isGreatest (w : List Bool) : IsGreatest {n | preambleSymbols n <:+ w} (matched w) :=
  ⟨preambleSymbols_matched w, fun _ h => le_matched h⟩

/-! ## The counters -/

/-- The registers of the search when `k` symbols are matched. -/
def searching (s : RxState) (k : ℕ) : RxState :=
  if k = 0 then { s with r8 := 1, r9 := 0, r10 := 0 } else counting s k

theorem expectedEdge_same {s : RxState} {r7 : ℕ} (h : s.r10 = r7) : expectedEdge s r7 = false := by
  unfold expectedEdge
  rw [h]
  split <;> exact decide_eq_false (lt_irrefl r7)

theorem preambleDetection_zero (s : RxState) (b : Bool) :
    preambleDetection (searching s 0) b.toNat = searching s (nextMatched 0 b) := by
  have hodd : (searching s 0).r8.testBit 0 = true := by simp [searching]
  have hedge : expectedEdge (searching s 0) b.toNat = false := by
    rw [expectedEdge_odd hodd]
    exact decide_eq_false (Nat.not_lt_zero _)
  rw [preambleDetection_reset hedge]
  cases b <;> rfl

/-- A symbol that is no edge starts the search over from itself. -/
theorem preambleDetection_mismatch {s : RxState} {k : ℕ} {b : Bool} (hb : b ≠ (k % 2 == 0)) :
    preambleDetection (counting s k) b.toNat = searching s b.toNat := by
  have hsame : (counting s k).r10 = b.toNat := by
    change k % 2 = b.toNat
    obtain hk | hk := Nat.mod_two_eq_zero_or_one k
    · rw [hk] at hb ⊢
      cases b with
      | true => exact absurd rfl hb
      | false => rfl
    · rw [hk] at hb ⊢
      cases b with
      | true => rfl
      | false => exact absurd rfl hb
  rw [preambleDetection_reset (expectedEdge_same hsame)]
  cases b <;> rfl

section
variable {s : RxState} {m : Memory}

theorem rxSymbol_searching (hc : s.control = .nextBit) (h4 : s.r4 = 0) {k : ℕ} {b : Bool}
    (hnext : nextMatched k b < 24) :
    rxSymbol (searching s k, m) b = some (searching s (nextMatched k b), m) := by
  cases k with
  | zero => exact rxSymbol_search (s := searching s 0) hc h4 (preambleDetection_zero s b)
  | succ k =>
    apply rxSymbol_search (s := counting s (k + 1)) hc h4
    by_cases hb : b = ((k + 1) % 2 == 0)
    · rw [nextMatched, if_pos hb] at hnext ⊢
      have hsymbol : b.toNat = (k + 1 + 1) % 2 := by
        rw [hb]
        obtain hk | hk := Nat.mod_two_eq_zero_or_one (k + 1)
        · rw [hk, show (k + 1 + 1) % 2 = 1 by omega]
          rfl
        · rw [hk, show (k + 1 + 1) % 2 = 0 by omega]
          rfl
      rw [hsymbol]
      exact preambleDetection_counting (by omega)
    · rw [nextMatched, if_neg hb]
      exact preambleDetection_mismatch hb

theorem rxSymbol_done (hc : s.control = .nextBit) (h4 : s.r4 = 0) :
    rxSymbol (searching s 23, m) false = some (preambleDone (counting s 24), m) := by
  have hlow : preambleDetection (counting s 23) false.toNat = preambleDone (counting s 24) := preambleDetection_last
  exact rxSymbol_search (s := counting s 23) hc h4 hlow

end

/-! ## Streams of symbols -/

/-- The first `t` symbols. -/
def received (b : ℕ → Bool) (t : ℕ) : List Bool := (List.range t).map b

theorem received_succ (b : ℕ → Bool) (t : ℕ) : received b (t + 1) = received b t ++ [b t] := by
  simp [received, List.range_succ]

/-- How many symbols are matched after `t` symbols, if `p` came before them. -/
def matchedAt (p : Bool) (b : ℕ → Bool) (t : ℕ) : ℕ := matched (p :: received b t)

theorem matchedAt_zero (p : Bool) (b : ℕ → Bool) : matchedAt p b 0 = p.toNat := by
  cases p <;> rfl

theorem matchedAt_succ (p : Bool) (b : ℕ → Bool) (t : ℕ) :
    matchedAt p b (t + 1) = nextMatched (matchedAt p b t) (b t) := by
  rw [matchedAt, received_succ, ← List.cons_append, matched_snoc]
  rfl

theorem matchedAt_le (p : Bool) (b : ℕ → Bool) {t : ℕ} (hbefore : ∀ j < t, matchedAt p b j < 24) :
    matchedAt p b t ≤ 24 := by
  cases t with
  | zero =>
    rw [matchedAt_zero]
    exact (Bool.toNat_le p).trans (by decide)
  | succ t =>
    rw [matchedAt_succ]
    exact (nextMatched_le _ _).trans (hbefore t (Nat.lt_succ_self t))

/-- Where the 24th symbol is never matched first, fewer are matched everywhere. -/
theorem matchedAt_lt {p : Bool} {b : ℕ → Bool} {t : ℕ}
    (hnot : ∀ j < t, (∀ i < j, matchedAt p b i < 24) → matchedAt p b j ≠ 24) :
    ∀ j < t, matchedAt p b j < 24 := by
  intro j
  induction j using Nat.strongRecOn with
  | _ j ih =>
    intro hj
    have hprev : ∀ i < j, matchedAt p b i < 24 := fun i hi => ih i hi (hi.trans hj)
    exact lt_of_le_of_ne (matchedAt_le p b hprev) (hnot j hj hprev)

/-- Twelve repetitions of HIGH LOW. -/
def preambleWindow : List Bool := (List.replicate 12 [true, false]).flatten

theorem preambleWindow_eq : preambleWindow = preambleSymbols 24 := by decide

/-- While the preamble has not come, fewer than 24 symbols are matched; it comes with the 24th. -/
theorem first_preamble_iff (p : Bool) (b : ℕ → Bool) (t : ℕ) :
    (preambleWindow <:+ p :: received b t ∧ ∀ j < t, ¬ preambleWindow <:+ p :: received b j) ↔
      matchedAt p b t = 24 ∧ ∀ j < t, matchedAt p b j < 24 := by
  have hends : ∀ j, matchedAt p b j = 24 → preambleWindow <:+ p :: received b j := by
    intro j hj
    have h : preambleSymbols (matchedAt p b j) <:+ p :: received b j := (matched_isGreatest _).1
    rwa [hj, ← preambleWindow_eq] at h
  have hmatched : ∀ j, preambleWindow <:+ p :: received b j → 24 ≤ matchedAt p b j := by
    intro j hj
    rw [preambleWindow_eq] at hj
    exact (matched_isGreatest _).2 hj
  constructor
  · rintro ⟨hnow, hbefore⟩
    have hlow := matchedAt_lt fun j hj _ h24 => hbefore j hj (hends j h24)
    exact ⟨le_antisymm (matchedAt_le p b hlow) (hmatched t hnow), hlow⟩
  · rintro ⟨hnow, hbefore⟩
    exact ⟨hends t hnow, fun j hj hpre => absurd (hmatched j hpre) (not_le.mpr (hbefore j hj))⟩

/-! ## The search -/

/-- The search as it starts, with `cnt_symbol` 1, `cnt_preamble` 0 and the previous symbol `p`. -/
def searchFrom (s : RxState) (p : Bool) : RxState := { backToSearch s p.toNat with control := .nextBit }

theorem searchFrom_eq (s : RxState) (p : Bool) :
    searchFrom s p = searching { s with r4 := 0, control := .nextBit } p.toNat := by
  cases p <;> rfl

/-- The search is still on after each of the first `t - 1` symbols, and symbol `t` leads to `PREAMBLE_DONE`. -/
structure FiresAt (s : RxState) (m : Memory) (b : ℕ → Bool) (t : ℕ) : Prop where
  before : ∀ j < t, ∃ u, Run rxSymbol (s, m) (received b j) (u, m) ∧ u.r4 = 0
  done : ∃ u, Run rxSymbol (s, m) (received b t) (preambleDone u, m)

section
variable (s : RxState) (m : Memory) (p : Bool) (b : ℕ → Bool)

theorem searching_r4 (s : RxState) (k : ℕ) : (searching s k).r4 = s.r4 := by
  unfold searching
  split <;> rfl

/-- As long as fewer than 24 symbols are matched, the counters hold their number. -/
theorem run_searching {t : ℕ} (hall : ∀ j ≤ t, matchedAt p b j < 24) :
    Run rxSymbol (searchFrom s p, m) (received b t)
      (searching { s with r4 := 0, control := .nextBit } (matchedAt p b t), m) := by
  induction t with
  | zero =>
    rw [searchFrom_eq, matchedAt_zero]
    exact .refl
  | succ t ih =>
    rw [received_succ]
    refine (ih fun j hj => hall j (by omega)).snoc ?_
    rw [matchedAt_succ]
    apply rxSymbol_searching rfl rfl
    rw [← matchedAt_succ]
    exact hall (t + 1) le_rfl

/-- With the 24th matched symbol the search is done. -/
theorem run_done {t : ℕ} (hnow : matchedAt p b t = 24) (hbefore : ∀ j < t, matchedAt p b j < 24) :
    Run rxSymbol (searchFrom s p, m) (received b t)
      (preambleDone (counting { s with r4 := 0, control := .nextBit } 24), m) := by
  cases t with
  | zero =>
    rw [matchedAt_zero] at hnow
    exact absurd hnow (by cases p <;> decide)
  | succ t =>
    have hlast := hbefore t (Nat.lt_succ_self t)
    have hrun := run_searching s m p b fun j hj => hbefore j (Nat.lt_succ_of_le hj)
    rw [matchedAt_succ, nextMatched] at hnow
    split at hnow
    swap
    · exact absurd hnow (by have := Bool.toNat_le (b t); omega)
    next hb =>
      have h23 : matchedAt p b t = 23 := by omega
      rw [h23] at hb hrun
      rw [received_succ, hb]
      exact hrun.snoc (rxSymbol_done rfl rfl)

theorem firesAt_iff (t : ℕ) :
    FiresAt (searchFrom s p) m b t ↔ matchedAt p b t = 24 ∧ ∀ j < t, matchedAt p b j < 24 := by
  constructor
  · intro h
    have hlow : ∀ j < t, matchedAt p b j < 24 := by
      apply matchedAt_lt
      intro j hj hbefore h24
      obtain ⟨u, hu, h4⟩ := h.before j hj
      have hsame := hu.unique (run_done s m p b h24 hbefore)
      cases hsame
      cases h4
    refine ⟨?_, hlow⟩
    by_contra hne
    have hlt : matchedAt p b t < 24 := lt_of_le_of_ne (matchedAt_le p b hlow) hne
    obtain ⟨u, hu⟩ := h.done
    have hsame := hu.unique (run_searching s m p b fun j hj => ?_)
    · have h4 := congrArg (fun o => o.1.r4) hsame
      rw [searching_r4] at h4
      cases h4
    · obtain hj | rfl := hj.lt_or_eq
      · exact hlow j hj
      · exact hlt
  · rintro ⟨hnow, hbefore⟩
    refine ⟨fun j hj => ⟨_, run_searching s m p b fun i hi => hbefore i (hi.trans_lt hj), searching_r4 _ _⟩, _,
      run_done s m p b hnow hbefore⟩

end

/-- **The search ends at the first place where the last 24 symbols are the preamble**, and goes on for ever
if there is none. -/
theorem preamble_found_iff (s : RxState) (m : Memory) (p : Bool) (b : ℕ → Bool) :
    (∀ t, FiresAt (searchFrom s p) m b t ↔
      preambleWindow <:+ p :: received b t ∧ ∀ j < t, ¬ preambleWindow <:+ p :: received b j) ∧
    ((∀ t, ¬ preambleWindow <:+ p :: received b t) →
      ∀ t, ∃ u, Run rxSymbol (searchFrom s p, m) (received b t) (u, m) ∧ u.r4 = 0) := by
  constructor
  · intro t
    rw [firesAt_iff, first_preamble_iff]
  · intro hnone t
    have hlow : ∀ j < t + 1, matchedAt p b j < 24 :=
      matchedAt_lt fun j _ hbefore h24 => hnone j ((first_preamble_iff p b j).mpr ⟨h24, hbefore⟩).1
    exact ⟨_, run_searching s m p b fun j hj => hlow j (Nat.lt_succ_of_le hj), searching_r4 _ _⟩

end CiotVlc.Pru
