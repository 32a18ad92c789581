import CiotVlc.Foundations.Runs
import CiotVlc.Pru.TxPhases

/-! # Reachable states of the transmitter firmware

The firmware runs on whatever memory it finds and whatever its configuration register shows. In every
reachable state the filled part of the word is below 16 bits, and a Manchester pair starts at an even
position of it.
-/
namespace CiotVlc.Pru
open Foundations.Bytes Foundations.Registers Foundations.LineCode Foundations.Runs
set_option autoImplicit false

def txAnyStep (t : TxState) (input : Memory × Bool) : Option TxState := some (txStep t input.1 input.2).state

/-- The filled bits of the current word: none between two calls of `GETVALUE`. -/
def TxState.filled (t : TxState) : ℕ :=
  match t.control with
  | .getValue _ => t.r1
  | _ => 0

/-- The state is one of the five, and the bit counter fits the filled part of the word. -/
structure Aligned (t : TxState) (filled : ℕ) : Prop where
  r2_le : t.r2 ≤ 4
  single : t.r2 = 0 ∨ t.r2 = 4 → (filled + t.r7) % 2 = 1
  pair : t.r2 = 1 ∨ t.r2 = 2 ∨ t.r2 = 3 → filled % 2 = 0

structure TxSound (t : TxState) : Prop where
  short : TxShort t
  r7_le : t.r7 ≤ 15
  word : ∀ gpo, t.control = .getValue gpo → t.r1 < 16 ∧ t.r3 < 2 ^ t.r1
  aligned : Aligned t t.filled

theorem txSound_start : TxSound txStart where
  short := ⟨by decide, by decide⟩
  r7_le := by decide
  word := fun gpo h => by cases h
  aligned := ⟨by decide, fun _ => by decide, fun h => by rcases h with h | h | h <;> cases h⟩

/-- What a pass of `GETVALUE` leaves: `n` more bits in the word, and everything in order. -/
structure Filled (t t' : TxState) (n : ℕ) : Prop where
  control : t'.control = t.control
  r1 : t'.r1 = t.r1 + n
  r3 : t'.r3 < 2 ^ t'.r1
  short : TxShort t'
  r7_le : t'.r7 ≤ 15
  aligned : Aligned t' t'.r1

section
variable {t : TxState} {m : Memory}

theorem sub_one {n : ℕ} (h : n ≠ 0) (hle : n ≤ 15) : sub n 1 = n - 1 := sub_of_le (by omega) (by omega)

theorem packetDone_readIdx (t : TxState) : (packetDone t).1.r9 < 256 ^ 2 := by
  have hlimit : txBufferLimit = 6004 := rfl
  change (if txBufferLimit > t.r9 then t.r9 else 4) < 256 ^ 2
  split <;> omega

theorem appendBits_filled {b n : ℕ} (hn : t.r1 + n ≤ 16) (hb : b < 2 ^ n) (hr3 : t.r3 < 2 ^ t.r1) :
    (appendBits t b n).r1 = t.r1 + n ∧ (appendBits t b n).r3 < 2 ^ (t.r1 + n) := by
  have happ := appendBits_appends hn hb hr3
  obtain ⟨_, hlt, -, h3⟩ := happ.r3
  have h1 := happ.r1
  rw [lsbBits_length] at h1 hlt
  exact ⟨h1, by rw [h3]; exact word_lt hr3 hlt⟩

theorem encodeBit_filled (r11 : ℕ) (hn : t.r1 + 2 ≤ 16) (hr3 : t.r3 < 2 ^ t.r1) :
    (encodeBit t r11).r1 = t.r1 + 2 ∧ (encodeBit t r11).r3 < 2 ^ (t.r1 + 2) := by
  unfold encodeBit
  split
  · exact appendBits_filled hn (by decide) hr3
  · exact appendBits_filled hn (by decide) hr3

theorem encodeBit_sound {u : TxState} (r11 : ℕ) (hc : u.control = t.control) (h1 : u.r1 = t.r1) (h3 : u.r3 = t.r3)
    (hn : t.r1 + 2 ≤ 16) (hr3 : t.r3 < 2 ^ t.r1) (heven : t.r1 % 2 = 0) (short : TxShort u) (h7 : u.r7 ≤ 15)
    (h2 : u.r2 ≤ 4) (hsingle : u.r2 = 0 ∨ u.r2 = 4 → u.r7 % 2 = 1) : Filled t (encodeBit u r11) 2 := by
  obtain ⟨h1', h3'⟩ := encodeBit_filled (t := u) r11 (by rw [h1]; exact hn) (by rw [h1, h3]; exact hr3)
  refine ⟨hc, by rw [h1', h1], by rw [h1']; exact h3', ⟨short.r10, short.r16⟩, h7, h2, fun h => ?_, fun _ => ?_⟩
  · have hodd : u.r7 % 2 = 1 := hsingle h
    change ((encodeBit u r11).r1 + u.r7) % 2 = 1
    omega
  · omega

theorem packetEnd_filled (h : TxSound t) (h2 : t.r2 = 4) (hr1 : t.r1 < 16) (hr3 : t.r3 < 2 ^ t.r1)
    (hal : Aligned t t.r1) : Filled t (packetEnd t) 1 := by
  obtain ⟨h1', h3'⟩ := appendBits_filled (b := encodedLow) (n := 1) hr1 (by decide) hr3
  have hodd := hal.single (Or.inr h2)
  by_cases h7 : t.r7 = 0
  · have heq : packetEnd t = { appendBits t encodedLow 1 with r2 := 0, r7 := 7, r18 := 0 } := if_pos h7
    rw [heq]
    refine ⟨rfl, h1', by rw [h1']; exact h3', ⟨h.short.r10, h.short.r16⟩, show 7 ≤ 15 by omega,
      Nat.zero_le 4, fun _ => ?_, fun h => ?_⟩
    · dsimp only
      omega
    · rcases h with h | h | h <;> cases h
  · have heq : packetEnd t =
        { appendBits t encodedLow 1 with r18 := lsl encodedLow t.r1, r7 := sub t.r7 1 } := if_neg h7
    have hsub := sub_one h7 h.r7_le
    have hle := h.r7_le
    rw [heq]
    refine ⟨rfl, h1', by rw [h1']; exact h3', ⟨h.short.r10, h.short.r16⟩, ?_, hal.r2_le,
      fun _ => ?_, fun h => ?_⟩
    · dsimp only
      omega
    · dsimp only
      omega
    · have h2' : (appendBits t encodedLow 1).r2 = t.r2 := rfl
      dsimp only at h
      omega

theorem preamble_filled (h : TxSound t) (h2 : t.r2 = 0) (hr1 : t.r1 < 16) (hr3 : t.r3 < 2 ^ t.r1)
    (hal : Aligned t t.r1) : Filled t (preamble t) 1 := by
  let r11 := lsr preambleValue t.r7 &&& 1
  have hlt : r11 < 2 ^ 1 := lt_of_le_of_lt Nat.and_le_right (by decide)
  obtain ⟨h1', h3'⟩ := appendBits_filled (n := 1) hr1 hlt hr3
  have hodd := hal.single (Or.inl h2)
  have hle := h.r7_le
  by_cases h7 : t.r7 = 0
  · by_cases hlast : add t.r18 1 = txPreambleLen
    · have heq : preamble t = { appendBits t r11 1 with r18 := add t.r18 1, r2 := 1, r7 := 7 } :=
        (if_pos h7).trans (if_pos hlast)
      rw [heq]
      refine ⟨rfl, h1', by rw [h1']; exact h3', ⟨h.short.r10, h.short.r16⟩, show 7 ≤ 15 by omega,
        show 1 ≤ 4 by omega, fun h => ?_, fun _ => ?_⟩
      · rcases h with h | h <;> cases h
      · dsimp only
        omega
    · have heq : preamble t = { appendBits t r11 1 with r18 := add t.r18 1, r7 := 7 } :=
        (if_pos h7).trans (if_neg hlast)
      rw [heq]
      refine ⟨rfl, h1', by rw [h1']; exact h3', ⟨h.short.r10, h.short.r16⟩, show 7 ≤ 15 by omega,
        hal.r2_le, fun _ => ?_, fun h => ?_⟩
      · dsimp only
        omega
      · have h2' : (appendBits t r11 1).r2 = t.r2 := rfl
        dsimp only at h
        omega
  · have heq : preamble t = { appendBits t r11 1 with r7 := sub t.r7 1 } := if_neg h7
    have hsub := sub_one h7 h.r7_le
    rw [heq]
    refine ⟨rfl, h1', by rw [h1']; exact h3', ⟨h.short.r10, h.short.r16⟩, ?_, hal.r2_le,
      fun _ => ?_, fun h => ?_⟩
    · dsimp only
      omega
    · dsimp only
      omega
    · have h2' : (appendBits t r11 1).r2 = t.r2 := rfl
      dsimp only at h
      omega

/-- The state that the bit counter leaves alone: a pair with the counter one lower. -/
theorem countdown_filled (h : TxSound t) (r11 : ℕ) (h2 : t.r2 = 1 ∨ t.r2 = 2 ∨ t.r2 = 3) (h7 : t.r7 ≠ 0)
    (hr1 : t.r1 < 16) (hr3 : t.r3 < 2 ^ t.r1) (heven : t.r1 % 2 = 0) :
    Filled t (encodeBit { t with r7 := sub t.r7 1 } r11) 2 := by
  have hsub := sub_one h7 h.r7_le
  have hle := h.r7_le
  refine encodeBit_sound r11 rfl rfl rfl (by omega) hr3 heven ⟨h.short.r10, h.short.r16⟩ ?_ ?_ ?_
  · dsimp only
    omega
  · dsimp only
    omega
  · intro h'
    dsimp only at h'
    omega

theorem nextByte_sound (h : TxSound t) (h2 : t.r2 = 3) :
    let u := (nextByte t m).1
    (u.control = t.control ∧ u.r1 = t.r1 ∧ u.r3 = t.r3) ∧ TxShort u ∧ u.r7 ≤ 15 ∧ u.r2 ≤ 4 ∧
      (u.r2 = 0 ∨ u.r2 = 4 → u.r7 % 2 = 1) := by
  intro u
  by_cases hdone : add t.r15 1 = t.r12
  · have heq : nextByte t m = packetDone { t with r7 := 7, r15 := add t.r15 1 } := if_pos hdone
    have hu : u = (packetDone { t with r7 := 7, r15 := add t.r15 1 }).1 := congrArg Prod.fst heq
    rw [hu]
    exact ⟨⟨rfl, rfl, rfl⟩, ⟨h.short.r10, h.short.r16⟩, show 3 ≤ 15 by omega, le_rfl,
      fun _ => show 3 % 2 = 1 by omega⟩
  · have heq : nextByte t m = ({ t with
        r7 := 7, r15 := add t.r15 1, r16 := loadReg m t.r16 t.r9 1, r9 := add t.r9 1 }, none) := if_neg hdone
    have hu : u = { t with
        r7 := 7, r15 := add t.r15 1, r16 := loadReg m t.r16 t.r9 1, r9 := add t.r9 1 } := congrArg Prod.fst heq
    rw [hu]
    exact ⟨⟨rfl, rfl, rfl⟩, ⟨h.short.r10, loadReg_lt h.short.r16 _ _⟩, show 7 ≤ 15 by omega,
      show t.r2 ≤ 4 by omega, fun _ => show 7 % 2 = 1 by omega⟩

theorem pair_filled (h : TxSound t) (hr1 : t.r1 < 16) (hr3 : t.r3 < 2 ^ t.r1) (heven : t.r1 % 2 = 0)
    (h2 : t.r2 = 1 ∨ t.r2 = 2 ∨ t.r2 = 3) : Filled t (checkState t m).1 2 := by
  have hroom : t.r1 + 2 ≤ 16 := by omega
  rcases h2 with h2 | h2 | h2
  · have heq : checkState t m = (txSfd t m, none) := by simp only [checkState, h2]
    rw [heq]
    by_cases h7 : t.r7 = 0
    · have hsfd : txSfd t m = encodeBit (toLength t m) (lsr txSfdValue t.r7) := if_pos h7
      rw [hsfd]
      exact encodeBit_sound _ rfl rfl rfl hroom hr3 heven ⟨loadReg_lt h.short.r10 _ _, h.short.r16⟩ le_rfl
        (show 2 ≤ 4 by omega) fun h => by rcases h with h | h <;> cases h
    · have hsfd : txSfd t m = encodeBit { t with r7 := sub t.r7 1 } (lsr txSfdValue t.r7) := if_neg h7
      rw [hsfd]
      exact countdown_filled h _ (Or.inl h2) h7 hr1 hr3 heven
  · have heq : checkState t m = (dataLength t m, none) := by simp only [checkState, h2]
    rw [heq]
    by_cases h7 : t.r7 = 0
    · have hlength : dataLength t m = encodeBit (toBody t m) (lsr t.r10 t.r7) := if_pos h7
      rw [hlength]
      exact encodeBit_sound _ rfl rfl rfl hroom hr3 heven ⟨h.short.r10, loadReg_lt h.short.r16 _ _⟩
        (show 7 ≤ 15 by omega) (show 3 ≤ 4 by omega) fun h => by rcases h with h | h <;> cases h
    · have hlength : dataLength t m = encodeBit { t with r7 := sub t.r7 1 } (lsr t.r10 t.r7) := if_neg h7
      rw [hlength]
      exact countdown_filled h _ (Or.inr (Or.inl h2)) h7 hr1 hr3 heven
  · have heq : checkState t m = dataOok t m := by simp only [checkState, h2]
    rw [heq]
    by_cases h7 : t.r7 = 0
    · have hbyte : dataOok t m = (encodeBit (nextByte t m).1 (lsr t.r16 t.r7), (nextByte t m).2) := if_pos h7
      obtain ⟨⟨hc, h1, h3⟩, hshort, h7', h2', hsingle⟩ := nextByte_sound (m := m) h h2
      rw [hbyte]
      exact encodeBit_sound _ hc h1 h3 hroom hr3 heven hshort h7' h2' hsingle
    · have hbyte : dataOok t m = (encodeBit { t with r7 := sub t.r7 1 } (lsr t.r16 t.r7), none) := if_neg h7
      rw [hbyte]
      exact countdown_filled h _ (Or.inr (Or.inr h2)) h7 hr1 hr3 heven

/-- **A pass of `GETVALUE`** fills the word by one or two bits, and never beyond its end. -/
theorem checkState_filled (h : TxSound t) (hr1 : t.r1 < 16) (hr3 : t.r3 < 2 ^ t.r1) (hal : Aligned t t.r1) :
    ∃ n, t.r1 + n ≤ 16 ∧ Filled t (checkState t m).1 n := by
  by_cases h0 : t.r2 = 0
  · have heq : checkState t m = (preamble t, none) := by simp only [checkState, h0]
    rw [heq]
    exact ⟨1, by omega, preamble_filled h h0 hr1 hr3 hal⟩
  by_cases h4 : t.r2 = 4
  · have heq : checkState t m = (packetEnd t, none) := by simp only [checkState, h4]
    rw [heq]
    exact ⟨1, by omega, packetEnd_filled h h4 hr1 hr3 hal⟩
  · have hle := hal.r2_le
    have hpair : t.r2 = 1 ∨ t.r2 = 2 ∨ t.r2 = 3 := by omega
    have heven := hal.pair hpair
    exact ⟨2, by omega, pair_filled h hr1 hr3 heven hpair⟩

/-! ## Every step keeps the firmware in order -/

theorem txSound_atRest (hc : ∀ gpo, t.control ≠ .getValue gpo) (short : TxShort t) (h7 : t.r7 ≤ 15)
    (hal : Aligned t 0) : TxSound t := by
  have hfilled : t.filled = 0 := by
    unfold TxState.filled
    split
    · next gpo h => exact absurd h (hc gpo)
    · rfl
  exact ⟨short, h7, fun gpo h => absurd h (hc gpo), by rwa [hfilled]⟩

theorem txSound_inCall {gpo : Gpo} (hc : t.control = .getValue gpo) (short : TxShort t) (h7 : t.r7 ≤ 15)
    (hr1 : t.r1 < 16) (hr3 : t.r3 < 2 ^ t.r1) (hal : Aligned t t.r1) : TxSound t := by
  have hfilled : t.filled = t.r1 := by
    unfold TxState.filled
    rw [hc]
  exact ⟨short, h7, fun _ _ => ⟨hr1, hr3⟩, by rwa [hfilled]⟩

theorem TxSound.aligned_zero (h : TxSound t) (hc : ∀ gpo, t.control ≠ .getValue gpo) : Aligned t 0 := by
  have hfilled : t.filled = 0 := by
    unfold TxState.filled
    split
    · next gpo h' => exact absurd h' (hc gpo)
    · rfl
  have hal := h.aligned
  rwa [hfilled] at hal

theorem checkIndex_sound (h : TxSound t) (hc : t.control = .checkIndex) : TxSound (checkIndex t m) := by
  have hal := h.aligned_zero fun gpo => by simp [hc]
  unfold checkIndex
  dsimp only
  split
  · exact txSound_atRest (fun gpo => by simp) ⟨h.short.r10, h.short.r16⟩ h.r7_le ⟨hal.r2_le, hal.single, hal.pair⟩
  · split
    · refine txSound_atRest (fun gpo => by simp [resetToPreamble]) ⟨h.short.r10, h.short.r16⟩
        (show 7 ≤ 15 by omega) ⟨Nat.zero_le 4, fun _ => show (0 + 7) % 2 = 1 by omega, fun h => ?_⟩
      rcases h with h | h | h <;> cases h
    · exact txSound_atRest (fun gpo => by simp [hc]) ⟨h.short.r10, h.short.r16⟩ h.r7_le
        ⟨hal.r2_le, hal.single, hal.pair⟩

theorem shiftLoop_sound (h : TxSound t) (hc : t.control = .shiftLoop) (loadGpoSh : Bool) :
    TxSound (shiftLoop t loadGpoSh) := by
  have hal := h.aligned_zero fun gpo => by simp [hc]
  unfold shiftLoop
  split
  · exact txSound_inCall rfl ⟨h.short.r10, h.short.r16⟩ h.r7_le (show 0 < 16 by omega)
      (show 0 < 2 ^ 0 by omega) ⟨hal.r2_le, hal.single, hal.pair⟩
  · exact txSound_inCall rfl ⟨h.short.r10, h.short.r16⟩ h.r7_le (show 0 < 16 by omega)
      (show 0 < 2 ^ 0 by omega) ⟨hal.r2_le, hal.single, hal.pair⟩
  · exact h

theorem getValuePass_sound (h : TxSound t) {gpo : Gpo} (hc : t.control = .getValue gpo) :
    TxSound (getValuePass t m gpo).state := by
  obtain ⟨hr1, hr3⟩ := h.word gpo hc
  have hal : Aligned t t.r1 := by
    have hal := h.aligned
    unfold TxState.filled at hal
    rwa [hc] at hal
  obtain ⟨n, hroom, hfilled⟩ := checkState_filled (m := m) h hr1 hr3 hal
  generalize hpass : checkState t m = pass at hfilled
  obtain ⟨u, st⟩ := pass
  have hcu : u.control = .getValue gpo := hfilled.control.trans hc
  have hr1u : u.r1 = t.r1 + n := hfilled.r1
  by_cases hfull : u.r1 = 16
  · have heq : (getValuePass t m gpo).state = { u with control := returnTo u gpo } := by
      simp only [getValuePass, hpass, hcu, reduceCtorEq, if_false, if_neg (not_not.mpr hfull)]
    have hrest : ∀ g, returnTo u gpo ≠ .getValue g := by
      intro g
      unfold returnTo
      split
      · split <;> simp
      · simp
    have halu := hfilled.aligned
    rw [heq]
    refine txSound_atRest hrest ⟨hfilled.short.r10, hfilled.short.r16⟩ hfilled.r7_le
      ⟨halu.r2_le, fun h => ?_, fun _ => rfl⟩
    have hodd := halu.single h
    dsimp only at hodd ⊢
    omega
  · have heq : (getValuePass t m gpo).state = u := by
      simp only [getValuePass, hpass, hcu, reduceCtorEq, if_false, if_pos hfull]
    rw [heq]
    exact txSound_inCall hcu hfilled.short hfilled.r7_le (by omega) hfilled.r3 hfilled.aligned

theorem txStep_sound (h : TxSound t) (loadGpoSh : Bool) : TxSound (txStep t m loadGpoSh).state := by
  cases hc : t.control with
  | checkIndex =>
    simp only [txStep, hc]
    exact checkIndex_sound h hc
  | shiftLoop =>
    simp only [txStep, hc]
    exact shiftLoop_sound h hc loadGpoSh
  | getValue gpo =>
    simp only [txStep, hc]
    exact getValuePass_sound h hc
  | halted =>
    simp only [txStep, hc]
    exact h

end

theorem txSound_of_reachable {t : TxState} (h : Reachable txAnyStep txStart t) : TxSound t :=
  h.invariant txSound_start fun u input v hu hs => by
    cases hs
    exact txStep_sound hu input.2

end CiotVlc.Pru
