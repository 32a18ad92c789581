import CiotVlc.Foundations.LineCode
import CiotVlc.Pru.TxPru

/-! # What GETVALUE sends

A packet is sent in phases: four separator symbols, three preamble bytes, the SFD, the length and the
body. `TxPhase` is this sequence without registers; `TxAt` says which registers stand for a phase, and
`checkState_sends` that a pass appends the phase's symbols and goes to the next phase.
-/
namespace CiotVlc.Pru
open Foundations.Bytes Foundations.Registers Foundations.BitPack Foundations.LineCode
set_option autoImplicit false

/-! ## Phases -/

/-- A phase, with the bits that it has still to send behind the next one. -/
inductive TxPhase
  | separator (bit : ℕ)
  | preamble (count bit : ℕ)
  | sfd (bit : ℕ)
  | length (bit : ℕ)
  | body (byte bit : ℕ)
  deriving DecidableEq, Repr

def TxPhase.next : TxPhase → TxPhase
  | .separator 0 => .preamble 0 7
  | .separator (j + 1) => .separator j
  | .preamble c 0 => if c + 1 = txPreambleLen then .sfd 7 else .preamble (c + 1) 7
  | .preamble c (j + 1) => .preamble c j
  | .sfd 0 => .length 15
  | .sfd (j + 1) => .sfd j
  | .length 0 => .body 0 7
  | .length (j + 1) => .length j
  | .body k 0 => .body (k + 1) 7
  | .body k (j + 1) => .body k j

/-- The symbols of one pass, for the packet at `a`. -/
def TxPhase.symbols (m : Memory) (a : ℕ) : TxPhase → List Bool
  | .separator _ => [true]
  | .preamble _ j => [preambleValue.testBit j]
  | .sfd j => manchester (txSfdValue.testBit j)
  | .length j => manchester ((load m a 2).testBit j)
  | .body k j => manchester ((m (a + 2 + k)).toNat.testBit j)

/-- Single symbols come in even numbers, so a pair always starts at an even position of the word. -/
def TxPhase.parity : TxPhase → ℕ
  | .separator j => (j + 1) % 2
  | .preamble _ j => (j + 1) % 2
  | _ => 0

def bodyBytes (m : Memory) (a : ℕ) : ℕ := load m a 2 + txOtherPacketContentByte

def TxRegs (m : Memory) (a : ℕ) (t : TxState) : TxPhase → Prop
  | .separator j => t.r2 = 4 ∧ t.r7 = j ∧ j ≤ 3 ∧ t.r9 = a
  | .preamble c j => t.r2 = 0 ∧ t.r7 = j ∧ j ≤ 7 ∧ t.r18 = c ∧ c < txPreambleLen ∧ t.r9 = a
  | .sfd j => t.r2 = 1 ∧ t.r7 = j ∧ j ≤ 7 ∧ t.r9 = a
  | .length j => t.r2 = 2 ∧ t.r7 = j ∧ j ≤ 15 ∧ t.r10 = load m a 2 ∧ t.r9 = a + 2
  | .body k j => t.r2 = 3 ∧ t.r7 = j ∧ j ≤ 7 ∧ t.r12 = bodyBytes m a ∧ t.r15 = k ∧ k < bodyBytes m a ∧
      t.r16 = (m (a + 2 + k)).toNat ∧ t.r9 = a + 3 + k

structure TxShort (t : TxState) : Prop where
  r10 : t.r10 < 256 ^ 2
  r16 : t.r16 < 256 ^ 1

structure TxAt (m : Memory) (a : ℕ) (ph : TxPhase) (t : TxState) : Prop where
  short : TxShort t
  regs : TxRegs m a t ph
  aligned : t.r1 % 2 = ph.parity

/-! ## Appending to the word -/

structure Appends (t t' : TxState) (xs : List Bool) : Prop where
  control : t'.control = t.control
  r1 : t'.r1 = t.r1 + xs.length
  r3 : ∃ bits, bits < 2 ^ xs.length ∧ lsbBits xs.length bits = xs ∧ t'.r3 = t.r3 + bits * 2 ^ t.r1

section
variable {t t' : TxState} {xs : List Bool}

theorem appendBits_appends {b n : ℕ} (hn : t.r1 + n ≤ 16) (hb : b < 2 ^ n) (hr3 : t.r3 < 2 ^ t.r1) :
    Appends t (appendBits t b n) (lsbBits n b) := by
  have hword := word_lt hr3 hb
  have hpow : 2 ^ (t.r1 + n) ≤ 2 ^ 16 := Nat.pow_le_pow_right (by omega) hn
  refine ⟨rfl, ?_, b, ?_, ?_, ?_⟩
  · rw [lsbBits_length]
    exact add_of_lt (by omega)
  · rwa [lsbBits_length]
  · rw [lsbBits_length]
  · change add t.r3 (lsl b t.r1) = _
    rw [lsl_eq (by omega) (by omega), add_of_lt (by omega)]

theorem Appends.congr (h : Appends t t' xs) {u u' : TxState} (hc : u.control = t.control)
    (h1 : u.r1 = t.r1) (h3 : u.r3 = t.r3) (hc' : u'.control = t'.control) (h1' : u'.r1 = t'.r1)
    (h3' : u'.r3 = t'.r3) : Appends u u' xs := by
  refine ⟨?_, ?_, ?_⟩
  · rw [hc', hc]
    exact h.control
  · rw [h1', h1]
    exact h.r1
  · rw [h3', h3, h1]
    exact h.r3

theorem Appends.word (h : Appends t t' xs) (hr3 : t.r3 < 2 ^ t.r1) :
    lsbBits t'.r1 t'.r3 = lsbBits t.r1 t.r3 ++ xs ∧ t'.r3 < 2 ^ t'.r1 := by
  obtain ⟨bits, hbits, hsymbols, h3⟩ := h.r3
  rw [h.r1, h3, lsbBits_append bits hr3, hsymbols]
  exact ⟨rfl, word_lt hr3 hbits⟩

theorem encodeBit_appends (r11 : ℕ) (hn : t.r1 + 2 ≤ 16) (hr3 : t.r3 < 2 ^ t.r1) :
    Appends t (encodeBit t r11) (manchester (r11.testBit 0)) := by
  unfold encodeBit
  cases r11.testBit 0 with
  | false => exact appendBits_appends (b := encodedLow) (n := 2) hn (by decide) hr3
  | true => exact appendBits_appends (b := encodedHigh) (n := 2) hn (by decide) hr3

/-! ## One pass of each phase -/

/-- A pass that sends the symbols of the phase and goes to the next one. -/
structure Sends (m : Memory) (a : ℕ) (ph : TxPhase) (t : TxState) (result : TxState × Option Store) : Prop where
  store : result.2 = none
  appends : Appends t result.1 (ph.symbols m a)
  short : TxShort result.1
  regs : TxRegs m a result.1 ph.next

theorem parity_next (m : Memory) (a : ℕ) (ph : TxPhase) :
    (ph.parity + (ph.symbols m a).length) % 2 = ph.next.parity := by
  cases ph with
  | separator j =>
    cases j with
    | zero => simp [TxPhase.parity, TxPhase.symbols, TxPhase.next]
    | succ j =>
      simp only [TxPhase.parity, TxPhase.symbols, TxPhase.next, List.length_singleton]
      omega
  | preamble c j =>
    cases j with
    | zero =>
      simp only [TxPhase.next]
      split <;> simp [TxPhase.parity, TxPhase.symbols]
    | succ j =>
      simp only [TxPhase.parity, TxPhase.symbols, TxPhase.next, List.length_singleton]
      omega
  | sfd j => cases j <;> simp [TxPhase.parity, TxPhase.symbols, TxPhase.next, manchester]
  | length j => cases j <;> simp [TxPhase.parity, TxPhase.symbols, TxPhase.next, manchester]
  | body k j => cases j <;> simp [TxPhase.parity, TxPhase.symbols, TxPhase.next, manchester]

variable {m : Memory} {a : ℕ}

theorem sub_one_of_succ {r7 j : ℕ} (h : r7 = j + 1) (hj : j < 2 ^ 16) : sub r7 1 = j := by
  rw [h, sub_of_le (by omega) (by omega), Nat.add_sub_cancel]

theorem packetEnd_sends {j : ℕ} (short : TxShort t) (h : TxRegs m a t (.separator j)) (hr1 : t.r1 < 16)
    (hr3 : t.r3 < 2 ^ t.r1) : Sends m a (.separator j) t (packetEnd t, none) := by
  obtain ⟨h2, h7, hj, h9⟩ := h
  have happ := appendBits_appends (b := encodedLow) (n := 1) (by omega) (by decide) hr3
  cases j with
  | zero =>
    have heq : packetEnd t = { appendBits t encodedLow 1 with r2 := 0, r7 := 7, r18 := 0 } := if_pos h7
    rw [heq]
    exact ⟨rfl, happ.congr rfl rfl rfl rfl rfl rfl, ⟨short.r10, short.r16⟩, rfl, rfl, le_rfl, rfl, by decide, h9⟩
  | succ j =>
    have h0 : t.r7 ≠ 0 := by omega
    have heq : packetEnd t =
        { appendBits t encodedLow 1 with r18 := lsl encodedLow t.r1, r7 := sub t.r7 1 } := if_neg h0
    rw [heq]
    exact ⟨rfl, happ.congr rfl rfl rfl rfl rfl rfl, ⟨short.r10, short.r16⟩, h2,
      sub_one_of_succ h7 (by omega), by omega, h9⟩

theorem preamble_sends {c j : ℕ} (short : TxShort t) (h : TxRegs m a t (.preamble c j)) (hr1 : t.r1 < 16)
    (hr3 : t.r3 < 2 ^ t.r1) : Sends m a (.preamble c j) t (preamble t, none) := by
  obtain ⟨h2, h7, hj, h18, hc, h9⟩ := h
  simp only [txPreambleLen] at hc
  let r11 := lsr preambleValue t.r7 &&& 1
  have hbit : lsbBits 1 r11 = [preambleValue.testBit j] := by
    have h0 : r11.testBit 0 = preambleValue.testBit j := by
      simp only [r11, Nat.testBit_and, h7, lsr_testBit_zero (show j < 32 by omega)]
      simp
    simp [lsbBits, h0]
  have hlt : r11 < 2 ^ 1 := lt_of_le_of_lt Nat.and_le_right (by decide)
  have happ := appendBits_appends (n := 1) (by omega) hlt hr3
  rw [hbit] at happ
  cases j with
  | zero =>
    have h18' : add t.r18 1 = c + 1 := by rw [h18, add_of_lt (by omega)]
    by_cases hlast : c + 1 = txPreambleLen
    · have heq : preamble t = { appendBits t r11 1 with r18 := add t.r18 1, r2 := 1, r7 := 7 } :=
        (if_pos h7).trans (if_pos (h18'.trans hlast))
      rw [heq]
      refine ⟨rfl, happ.congr rfl rfl rfl rfl rfl rfl, ⟨short.r10, short.r16⟩, ?_⟩
      rw [TxPhase.next, if_pos hlast]
      exact ⟨rfl, rfl, le_rfl, h9⟩
    · have heq : preamble t = { appendBits t r11 1 with r18 := add t.r18 1, r7 := 7 } :=
        (if_pos h7).trans (if_neg fun h => hlast (h18'.symm.trans h))
      rw [heq]
      refine ⟨rfl, happ.congr rfl rfl rfl rfl rfl rfl, ⟨short.r10, short.r16⟩, ?_⟩
      rw [TxPhase.next, if_neg hlast]
      simp only [txPreambleLen] at hlast
      exact ⟨h2, rfl, le_rfl, h18', by simp only [txPreambleLen]; omega, h9⟩
  | succ j =>
    have h0 : t.r7 ≠ 0 := by omega
    have heq : preamble t = { appendBits t r11 1 with r7 := sub t.r7 1 } := if_neg h0
    rw [heq]
    exact ⟨rfl, happ.congr rfl rfl rfl rfl rfl rfl, ⟨short.r10, short.r16⟩, h2,
      sub_one_of_succ h7 (by omega), by omega, h18, by simp only [txPreambleLen]; omega, h9⟩

/-- Bit `j` of a value as a Manchester pair, from registers that have the word of `t`. -/
theorem encodeBit_sends {u : TxState} {reg value r7 j : ℕ} (hc : u.control = t.control) (h1 : u.r1 = t.r1)
    (h3 : u.r3 = t.r3) (hreg : reg = value) (h7 : r7 = j) (hj : j ≤ 15) (hr1 : t.r1 + 2 ≤ 16)
    (hr3 : t.r3 < 2 ^ t.r1) : Appends t (encodeBit u (lsr reg r7)) (manchester (value.testBit j)) := by
  have happ := encodeBit_appends (t := u) (lsr reg r7) (by rw [h1]; exact hr1) (by rw [h1, h3]; exact hr3)
  rw [hreg, h7, lsr_testBit_zero (by omega)] at happ
  rw [hreg, h7]
  exact happ.congr hc.symm h1.symm h3.symm rfl rfl rfl

theorem txSfd_sends {j : ℕ} (short : TxShort t) (h : TxRegs m a t (.sfd j)) (hr1 : t.r1 + 2 ≤ 16)
    (hr3 : t.r3 < 2 ^ t.r1) (ha : a < 2 ^ 16) : Sends m a (.sfd j) t (txSfd t m, none) := by
  obtain ⟨h2, h7, hj, h9⟩ := h
  have hj15 : j ≤ 15 := by omega
  cases j with
  | zero =>
    have heq : txSfd t m = encodeBit (toLength t m) (lsr txSfdValue t.r7) := if_pos h7
    rw [heq]
    refine ⟨rfl, encodeBit_sends rfl rfl rfl rfl h7 hj15 hr1 hr3, ⟨loadReg_lt short.r10 _ _, short.r16⟩,
      rfl, rfl, le_rfl, ?_, ?_⟩
    · exact (loadReg_of_lt short.r10 m t.r9).trans (by rw [h9])
    · exact (add_of_lt (by omega)).trans (by rw [h9])
  | succ j =>
    have h0 : t.r7 ≠ 0 := by omega
    have hj' : j ≤ 7 := by omega
    have h7' := sub_one_of_succ h7 (by omega)
    have heq : txSfd t m = encodeBit { t with r7 := sub t.r7 1 } (lsr txSfdValue t.r7) := if_neg h0
    rw [heq]
    exact ⟨rfl, encodeBit_sends rfl rfl rfl rfl h7 hj15 hr1 hr3, ⟨short.r10, short.r16⟩, h2, h7', hj', h9⟩

theorem dataLength_sends {j : ℕ} (short : TxShort t) (h : TxRegs m a t (.length j)) (hr1 : t.r1 + 2 ≤ 16)
    (hr3 : t.r3 < 2 ^ t.r1) (ha : a < 2 ^ 16) : Sends m a (.length j) t (dataLength t m, none) := by
  obtain ⟨h2, h7, hj, h10, h9⟩ := h
  have hlen := short.r10
  cases j with
  | zero =>
    have heq : dataLength t m = encodeBit (toBody t m) (lsr t.r10 t.r7) := if_pos h7
    rw [heq]
    refine ⟨rfl, encodeBit_sends rfl rfl rfl h10 h7 hj hr1 hr3, ⟨short.r10, loadReg_lt short.r16 _ _⟩,
      rfl, rfl, le_rfl, ?_, rfl, Nat.succ_pos _, ?_, ?_⟩
    · refine (add_of_lt ?_).trans (by rw [h10]; rfl)
      simp only [txOtherPacketContentByte]
      omega
    · refine (loadReg_of_lt short.r16 m t.r9).trans ?_
      rw [h9]
      simp [load, image, ofLittleEndian]
    · exact (add_of_lt (by omega)).trans (by rw [h9])
  | succ j =>
    have h0 : t.r7 ≠ 0 := by omega
    have hj' : j ≤ 15 := by omega
    have h7' := sub_one_of_succ h7 (by omega)
    have heq : dataLength t m = encodeBit { t with r7 := sub t.r7 1 } (lsr t.r10 t.r7) := if_neg h0
    rw [heq]
    exact ⟨rfl, encodeBit_sends rfl rfl rfl h10 h7 hj hr1 hr3, ⟨short.r10, short.r16⟩, h2, h7', hj', h10, h9⟩

theorem dataOok_sends {k j : ℕ} (short : TxShort t) (h : TxRegs m a t (.body k j)) (hr1 : t.r1 + 2 ≤ 16)
    (hr3 : t.r3 < 2 ^ t.r1) (ha : a < 2 ^ 16) (hmore : j ≠ 0 ∨ k + 1 < bodyBytes m a) :
    Sends m a (.body k j) t (dataOok t m) := by
  obtain ⟨h2, h7, hj, h12, h15, hk, h16, h9⟩ := h
  have hj15 : j ≤ 15 := by omega
  have hbody : bodyBytes m a < 2 ^ 17 := by
    have := load_lt m a 2
    simp only [bodyBytes, txOtherPacketContentByte]
    omega
  cases j with
  | zero =>
    have hk1 : k + 1 < bodyBytes m a := hmore.resolve_left (fun h => h rfl)
    have h15' : add t.r15 1 = k + 1 := by rw [h15, add_of_lt (by omega)]
    have hne : add t.r15 1 ≠ t.r12 := by rw [h15', h12]; omega
    have hnext : nextByte t m = ({ t with
        r7 := 7, r15 := add t.r15 1, r16 := loadReg m t.r16 t.r9 1, r9 := add t.r9 1 }, none) := if_neg hne
    have heq : dataOok t m = (encodeBit (nextByte t m).1 (lsr t.r16 t.r7), (nextByte t m).2) := if_pos h7
    rw [hnext] at heq
    rw [heq]
    refine ⟨rfl, encodeBit_sends rfl rfl rfl h16 h7 hj15 hr1 hr3, ⟨short.r10, loadReg_lt short.r16 _ _⟩,
      h2, rfl, le_rfl, h12, h15', hk1, ?_, ?_⟩
    · refine (loadReg_of_lt short.r16 m t.r9).trans ?_
      rw [h9, show a + 3 + k = a + 2 + (k + 1) by omega]
      simp [load, image, ofLittleEndian]
    · exact (add_of_lt (by omega)).trans (by rw [h9]; omega)
  | succ j =>
    have h0 : t.r7 ≠ 0 := by omega
    have hj' : j ≤ 7 := by omega
    have h7' := sub_one_of_succ h7 (by omega)
    have heq : dataOok t m = (encodeBit { t with r7 := sub t.r7 1 } (lsr t.r16 t.r7), none) := if_neg h0
    rw [heq]
    exact ⟨rfl, encodeBit_sends rfl rfl rfl h16 h7 hj15 hr1 hr3, ⟨short.r10, short.r16⟩,
      h2, h7', hj', h12, h15, hk, h16, h9⟩

/-- The phase is not the last pass of the packet. -/
def TxPhase.More (m : Memory) (a : ℕ) (ph : TxPhase) : Prop :=
  ∀ k, ph = .body k 0 → k + 1 < bodyBytes m a

/-- **One pass of `GETVALUE`.** In every phase but the last it sends the symbols of the phase. -/
theorem checkState_sends {ph : TxPhase} (h : TxAt m a ph t) (hr1 : t.r1 < 16) (hr3 : t.r3 < 2 ^ t.r1)
    (ha : a < 2 ^ 16) (hmore : ph.More m a) : Sends m a ph t (checkState t m) := by
  have haligned := h.aligned
  cases ph with
  | separator j =>
    have heq : checkState t m = (packetEnd t, none) := by simp only [checkState, h.regs.1]
    rw [heq]
    exact packetEnd_sends h.short h.regs hr1 hr3
  | preamble c j =>
    have heq : checkState t m = (preamble t, none) := by simp only [checkState, h.regs.1]
    rw [heq]
    exact preamble_sends h.short h.regs hr1 hr3
  | sfd j =>
    have heq : checkState t m = (txSfd t m, none) := by simp only [checkState, h.regs.1]
    rw [heq]
    simp only [TxPhase.parity] at haligned
    exact txSfd_sends h.short h.regs (by omega) hr3 ha
  | length j =>
    have heq : checkState t m = (dataLength t m, none) := by simp only [checkState, h.regs.1]
    rw [heq]
    simp only [TxPhase.parity] at haligned
    exact dataLength_sends h.short h.regs (by omega) hr3 ha
  | body k j =>
    have heq : checkState t m = dataOok t m := by simp only [checkState, h.regs.1]
    rw [heq]
    simp only [TxPhase.parity] at haligned
    refine dataOok_sends h.short h.regs (by omega) hr3 ha ?_
    cases j with
    | zero => exact Or.inr (hmore k rfl)
    | succ j => exact Or.inl (Nat.succ_ne_zero j)

end

/-! ## Calls of GETVALUE, back to back -/

structure TxOut where
  state : TxState
  mem : Memory
  words : List ℕ

def Gpo.other : Gpo → Gpo
  | .sh0 => .sh1
  | .sh1 => .sh0

/-- A pass; behind a full word the next call, with the other shift register, starts. -/
def getValues (o : TxOut) : TxOut :=
  match o.state.control with
  | .getValue gpo =>
    let p := getValuePass o.state o.mem gpo
    match p.word with
    | none => ⟨p.state, applyStore o.mem p.store, o.words⟩
    | some w => ⟨callGetValue p.state gpo.other, applyStore o.mem p.store, o.words ++ [w]⟩
  | _ => o

/-- The symbols sent so far: the words, lowest bit first, and the filled part of the current one. -/
def TxOut.symbols (o : TxOut) : List Bool := o.words.flatMap (lsbBits 16) ++ lsbBits o.state.r1 o.state.r3

/-- In a call of `GETVALUE`, with room in the word. -/
structure InCall (t : TxState) : Prop where
  control : ∃ gpo, t.control = .getValue gpo
  r1_lt : t.r1 < 16
  r3_lt : t.r3 < 2 ^ t.r1

/-- In a call of `GETVALUE`, at this phase of the packet at `a` of this memory. -/
structure OutAt (m : Memory) (a : ℕ) (ph : TxPhase) (o : TxOut) : Prop where
  inCall : InCall o.state
  mem : o.mem = m
  at_ : TxAt m a ph o.state

def SendsTo (m : Memory) (a : ℕ) (ph ph' : TxPhase) (xs : List Bool) (n : ℕ) : Prop :=
  ∀ o, OutAt m a ph o → OutAt m a ph' (getValues^[n] o) ∧ (getValues^[n] o).symbols = o.symbols ++ xs

section
variable {m : Memory} {a : ℕ} {ph ph' : TxPhase}

theorem SendsTo.trans {ph'' : TxPhase} {xs ys : List Bool} {n k : ℕ} (h : SendsTo m a ph ph' xs n)
    (h' : SendsTo m a ph' ph'' ys k) : SendsTo m a ph ph'' (xs ++ ys) (n + k) := by
  intro o ho
  obtain ⟨hat, hsymbols⟩ := h o ho
  obtain ⟨hat', hsymbols'⟩ := h' _ hat
  rw [Nat.add_comm n k, Function.iterate_add_apply]
  exact ⟨hat', by rw [hsymbols', hsymbols, List.append_assoc]⟩

theorem room_for_symbols {t : TxState} (hr1 : t.r1 < 16) (haligned : t.r1 % 2 = ph.parity) :
    t.r1 + (ph.symbols m a).length ≤ 16 := by
  cases ph with
  | separator j => exact hr1
  | preamble c j => exact hr1
  | sfd j =>
    simp only [TxPhase.parity, TxPhase.symbols, manchester, List.length_cons, List.length_nil] at haligned ⊢
    omega
  | length j =>
    simp only [TxPhase.parity, TxPhase.symbols, manchester, List.length_cons, List.length_nil] at haligned ⊢
    omega
  | body k j =>
    simp only [TxPhase.parity, TxPhase.symbols, manchester, List.length_cons, List.length_nil] at haligned ⊢
    omega

theorem getValues_more {o : TxOut} {t : TxState} {gpo : Gpo} (hc : o.state.control = .getValue gpo)
    (hcheck : checkState o.state o.mem = (t, none)) (ht : t.control = .getValue gpo) (h : t.r1 ≠ 16) :
    getValues o = ⟨t, o.mem, o.words⟩ := by
  have hpass : getValuePass o.state o.mem gpo = ⟨t, none, none⟩ := by
    simp only [getValuePass, hcheck, ht, reduceCtorEq, if_false, if_pos h]
  simp only [getValues, hc, hpass, applyStore_none]

theorem getValues_full {o : TxOut} {t : TxState} {gpo : Gpo} (hc : o.state.control = .getValue gpo)
    (hcheck : checkState o.state o.mem = (t, none)) (ht : t.control = .getValue gpo) (h : t.r1 = 16) :
    getValues o = ⟨{ t with r1 := 0, r3 := 0, control := .getValue gpo.other }, o.mem,
      o.words ++ [t.r3 % 2 ^ 16]⟩ := by
  have hpass : getValuePass o.state o.mem gpo =
      ⟨{ t with control := returnTo t gpo }, none, some (t.r3 % 2 ^ 16)⟩ := by
    simp only [getValuePass, hcheck, ht, reduceCtorEq, if_false, if_neg (not_not.mpr h)]
  simp only [getValues, hc, hpass, applyStore_none, callGetValue]

theorem TxRegs.newWord {t : TxState} (h : TxRegs m a t ph) (control : TxControl) :
    TxRegs m a { t with r1 := 0, r3 := 0, control } ph := by
  cases ph <;> exact h

/-- **A pass is a step of the phases.** -/
theorem sendsTo_one (ha : a < 2 ^ 16) (hmore : ph.More m a) : SendsTo m a ph ph.next (ph.symbols m a) 1 := by
  intro o ho
  obtain ⟨gpo, hcontrol⟩ := ho.inCall.control
  have hsends := checkState_sends ho.at_ ho.inCall.r1_lt ho.inCall.r3_lt ha hmore
  have hroom := room_for_symbols (m := m) (a := a) ho.inCall.r1_lt ho.at_.aligned
  have hparity := parity_next m a ph
  have haligned := ho.at_.aligned
  rw [← ho.mem] at hsends hroom hparity ⊢
  rcases hcheck : checkState o.state o.mem with ⟨t, st⟩
  rw [hcheck] at hsends
  obtain ⟨hst, happ, hshort, hregs⟩ := hsends
  obtain ⟨hword, hlt⟩ := happ.word ho.inCall.r3_lt
  cases hst
  have hr1 : t.r1 = o.state.r1 + (ph.symbols o.mem a).length := happ.r1
  have hcontrol' : t.control = .getValue gpo := happ.control.trans hcontrol
  rw [Function.iterate_one]
  by_cases hfull : t.r1 = 16
  · rw [getValues_full hcontrol hcheck hcontrol' hfull]
    have heven : 0 = ph.next.parity := by
      rw [← hparity, ← haligned, Nat.mod_add_mod, ← hr1, hfull]
    refine ⟨⟨⟨⟨_, rfl⟩, Nat.zero_lt_succ 15, Nat.zero_lt_one⟩, rfl, ⟨hshort.r10, hshort.r16⟩,
      hregs.newWord _, heven⟩, ?_⟩
    rw [hfull] at hword hlt
    simp only [TxOut.symbols, List.flatMap_append, List.flatMap_singleton, lsbBits_zero, List.append_nil,
      Nat.mod_eq_of_lt hlt, hword, List.append_assoc]
  · rw [getValues_more hcontrol hcheck hcontrol' hfull]
    refine ⟨⟨⟨⟨gpo, hcontrol'⟩, ?_, hlt⟩, rfl, hshort, hregs, ?_⟩, ?_⟩
    · change t.r1 < 16
      omega
    · rw [← hparity, ← haligned, Nat.mod_add_mod, ← hr1]
    · simp only [TxOut.symbols, hword, List.append_assoc]

theorem sendsTo_countdown (ha : a < 2 ^ 16) {F : ℕ → TxPhase} {v : ℕ} {f : Bool → List Bool}
    (hnext : ∀ j, (F (j + 1)).next = F j) (hsym : ∀ j, (F j).symbols m a = f (v.testBit j))
    (hmore : ∀ j, (F j).More m a) (j : ℕ) :
    SendsTo m a (F j) (F 0).next ((msbBits (j + 1) v).flatMap f) (j + 1) := by
  induction j with
  | zero =>
    have h : SendsTo m a (F 0) (F 0).next _ 1 := sendsTo_one ha (hmore 0)
    rw [hsym] at h
    simpa [msbBits] using h
  | succ j ih =>
    have h : SendsTo m a (F (j + 1)) (F (j + 1)).next _ 1 := sendsTo_one ha (hmore (j + 1))
    rw [hsym, hnext] at h
    have hboth := h.trans ih
    rwa [Nat.add_comm 1 (j + 1)] at hboth

/-! ## A packet -/

theorem more_of_ne_body (h : ∀ k, ph ≠ .body k 0) : ph.More m a := fun k hk => absurd hk (h k)

theorem sendsTo_separator (ha : a < 2 ^ 16) :
    SendsTo m a (.separator 3) (.preamble 0 7) (List.replicate 4 true) 4 := by
  have h := sendsTo_countdown (m := m) ha (F := .separator) (v := 15) (f := fun _ => [true])
    (fun _ => rfl) (fun _ => rfl) (fun j => more_of_ne_body fun k => by simp) 3
  exact h

theorem sendsTo_preamble (ha : a < 2 ^ 16) :
    SendsTo m a (.preamble 0 7) (.sfd 7) ((List.replicate 3 (msbBits 8 preambleValue)).flatten) 24 := by
  have hbyte : ∀ c, SendsTo m a (.preamble c 7) (TxPhase.preamble c 0).next (msbBits 8 preambleValue) 8 := by
    intro c
    have h := sendsTo_countdown (m := m) ha (F := .preamble c) (v := preambleValue) (f := fun b => [b])
      (fun _ => rfl) (fun _ => rfl) (fun j => more_of_ne_body fun k => by simp) 7
    simpa using h
  have h := ((hbyte 0).trans (hbyte 1)).trans (hbyte 2)
  have hthree : (List.replicate 3 (msbBits 8 preambleValue)).flatten =
      msbBits 8 preambleValue ++ msbBits 8 preambleValue ++ msbBits 8 preambleValue := by simp
  rw [hthree]
  exact h

theorem sendsTo_sfd (ha : a < 2 ^ 16) :
    SendsTo m a (.sfd 7) (.length 15) (encode (msbBits 8 txSfdValue)) 8 :=
  sendsTo_countdown ha (fun _ => rfl) (fun _ => rfl) (fun j => more_of_ne_body fun k => by simp) 7

theorem sendsTo_length (ha : a < 2 ^ 16) :
    SendsTo m a (.length 15) (.body 0 7) (encode (msbBits 16 (load m a 2))) 16 :=
  sendsTo_countdown ha (fun _ => rfl) (fun _ => rfl) (fun j => more_of_ne_body fun k => by simp) 15

theorem sendsTo_byte (ha : a < 2 ^ 16) {k : ℕ} (hk : k + 1 < bodyBytes m a) :
    SendsTo m a (.body k 7) (.body (k + 1) 7) (encode (msbBits 8 (m (a + 2 + k)).toNat)) 8 :=
  sendsTo_countdown ha (F := .body k) (fun _ => rfl) (fun _ => rfl) (fun j k' h => by cases h; exact hk) 7

theorem sendsTo_body (ha : a < 2 ^ 16) {n : ℕ} (hn : n < bodyBytes m a) :
    SendsTo m a (.body 0 7) (.body n 7) (encodeBytes (image m (a + 2) n)) (8 * n) := by
  induction n with
  | zero => exact fun o ho => ⟨ho, (List.append_nil _).symm⟩
  | succ n ih =>
    have h := (ih (by omega)).trans (sendsTo_byte ha hn)
    rw [image_succ, encodeBytes, List.flatMap_append, List.flatMap_singleton]
    exact h

def packetSymbols (length : ℕ) (body : List UInt8) : List Bool :=
  List.replicate 4 true ++ (List.replicate 3 (msbBits 8 preambleValue)).flatten ++
    encode (msbBits 8 txSfdValue) ++ encode (msbBits 16 length) ++ encodeBytes body

/-- **What `GETVALUE` sends** for a packet, up to any number of bytes of its body. -/
theorem sendsTo_packet (ha : a < 2 ^ 16) {n : ℕ} (hn : n < bodyBytes m a) :
    SendsTo m a (.separator 3) (.body n 7) (packetSymbols (load m a 2) (image m (a + 2) n)) (52 + 8 * n) :=
  ((((sendsTo_separator ha).trans (sendsTo_preamble ha)).trans (sendsTo_sfd ha)).trans
    (sendsTo_length ha)).trans (sendsTo_body ha hn)

end

end CiotVlc.Pru
