import CiotVlc.Pru.TxReachable

/-! # What a pass of GETVALUE sends, from its registers

`pending` lists the symbols that follow without another load, so a pass takes symbols from its front and
may bring new ones to its end. Nothing is said here about the memory: it may differ from pass to pass.
-/
namespace CiotVlc.Pru
open Foundations.Bytes Foundations.Registers Foundations.BitPack Foundations.LineCode
set_option autoImplicit false

/-- The preambles and the SFD. -/
def syncField : List Bool :=
  (List.replicate txPreambleLen (msbBits 8 preambleValue)).flatten ++ encode (msbBits 8 txSfdValue)

/-- The separator, and what comes behind it whatever the next packet is. -/
def separatorField : List Bool := List.replicate 4 true ++ syncField

def pending (t : TxState) : List Bool :=
  match t.r2 with
  | 0 => msbBits (t.r7 + 1) preambleValue ++
      (List.replicate (txPreambleLen - 1 - t.r18) (msbBits 8 preambleValue)).flatten ++
      encode (msbBits 8 txSfdValue)
  | 1 => encode (msbBits (t.r7 + 1) txSfdValue)
  | 2 => encode (msbBits (t.r7 + 1) t.r10)
  | 3 => encode (msbBits (t.r7 + 1) t.r16)
  | _ => List.replicate (t.r7 + 1) true ++ syncField

/-- The counters of the single symbols. -/
structure Counting (t : TxState) : Prop where
  preamble : t.r2 = 0 → t.r7 ≤ 7 ∧ t.r18 < txPreambleLen
  separator : t.r2 = 4 → t.r7 ≤ 3

/-- A pass sends symbols that were pending, and brings `new` ones. -/
structure PassSends (t t' : TxState) (new : List Bool) : Prop where
  sends : ∃ xs, xs ≠ [] ∧ Appends t t' xs ∧ pending t ++ new = xs ++ pending t'
  counting : Counting t'

/-- Between the body of one packet and the length of the next one. -/
def BetweenBodies (t : TxState) : Prop := t.r2 = 0 ∨ t.r2 = 1 ∨ t.r2 = 4

/-- The registers that a pass without a load leaves alone. -/
structure Keeps (t t' : TxState) : Prop where
  r5 : t'.r5 = t.r5
  r9 : t'.r9 = t.r9
  r10 : t'.r10 = t.r10
  r12 : t'.r12 = t.r12
  r15 : t'.r15 = t.r15
  r25 : t'.r25 = t.r25
  r26 : t'.r26 = t.r26
  r2 : t'.r2 = t.r2 ∨ BetweenBodies t ∧ BetweenBodies t'

section
variable {t : TxState} {m : Memory}

theorem counting_of_ne (h0 : t.r2 ≠ 0) (h4 : t.r2 ≠ 4) : Counting t := ⟨fun h => absurd h h0, fun h => absurd h h4⟩

theorem counting_of_preamble {a c j : ℕ} (h : TxRegs m a t (.preamble c j)) : Counting t := by
  obtain ⟨h2, h7, hj, h18, hc, -⟩ := h
  refine ⟨fun _ => ⟨by omega, by omega⟩, fun h4 => ?_⟩
  omega

theorem counting_of_separator {a j : ℕ} (h : TxRegs m a t (.separator j)) : Counting t := by
  obtain ⟨h2, h7, hj, -⟩ := h
  refine ⟨fun h0 => ?_, fun _ => by omega⟩
  omega

/-! ## The pending symbols, by the state -/

theorem pending_preamble {c j : ℕ} (h2 : t.r2 = 0) (h7 : t.r7 = j) (h18 : t.r18 = c) :
    pending t = msbBits (j + 1) preambleValue ++
      (List.replicate (txPreambleLen - 1 - c) (msbBits 8 preambleValue)).flatten ++
      encode (msbBits 8 txSfdValue) := by
  simp only [pending, h2, h7, h18]

theorem pending_sfd {j : ℕ} (h2 : t.r2 = 1) (h7 : t.r7 = j) : pending t = encode (msbBits (j + 1) txSfdValue) := by
  simp only [pending, h2, h7]

theorem pending_length {j v : ℕ} (h2 : t.r2 = 2) (h7 : t.r7 = j) (h10 : t.r10 = v) :
    pending t = encode (msbBits (j + 1) v) := by
  simp only [pending, h2, h7, h10]

theorem pending_body {j v : ℕ} (h2 : t.r2 = 3) (h7 : t.r7 = j) (h16 : t.r16 = v) :
    pending t = encode (msbBits (j + 1) v) := by
  simp only [pending, h2, h7, h16]

theorem pending_separator {j : ℕ} (h2 : t.r2 = 4) (h7 : t.r7 = j) :
    pending t = List.replicate (j + 1) true ++ syncField := by
  simp only [pending, h2, h7]

/-! ## Passes without a load -/

theorem preamble_passSends (h2 : t.r2 = 0) (short : TxShort t) (hcount : Counting t) (hr1 : t.r1 < 16)
    (hr3 : t.r3 < 2 ^ t.r1) : PassSends t (preamble t) [] := by
  obtain ⟨h7, h18⟩ := hcount.preamble h2
  have hsends := preamble_sends (m := fun _ => 0) short ⟨h2, rfl, h7, rfl, h18, rfl⟩ hr1 hr3
  have hregs := hsends.regs
  cases h7' : t.r7 with
  | zero =>
    rw [h7', TxPhase.next] at hregs
    split at hregs
    · next hlast =>
      obtain ⟨h2', h7'', -⟩ := hregs
      refine ⟨⟨_, List.cons_ne_nil _ _, hsends.appends, ?_⟩,
        counting_of_ne (by rw [h2']; decide) (by rw [h2']; decide)⟩
      rw [pending_preamble h2 h7' rfl, pending_sfd h2' h7'', ← hlast, Nat.add_sub_cancel, Nat.sub_self, h7']
      rfl
    · next hlast =>
      refine ⟨⟨_, List.cons_ne_nil _ _, hsends.appends, ?_⟩, counting_of_preamble hregs⟩
      obtain ⟨h2', h7'', -, h18', -⟩ := hregs
      have hsucc : txPreambleLen - 1 - t.r18 = (txPreambleLen - 1 - (t.r18 + 1)) + 1 := by omega
      rw [pending_preamble h2 h7' rfl, pending_preamble h2' h7'' h18', hsucc, List.replicate_succ,
        List.flatten_cons, h7']
      simp [msbBits]
  | succ j =>
    rw [h7', TxPhase.next] at hregs
    refine ⟨⟨_, List.cons_ne_nil _ _, hsends.appends, ?_⟩, counting_of_preamble hregs⟩
    obtain ⟨h2', h7'', -, h18', -⟩ := hregs
    rw [pending_preamble h2 h7' rfl, pending_preamble h2' h7'' h18', h7', List.append_nil]
    rfl

theorem packetEnd_passSends (h2 : t.r2 = 4) (short : TxShort t) (hcount : Counting t) (hr1 : t.r1 < 16)
    (hr3 : t.r3 < 2 ^ t.r1) : PassSends t (packetEnd t) [] := by
  have h7 := hcount.separator h2
  have hsends := packetEnd_sends (m := fun _ => 0) short ⟨h2, rfl, h7, rfl⟩ hr1 hr3
  have hregs := hsends.regs
  cases h7' : t.r7 with
  | zero =>
    rw [h7', TxPhase.next] at hregs
    refine ⟨⟨_, List.cons_ne_nil _ _, hsends.appends, ?_⟩, counting_of_preamble hregs⟩
    rw [pending_separator h2 h7', pending_preamble hregs.1 hregs.2.1 hregs.2.2.2.1]
    rfl
  | succ j =>
    rw [h7', TxPhase.next] at hregs
    refine ⟨⟨_, List.cons_ne_nil _ _, hsends.appends, ?_⟩, counting_of_separator hregs⟩
    rw [pending_separator h2 h7', pending_separator hregs.1 hregs.2.1, List.append_nil]
    rfl

theorem preamble_keeps (h2 : t.r2 = 0) : Keeps t (preamble t) := by
  unfold preamble appendBits
  dsimp only
  split_ifs
  · exact ⟨rfl, rfl, rfl, rfl, rfl, rfl, rfl, Or.inr ⟨Or.inl h2, Or.inr (Or.inl rfl)⟩⟩
  · exact ⟨rfl, rfl, rfl, rfl, rfl, rfl, rfl, Or.inl rfl⟩
  · exact ⟨rfl, rfl, rfl, rfl, rfl, rfl, rfl, Or.inl rfl⟩

theorem packetEnd_keeps (h2 : t.r2 = 4) : Keeps t (packetEnd t) := by
  unfold packetEnd appendBits
  dsimp only
  split_ifs
  · exact ⟨rfl, rfl, rfl, rfl, rfl, rfl, rfl, Or.inr ⟨Or.inr (Or.inr h2), Or.inl rfl⟩⟩
  · exact ⟨rfl, rfl, rfl, rfl, rfl, rfl, rfl, Or.inl rfl⟩

/-- A bit of a value whose next bits are pending. -/
theorem countdown_passSends {value : ℕ} (h2 : t.r2 = 1 ∨ t.r2 = 2 ∨ t.r2 = 3)
    (hpending : ∀ u : TxState, u.r2 = t.r2 → u.r10 = t.r10 → u.r16 = t.r16 →
      pending u = encode (msbBits (u.r7 + 1) value))
    (h7 : t.r7 ≠ 0) (hle : t.r7 ≤ 15) (hr1 : t.r1 + 2 ≤ 16) (hr3 : t.r3 < 2 ^ t.r1) :
    PassSends t (encodeBit { t with r7 := sub t.r7 1 } (lsr value t.r7)) [] := by
  have hnext := hpending (encodeBit { t with r7 := sub t.r7 1 } (lsr value t.r7)) rfl rfl rfl
  have hr7 : (encodeBit { t with r7 := sub t.r7 1 } (lsr value t.r7)).r7 = t.r7 - 1 := sub_one h7 hle
  refine ⟨⟨_, List.cons_ne_nil _ _, encodeBit_sends rfl rfl rfl rfl rfl hle hr1 hr3, ?_⟩, counting_of_ne ?_ ?_⟩
  · rw [hpending t rfl rfl rfl, hnext, hr7, Nat.sub_add_cancel (Nat.pos_of_ne_zero h7), List.append_nil]
    rfl
  · change t.r2 ≠ 0
    omega
  · change t.r2 ≠ 4
    omega

theorem countdown_keeps (r11 : ℕ) : Keeps t (encodeBit { t with r7 := sub t.r7 1 } r11) :=
  ⟨rfl, rfl, rfl, rfl, rfl, rfl, rfl, Or.inl rfl⟩

end

/-! ## What a pass reads -/

/-- The labels at which `GETVALUE` loads from memory, or ends a packet. -/
inductive TxEvent
  | none
  | toLength
  | toBody
  | nextByte
  | packetDone
  deriving DecidableEq, Repr

/-- The label that a pass from `t` to `t'` goes through. -/
def passEvent (t t' : TxState) : TxEvent :=
  if t.r7 ≠ 0 then .none
  else
    match t.r2 with
    | 1 => .toLength
    | 2 => .toBody
    | 3 => if t'.r2 = 3 then .nextByte else .packetDone
    | _ => .none

/-- What a pass brings, and what it leaves in the registers. -/
def PassSpec (t : TxState) (m : Memory) (t' : TxState) : TxEvent → Prop
  | .none => PassSends t t' [] ∧ Keeps t t'
  | .toLength => PassSends t t' (encode (msbBits 16 (load m t.r9 2))) ∧ t.r2 = 1 ∧ t.r7 = 0 ∧
      t'.r2 = 2 ∧ t'.r9 = add t.r9 2 ∧ t'.r10 = load m t.r9 2 ∧ t'.r5 = t.r5 ∧ t'.r25 = t.r25 ∧
      t'.r26 = t.r26
  | .toBody => PassSends t t' (encode (msbBits 8 (m t.r9).toNat)) ∧ t.r2 = 2 ∧ t'.r2 = 3 ∧
      t'.r9 = add t.r9 1 ∧ t'.r12 = add t.r10 txOtherPacketContentByte ∧ t'.r15 = 0 ∧ t'.r5 = t.r5 ∧
      t'.r25 = t.r25 ∧ t'.r26 = t.r26
  | .nextByte => PassSends t t' (encode (msbBits 8 (m t.r9).toNat)) ∧ t.r2 = 3 ∧ t'.r2 = 3 ∧
      t'.r9 = add t.r9 1 ∧ t'.r12 = t.r12 ∧ t'.r15 = add t.r15 1 ∧ t'.r15 ≠ t.r12 ∧ t'.r5 = t.r5 ∧
      t'.r25 = t.r25 ∧ t'.r26 = t.r26
  | .packetDone => PassSends t t' separatorField ∧ t.r2 = 3 ∧ t'.r2 = 4 ∧ t'.r7 = 3 ∧ t'.r9 < 256 ^ 2 ∧
      add t.r15 1 = t.r12 ∧ t'.r5 = t.r5 ∧ t'.r25 = t.r25 ∧ t'.r26 = true

section
variable {t : TxState} {m : Memory}

/-- The last bit of a value, in a pass that makes new symbols pending. -/
theorem last_passSends {u : TxState} {value : ℕ} {new : List Bool} (hc : u.control = t.control) (h1 : u.r1 = t.r1)
    (h3 : u.r3 = t.r3) (h7 : t.r7 = 0) (hpending : pending t = encode (msbBits (0 + 1) value))
    (hnew : pending (encodeBit u (lsr value t.r7)) = new) (hr1 : t.r1 + 2 ≤ 16) (hr3 : t.r3 < 2 ^ t.r1)
    (hcount : Counting (encodeBit u (lsr value t.r7))) : PassSends t (encodeBit u (lsr value t.r7)) new := by
  refine ⟨⟨_, List.cons_ne_nil _ _, encodeBit_sends hc h1 h3 rfl h7 (Nat.zero_le 15) hr1 hr3, ?_⟩, hcount⟩
  rw [hpending, hnew]
  rfl

theorem load_one (m : Memory) (a : ℕ) : load m a 1 = (m a).toNat := by simp [load, image, ofLittleEndian]

theorem txSfd_spec (h2 : t.r2 = 1) (short : TxShort t) (hle : t.r7 ≤ 15) (hr1 : t.r1 + 2 ≤ 16)
    (hr3 : t.r3 < 2 ^ t.r1) :
    PassSpec t m (txSfd t m) (passEvent t (txSfd t m)) := by
  by_cases h7 : t.r7 = 0
  · have heq : txSfd t m = encodeBit (toLength t m) (lsr txSfdValue t.r7) := if_pos h7
    have hload : loadReg m t.r10 t.r9 2 = load m t.r9 2 := loadReg_of_lt short.r10 m t.r9
    have hevent : passEvent t (txSfd t m) = .toLength := by
      simp only [passEvent, h7, h2, ne_eq, not_true_eq_false, if_false]
    rw [hevent, heq]
    refine ⟨last_passSends rfl rfl rfl h7 (pending_sfd h2 h7) (pending_length rfl rfl hload) hr1 hr3
      (counting_of_ne ?_ ?_), h2, h7, rfl, rfl, hload, rfl, rfl, rfl⟩
    · exact show 2 ≠ 0 by decide
    · exact show 2 ≠ 4 by decide
  · have heq : txSfd t m = encodeBit { t with r7 := sub t.r7 1 } (lsr txSfdValue t.r7) := if_neg h7
    have hevent : passEvent t (txSfd t m) = .none := if_pos h7
    rw [hevent, heq]
    exact ⟨countdown_passSends (Or.inl h2) (fun u hu _ _ => pending_sfd (hu.trans h2) rfl) h7 hle hr1 hr3,
      countdown_keeps _⟩

theorem dataLength_spec (h2 : t.r2 = 2) (short : TxShort t) (hle : t.r7 ≤ 15) (hr1 : t.r1 + 2 ≤ 16)
    (hr3 : t.r3 < 2 ^ t.r1) : PassSpec t m (dataLength t m) (passEvent t (dataLength t m)) := by
  by_cases h7 : t.r7 = 0
  · have heq : dataLength t m = encodeBit (toBody t m) (lsr t.r10 t.r7) := if_pos h7
    have hload : loadReg m t.r16 t.r9 1 = (m t.r9).toNat := (loadReg_of_lt short.r16 m t.r9).trans (load_one m t.r9)
    have hevent : passEvent t (dataLength t m) = .toBody := by
      simp only [passEvent, h7, h2, ne_eq, not_true_eq_false, if_false]
    rw [hevent, heq]
    refine ⟨last_passSends rfl rfl rfl h7 (pending_length h2 h7 rfl) (pending_body rfl rfl hload) hr1 hr3
      (counting_of_ne ?_ ?_), h2, rfl, rfl, rfl, rfl, rfl, rfl, rfl⟩
    · exact show 3 ≠ 0 by decide
    · exact show 3 ≠ 4 by decide
  · have heq : dataLength t m = encodeBit { t with r7 := sub t.r7 1 } (lsr t.r10 t.r7) := if_neg h7
    have hevent : passEvent t (dataLength t m) = .none := if_pos h7
    rw [hevent, heq]
    exact ⟨countdown_passSends (Or.inr (Or.inl h2)) (fun u hu h10 _ => pending_length (hu.trans h2) rfl h10) h7 hle
      hr1 hr3, countdown_keeps _⟩

theorem dataOok_spec (h2 : t.r2 = 3) (short : TxShort t) (hle : t.r7 ≤ 15) (hr1 : t.r1 + 2 ≤ 16)
    (hr3 : t.r3 < 2 ^ t.r1) : PassSpec t m (dataOok t m).1 (passEvent t (dataOok t m).1) := by
  by_cases h7 : t.r7 = 0
  · have heq : (dataOok t m).1 = encodeBit (nextByte t m).1 (lsr t.r16 t.r7) := congrArg Prod.fst (if_pos h7)
    have hevent : passEvent t (dataOok t m).1 = if (dataOok t m).1.r2 = 3 then .nextByte else .packetDone := by
      simp only [passEvent, h7, h2, ne_eq, not_true_eq_false, if_false]
    have hbyte := pending_body h2 h7 rfl
    by_cases hdone : add t.r15 1 = t.r12
    · have hnext : nextByte t m = packetDone { t with r7 := 7, r15 := add t.r15 1 } := if_pos hdone
      rw [hnext] at heq
      have hstate : (dataOok t m).1.r2 = 4 := by rw [heq]; rfl
      rw [hevent, hstate, if_neg (by decide), heq]
      refine ⟨last_passSends rfl rfl rfl h7 hbyte (pending_separator rfl rfl) hr1 hr3 ⟨fun h => ?_, fun _ => le_rfl⟩,
        h2, rfl, rfl, packetDone_readIdx _, hdone, rfl, rfl, rfl⟩
      cases h
    · have hnext : nextByte t m = ({ t with
          r7 := 7, r15 := add t.r15 1, r16 := loadReg m t.r16 t.r9 1, r9 := add t.r9 1 }, none) := if_neg hdone
      have hload : loadReg m t.r16 t.r9 1 = (m t.r9).toNat := (loadReg_of_lt short.r16 m t.r9).trans (load_one m t.r9)
      rw [hnext] at heq
      have hstate : (dataOok t m).1.r2 = 3 := by rw [heq]; exact h2
      rw [hevent, hstate, if_pos rfl, heq]
      refine ⟨last_passSends rfl rfl rfl h7 hbyte (pending_body h2 rfl hload) hr1 hr3 (counting_of_ne ?_ ?_),
        h2, h2, rfl, rfl, rfl, hdone, rfl, rfl, rfl⟩
      · exact show t.r2 ≠ 0 by omega
      · exact show t.r2 ≠ 4 by omega
  · have heq : (dataOok t m).1 = encodeBit { t with r7 := sub t.r7 1 } (lsr t.r16 t.r7) :=
      congrArg Prod.fst (if_neg h7)
    have hevent : passEvent t (dataOok t m).1 = .none := if_pos h7
    rw [hevent, heq]
    exact ⟨countdown_passSends (Or.inr (Or.inr h2)) (fun u hu _ h16 => pending_body (hu.trans h2) rfl h16) h7 hle
      hr1 hr3, countdown_keeps _⟩

/-- **A pass of `GETVALUE`**, by the label it goes through. -/
theorem checkState_spec (h : TxSound t) (hcount : Counting t) (hr1 : t.r1 < 16) (hr3 : t.r3 < 2 ^ t.r1)
    (hal : Aligned t t.r1) : PassSpec t m (checkState t m).1 (passEvent t (checkState t m).1) := by
  have hle := hal.r2_le
  have hpair : t.r2 = 1 ∨ t.r2 = 2 ∨ t.r2 = 3 → t.r1 + 2 ≤ 16 := by
    intro h
    have heven := hal.pair h
    omega
  rcases h2 : t.r2 with _ | _ | _ | _ | _ | n
  · have heq : checkState t m = (preamble t, none) := by simp only [checkState, h2]
    have hevent : passEvent t (preamble t) = .none := by simp [passEvent, h2]
    rw [heq, hevent]
    exact ⟨preamble_passSends h2 h.short hcount hr1 hr3, preamble_keeps h2⟩
  · have heq : checkState t m = (txSfd t m, none) := by simp only [checkState, h2]
    rw [heq]
    exact txSfd_spec h2 h.short h.r7_le (hpair (Or.inl h2)) hr3
  · have heq : checkState t m = (dataLength t m, none) := by simp only [checkState, h2]
    rw [heq]
    exact dataLength_spec h2 h.short h.r7_le (hpair (Or.inr (Or.inl h2))) hr3
  · have heq : checkState t m = dataOok t m := by simp only [checkState, h2]
    rw [heq]
    exact dataOok_spec h2 h.short h.r7_le (hpair (Or.inr (Or.inr h2))) hr3
  · have heq : checkState t m = (packetEnd t, none) := by simp only [checkState, h2]
    have hevent : passEvent t (packetEnd t) = .none := by simp [passEvent, h2]
    rw [heq, hevent]
    exact ⟨packetEnd_passSends h2 h.short hcount hr1 hr3, packetEnd_keeps h2⟩
  · omega

end

end CiotVlc.Pru
