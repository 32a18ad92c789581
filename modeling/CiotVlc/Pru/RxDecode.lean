import CiotVlc.Foundations.LineCode
import CiotVlc.Pru.RxFrames

/-! # What the receiver firmware decodes

From any state of the preamble search the four separator symbols bring the counters into order, and
from there each part of a packet leads to the next one. The phases are those of the transmitter;
`Takes` joins them.
-/
namespace CiotVlc.Pru
open Foundations.Bytes Foundations.Registers Foundations.BitPack Foundations.LineCode Foundations.Runs
set_option autoImplicit false

/-- One symbol, on the firmware's memory. Only a firmware that waits for it takes it. -/
def rxSymbol (o : RxState × Memory) (high : Bool) : Option (RxState × Memory) :=
  if o.1.control = .nextBit then
    let pass := rxBit o.1 o.2 high.toNat
    some (pass.1, applyStore o.2 pass.2)
  else none

/-! ## Preamble -/

/-- The search, with counters that the firmware can have. -/
structure InSearch (s : RxState) : Prop where
  control : s.control = .nextBit
  r4 : s.r4 = 0
  r8 : s.r8 ≤ 7
  r9 : s.r9 ≤ 2
  r10 : s.r10 ≤ 1

/-- `i` symbols of the preambles are detected. -/
def counting (s : RxState) (i : ℕ) : RxState := { s with r8 := i % 8, r9 := i / 8, r10 := i % 2 }

/-- The preambles alternate, from a high symbol on. -/
def preambleSymbols (i : ℕ) : List Bool := (List.range i).map fun j => j % 2 == 0

/-- The separator and the preambles: what comes in front of the SFD. -/
def syncSymbols : List Bool := List.replicate 4 true ++ preambleSymbols 24

section
variable {s : RxState}

theorem expectedEdge_odd (h : s.r8.testBit 0 = true) (r7 : ℕ) : expectedEdge s r7 = decide (r7 < s.r10) := if_pos h

theorem expectedEdge_even (h : s.r8.testBit 0 = false) (r7 : ℕ) : expectedEdge s r7 = decide (s.r10 < r7) :=
  if_neg (by rw [h]; exact Bool.false_ne_true)

theorem afterAddSymbol_of_lt (h : s.r8 < 8) (r7 : ℕ) : afterAddSymbol s r7 = { s with r10 := r7 } :=
  if_neg (Nat.not_le.mpr h)

theorem afterAddSymbol_of_le (h : 8 ≤ s.r8) (r7 : ℕ) : afterAddSymbol s r7 = addPreamble { s with r10 := r7 } :=
  if_pos h

theorem preambleDetection_reset {r7 : ℕ} (h : expectedEdge s r7 = false) :
    preambleDetection s r7 = { s with r8 := 1, r9 := 0, r10 := r7 } := by
  unfold preambleDetection
  rw [h, if_neg Bool.false_ne_true]
  exact afterAddSymbol_of_lt (show 1 < 8 by omega) r7

theorem preambleDetection_edge {r7 : ℕ} (h : expectedEdge s r7 = true) (h8 : s.r8 < 7) :
    preambleDetection s r7 = { s with r8 := s.r8 + 1, r10 := r7 } := by
  have hadd : add s.r8 1 = s.r8 + 1 := add_of_lt (by omega)
  unfold preambleDetection
  rw [h, if_pos rfl, hadd]
  exact afterAddSymbol_of_lt (show s.r8 + 1 < 8 by omega) r7

theorem preambleDetection_preamble {r7 : ℕ} (h : expectedEdge s r7 = true) (h8 : s.r8 = 7) :
    preambleDetection s r7 = addPreamble { s with r8 := 8, r10 := r7 } := by
  have hadd : add s.r8 1 = 8 := by rw [h8, add_of_lt (by omega)]
  unfold preambleDetection
  rw [h, if_pos rfl, hadd]
  exact afterAddSymbol_of_le (show 8 ≤ 8 from le_rfl) r7

theorem preambleDetection_high (h10 : s.r10 = 1) : preambleDetection s 1 = counting s 1 := by
  refine preambleDetection_reset ?_
  cases hbit : s.r8.testBit 0 with
  | false => rw [expectedEdge_even hbit, h10]; rfl
  | true => rw [expectedEdge_odd hbit, h10]; rfl

/-- The first separator symbol may end a preamble symbol that noise began, but never a preamble. -/
theorem preambleDetection_first (h : InSearch s) :
    ∃ r8 r9, preambleDetection s 1 = { s with r8, r9, r10 := 1 } := by
  have h8 := h.r8
  have h10 := h.r10
  cases hedge : expectedEdge s 1 with
  | false => exact ⟨_, _, preambleDetection_reset hedge⟩
  | true =>
    have hne : s.r8 ≠ 7 := by
      intro h7
      have hodd : s.r8.testBit 0 = true := by rw [h7]; rfl
      rw [expectedEdge_odd hodd, decide_eq_true_iff] at hedge
      omega
    exact ⟨_, _, preambleDetection_edge hedge (by omega)⟩

/-- After `i` symbols the next symbol of the preambles is an edge. -/
theorem expectedEdge_counting (i : ℕ) : expectedEdge (counting s i) ((i + 1) % 2) = true := by
  cases hbit : (i % 8).testBit 0 with
  | false =>
    rw [expectedEdge_even (s := counting s i) hbit, decide_eq_true_iff]
    rw [Nat.testBit_zero, decide_eq_false_iff_not] at hbit
    change i % 2 < (i + 1) % 2
    omega
  | true =>
    rw [expectedEdge_odd (s := counting s i) hbit, decide_eq_true_iff]
    rw [Nat.testBit_zero, decide_eq_true_iff] at hbit
    change (i + 1) % 2 < i % 2
    omega

theorem preambleDetection_counting {i : ℕ} (hi : i < 23) :
    preambleDetection (counting s i) ((i + 1) % 2) = counting s (i + 1) := by
  have hedge : expectedEdge (counting s i) ((i + 1) % 2) = true := expectedEdge_counting i
  by_cases h7 : i % 8 = 7
  · have hadd : add (i / 8) 1 = i / 8 + 1 := add_of_lt (by omega)
    have hmore : ¬ preambleLen ≤ i / 8 + 1 := by
      simp only [preambleLen]
      omega
    rw [preambleDetection_preamble hedge h7]
    simp only [addPreamble, counting, hadd, if_neg hmore]
    rw [show (i + 1) % 8 = 0 by omega, show (i + 1) / 8 = i / 8 + 1 by omega]
  · have hlt : (counting s i).r8 < 7 := by
      change i % 8 < 7
      omega
    rw [preambleDetection_edge hedge hlt]
    simp only [counting]
    rw [show (i + 1) % 8 = i % 8 + 1 by omega, show (i + 1) / 8 = i / 8 by omega]

theorem preambleDetection_last :
    preambleDetection (counting s 23) 0 = preambleDone (counting s 24) :=
  preambleDetection_preamble (expectedEdge_counting 23) rfl

/-! ### The symbols in front of the SFD -/

variable {m : Memory}

theorem rxSymbol_search {t : RxState} {high : Bool} (hc : s.control = .nextBit) (h4 : s.r4 = 0)
    (h : preambleDetection s high.toNat = t) : rxSymbol (s, m) high = some (t, m) := by
  simp only [rxSymbol, if_pos hc, rxBit_search h4, applyStore_none, h]

theorem run_high {t : RxState} (h : InSearch s) (h10 : t.r10 = 1) (hc : t.control = s.control) (h4 : t.r4 = s.r4)
    (hsame : counting t 1 = counting s 1) : rxSymbol (t, m) true = some (counting s 1, m) :=
  rxSymbol_search (hc.trans h.control) (h4.trans h.r4) ((preambleDetection_high h10).trans hsame)

theorem run_separator (h : InSearch s) (j : ℕ) :
    Run rxSymbol (s, m) (List.replicate (j + 2) true) (counting s 1, m) := by
  obtain ⟨r8, r9, hfirst⟩ := preambleDetection_first h
  have hone : rxSymbol (s, m) true = some ({ s with r8, r9, r10 := 1 }, m) :=
    rxSymbol_search h.control h.r4 hfirst
  induction j with
  | zero => exact (Run.single hone).snoc (run_high h rfl rfl rfl rfl)
  | succ j ih =>
    rw [List.replicate_succ']
    exact ih.snoc (run_high h rfl rfl rfl rfl)

/-- The first preamble symbol is high like the separator; from the second one on every symbol is an edge. -/
theorem run_preamble (h : InSearch s) {i : ℕ} (hi : i < 23) :
    Run rxSymbol (counting s 1, m) (preambleSymbols (i + 1)) (counting s (i + 1), m) := by
  induction i with
  | zero => exact .single (run_high h rfl rfl rfl rfl)
  | succ i ih =>
    have hsymbol : ((i + 1) % 2 == 0).toNat = (i + 1 + 1) % 2 := by
      rcases Nat.mod_two_eq_zero_or_one (i + 1) with hi | hi
      · rw [hi, show (i + 1 + 1) % 2 = 1 by omega]
        rfl
      · rw [hi, show (i + 1 + 1) % 2 = 0 by omega]
        rfl
    rw [preambleSymbols, List.range_succ, List.map_append]
    refine (ih (by omega)).snoc (rxSymbol_search (s := counting s (i + 1)) h.control h.r4 ?_)
    rw [← preambleDetection_counting hi, ← hsymbol]

theorem preambleSymbols_take {i n : ℕ} (h : i ≤ n) : (preambleSymbols n).take i = preambleSymbols i := by
  rw [preambleSymbols, preambleSymbols, ← List.map_take, List.take_range, Nat.min_eq_left h]

/-- **Up to the last preamble symbol the search goes on.** -/
theorem run_sync_search (h : InSearch s) {k : ℕ} (hk : k < 28) :
    ∃ u, Run rxSymbol (s, m) (syncSymbols.take k) (u, m) ∧ u.r4 = 0 := by
  rw [syncSymbols]
  by_cases hsep : k ≤ 4
  · rw [List.take_append_of_le_length (by simpa using hsep), List.take_replicate, Nat.min_eq_left hsep]
    match k with
    | 0 => exact ⟨s, .refl, h.r4⟩
    | 1 =>
      obtain ⟨r8, r9, hfirst⟩ := preambleDetection_first h
      have hone : rxSymbol (s, m) true = some ({ s with r8, r9, r10 := 1 }, m) :=
        rxSymbol_search h.control h.r4 hfirst
      exact ⟨_, .single hone, h.r4⟩
    | j + 2 => exact ⟨_, run_separator h j, h.r4⟩
  · obtain ⟨i, rfl⟩ : ∃ i, k = 4 + (i + 1) := ⟨k - 5, by omega⟩
    rw [List.take_append, List.length_replicate, Nat.add_sub_cancel_left,
      List.take_of_length_le (by simp), preambleSymbols_take (by omega)]
    exact ⟨_, (run_separator h 2).append (run_preamble h (by omega)), h.r4⟩

/-- **The last preamble symbol ends it.** -/
theorem run_sync (h : InSearch s) : Run rxSymbol (s, m) syncSymbols (preambleDone (counting s 24), m) := by
  rw [syncSymbols, preambleSymbols, List.range_succ, List.map_append, ← List.append_assoc]
  exact ((run_separator h 2).append (run_preamble h (show 22 < 23 by omega))).snoc
    (rxSymbol_search (s := counting s 23) h.control h.r4 preambleDetection_last)

end

/-! ## Packets -/

/-- In front of a pair of symbols, with this packet state and this bit counter. -/
structure AtPair (m : Memory) (r14 r15 : ℕ) (o : RxState × Memory) : Prop where
  mem : o.2 = m
  control : o.1.control = .nextBit
  r4 : o.1.r4 = 1
  r14 : o.1.r14 = r14
  r15 : o.1.r15 = r15
  short : ShortWords o.1

section
variable {m : Memory} {w : ℕ} {o : RxState × Memory}

def decoded (s : RxState) (b : Bool) : RxState := { s with r12 := (!b).toNat, r4 := 2, r13 := b.toNat }

theorem decodeOokSecond_pair (s : RxState) (m : Memory) (b : Bool) :
    decodeOokSecond { s with r12 := (!b).toNat, r4 := 2 } m b.toNat = checkPacketState (decoded s b) m b.toNat := by
  cases b with
  | false => rfl
  | true => rfl

theorem run_pair (hc : o.1.control = .nextBit) (h4 : o.1.r4 = 1) (b : Bool) :
    let pass := checkPacketState (decoded o.1 b) o.2 b.toNat
    Run rxSymbol o (manchester b) (pass.1, applyStore o.2 pass.2) := by
  have hfirst : rxSymbol o (!b) = some ({ o.1 with r12 := (!b).toNat, r4 := 2 }, o.2) := by
    simp only [rxSymbol, if_pos hc, rxBit_first h4, applyStore_none]
    rfl
  have hsecond : rxSymbol ({ o.1 with r12 := (!b).toNat, r4 := 2 }, o.2) b =
      some ((checkPacketState (decoded o.1 b) o.2 b.toNat).1,
        applyStore o.2 (checkPacketState (decoded o.1 b) o.2 b.toNat).2) := by
    rw [← decodeOokSecond_pair]
    exact if_pos hc
  exact (Run.single hfirst).snoc hsecond

theorem takes_pair {P Q : RxState × Memory → Prop} {b : Bool} (hpair : ∀ o, P o → o.1.control = .nextBit ∧ o.1.r4 = 1)
    (hstep : ∀ o, P o → ∀ pass, checkPacketState (decoded o.1 b) o.2 b.toNat = pass →
      Q (pass.1, applyStore o.2 pass.2)) : Takes rxSymbol P (manchester b) Q :=
  fun o ho => ⟨_, run_pair (hpair o ho).1 (hpair o ho).2 b, hstep o ho _ rfl⟩

/-! ### SFD -/

def SfdAt (m : Memory) (j : ℕ) (o : RxState × Memory) : Prop := AtPair m 0 j o ∧ j ≤ 7

/-- The bits of the length in front of bit `j` are collected. -/
def LengthAt (m : Memory) (j : ℕ) (o : RxState × Memory) : Prop :=
  AtPair m 1 j o ∧ j ≤ 15 ∧ o.1.r16 = highBits payloadLen (j + 1)

theorem sfd_bit {j : ℕ} (hj : j < 32) : (lsr sfdValue j ^^^ (sfdValue.testBit j).toNat).testBit 0 = false := by
  rw [Nat.testBit_xor, lsr_testBit_zero hj]
  cases sfdValue.testBit j <;> rfl

theorem checkPacketState_sfd {j : ℕ} (h : AtPair m 0 j o) (hj : j ≤ 7) :
    checkPacketState (decoded o.1 (sfdValue.testBit j)) o.2 (sfdValue.testBit j).toNat =
      ({ decoded o.1 (sfdValue.testBit j) with
        r16 := if j = 0 then 0 else lsr sfdValue j ^^^ (sfdValue.testBit j).toNat
        r15 := if j = 0 then 15 else j - 1
        r4 := 1
        r14 := if j = 0 then 1 else 0 }, none) := by
  have hstate : checkPacketState (decoded o.1 (sfdValue.testBit j)) o.2 (sfdValue.testBit j).toNat =
      (sfd (decoded o.1 (sfdValue.testBit j)) (sfdValue.testBit j).toNat, none) := by
    simp only [checkPacketState, decoded, h.r14]
  have hbit := sfd_bit (show j < 32 by omega)
  rw [hstate]
  simp only [sfd, decoded, h.r15, hbit, Bool.false_eq_true, if_false]
  split
  · rfl
  · rw [sub_of_le (by omega) (by omega)]
    simp only [h.r14]

theorem takes_sfd : Takes rxSymbol (SfdAt m 7) (encode (msbBits 8 sfdValue)) (LengthAt m 15) := by
  refine takes_countdown (F := SfdAt m) (fun j => takes_pair (fun o h => ⟨h.1.control, h.1.r4⟩) ?_)
    (takes_pair (fun o h => ⟨h.1.control, h.1.r4⟩) ?_) 7
  · rintro o ⟨h, hj⟩ pass hpass
    rw [checkPacketState_sfd h hj] at hpass
    rw [← hpass]
    exact ⟨⟨h.mem, h.control, rfl, rfl, rfl, ⟨h.short.r20, h.short.r25⟩⟩, by omega⟩
  · rintro o ⟨h, hj⟩ pass hpass
    rw [checkPacketState_sfd h hj] at hpass
    rw [← hpass]
    exact ⟨⟨h.mem, h.control, rfl, rfl, rfl, ⟨h.short.r20, h.short.r25⟩⟩, le_rfl,
      (highBits_of_lt (by decide)).symm⟩

/-! ### Length -/

theorem collect_bit {v j : ℕ} (hv : v < 2 ^ 16) (hj : j ≤ 15) :
    add (highBits v (j + 1)) (lsl (v.testBit j).toNat j) = highBits v j := by
  have hbit : (v.testBit j).toNat * 2 ^ j ≤ 1 * 2 ^ 15 :=
    Nat.mul_le_mul (Bool.toNat_le _) (Nat.pow_le_pow_right (by omega) hj)
  have hhigh := highBits_le v (j + 1)
  rw [lsl_eq (by omega) (by omega), add_of_lt (by omega), highBits_succ]

/-- Where the packet goes: the write index, with room for a frame behind it. -/
structure WritesAt (m : Memory) (w : ℕ) : Prop where
  load_eq : load m 0 2 = w
  le : w + frameSize ≤ bufferLimit

def storeFrame (m : Memory) (w : ℕ) (body : List UInt8) : Memory := store m w (littleEndian 2 payloadLen ++ body)

/-- Between two bytes of the body. -/
structure AtByte (m : Memory) (w : ℕ) (body : List UInt8) (o : RxState × Memory) : Prop where
  at_ : AtPair (storeFrame m w body) 2 7 o
  r16 : o.1.r16 = payloadLen + rxOtherPacketContentByte
  r23 : o.1.r23 = body.length
  r20 : o.1.r20 = w + 2 + body.length
  r21 : o.1.r21 = 0

def lengthBit (s : RxState) (j : ℕ) : RxState :=
  { decoded s (payloadLen.testBit j) with r13 := lsl (payloadLen.testBit j).toNat j, r16 := highBits payloadLen j }

theorem checkPacketState_length {j : ℕ} (h : LengthAt m j o) :
    checkPacketState (decoded o.1 (payloadLen.testBit j)) o.2 (payloadLen.testBit j).toNat =
      if j = 0 then processLength (lengthBit o.1 j) o.2
      else ({ lengthBit o.1 j with r15 := j - 1, r4 := 1 }, none) := by
  obtain ⟨hat, hj, h16⟩ := h
  have hlength : checkPacketState (decoded o.1 (payloadLen.testBit j)) o.2 (payloadLen.testBit j).toNat =
      length (decoded o.1 (payloadLen.testBit j)) o.2 := by
    simp only [checkPacketState, decoded, hat.r14]
  have hcollect := collect_bit (v := payloadLen) (by decide) hj
  rw [hlength]
  simp only [length, lengthBit, decoded, hat.r15, h16, hcollect]
  split
  · rfl
  · rw [sub_of_le (by omega) (by omega)]

theorem processLength_payload {s : RxState} (hw : WritesAt m w) (h16 : s.r16 = payloadLen) (h20 : s.r20 < 256 ^ 2) :
    processLength s m = ({ s with
      r20 := w + 2, r15 := 7, r21 := 0, r23 := 0, r16 := payloadLen + rxOtherPacketContentByte, r14 := 2, r4 := 1 },
      some ⟨w, littleEndian 2 payloadLen⟩) := by
  have hle := hw.le
  have hsize : frameSize = 100 := rfl
  have hlimit : bufferLimit = 6004 := rfl
  have hload : loadReg m s.r20 0 2 = w := by rw [loadReg_of_lt h20, hw.load_eq]
  have hoff : wrapOffset (add w 2) = w + 2 := by rw [add_of_lt (by omega), wrapOffset_of_lt (by omega)]
  simp only [processLength, h16, ne_eq, not_true_eq_false, if_false, hload, hoff]
  rfl

theorem takes_length (hw : WritesAt m w) :
    Takes rxSymbol (LengthAt m 15) (encode (msbBits 16 payloadLen)) (AtByte m w []) := by
  refine takes_countdown (F := LengthAt m) (fun j => takes_pair (fun o h => ⟨h.1.control, h.1.r4⟩) ?_)
    (takes_pair (fun o h => ⟨h.1.control, h.1.r4⟩) ?_) 15
  · intro o h pass hpass
    rw [checkPacketState_length h] at hpass
    obtain ⟨hat, hj, -⟩ := h
    rw [← hpass]
    exact ⟨⟨hat.mem, hat.control, rfl, hat.r14, rfl, ⟨hat.short.r20, hat.short.r25⟩⟩, by omega, rfl⟩
  · intro o h pass hpass
    rw [checkPacketState_length h] at hpass
    obtain ⟨hat, hj, -⟩ := h
    have hle := hw.le
    have hlimit : bufferLimit = 6004 := rfl
    rw [if_pos rfl, hat.mem,
      processLength_payload (s := lengthBit o.1 0) hw (highBits_zero _) hat.short.r20] at hpass
    rw [← hpass, hat.mem]
    refine ⟨⟨?_, hat.control, rfl, rfl, rfl, ?_⟩, rfl, rfl, rfl, rfl⟩
    · rw [storeFrame, List.append_nil]
      rfl
    · refine ⟨?_, hat.short.r25⟩
      dsimp only
      omega

/-! ### Body -/

/-- The bits of the next byte in front of bit `j` are collected. -/
structure InByte (m : Memory) (w : ℕ) (body : List UInt8) (v j : ℕ) (o : RxState × Memory) : Prop where
  at_ : AtPair (storeFrame m w body) 2 j o
  j_le : j ≤ 7
  r16 : o.1.r16 = payloadLen + rxOtherPacketContentByte
  r23 : o.1.r23 = body.length
  r20 : o.1.r20 = w + 2 + body.length
  r21 : o.1.r21 = highBits v (j + 1)

/-- The body is stored, and the firmware is in the loop at `FINAL`. -/
structure BodyDone (m : Memory) (w : ℕ) (body : List UInt8) (o : RxState × Memory) : Prop where
  mem : o.2 = storeFrame m w body
  control : o.1.control = .final
  r20 : o.1.r20 = wrapOffset (w + frameSize)
  short : ShortWords o.1

def BehindByte (m : Memory) (w : ℕ) (body : List UInt8) (o : RxState × Memory) : Prop :=
  if body.length < payloadLen + rxOtherPacketContentByte then AtByte m w body o else BodyDone m w body o

theorem store_byte (m : Memory) (w : ℕ) (body : List UInt8) (b : UInt8) :
    store (storeFrame m w body) (w + 2 + body.length) (littleEndian 1 b.toNat) = storeFrame m w (body ++ [b]) := by
  have hbyte : littleEndian 1 b.toNat = [b] := by simp [littleEndian]
  have hlen : w + 2 + body.length = w + (littleEndian 2 payloadLen ++ body).length := by
    rw [List.length_append, littleEndian_length]
    omega
  rw [hbyte, hlen, storeFrame, store_append, storeFrame, List.append_assoc]

def bodyBit (s : RxState) (v j : ℕ) : RxState :=
  { decoded s (v.testBit j) with r13 := lsl (v.testBit j).toNat j, r21 := highBits v j }

theorem checkPacketState_body_bit {bytes : List UInt8} {v j : ℕ} (hv : v < 2 ^ 8) (h : InByte m w bytes v j o) :
    checkPacketState (decoded o.1 (v.testBit j)) o.2 (v.testBit j).toNat =
      if j = 0 then processPacketByte (bodyBit o.1 v j)
      else ({ bodyBit o.1 v j with r15 := j - 1, r4 := 1 }, none) := by
  have hj := h.j_le
  have hbody : checkPacketState (decoded o.1 (v.testBit j)) o.2 (v.testBit j).toNat =
      body (decoded o.1 (v.testBit j)) := by
    simp only [checkPacketState, decoded, h.at_.r14]
  have hcollect := collect_bit (show v < 2 ^ 16 by omega) (show j ≤ 15 by omega)
  rw [hbody]
  simp only [body, bodyBit, decoded, h.at_.r15, h.r21, hcollect]
  split
  · rfl
  · rw [sub_of_le (by omega) (by omega)]

theorem processPacketByte_spec (hw : WritesAt m w) {bytes : List UInt8} {b : UInt8}
    (hlt : bytes.length < payloadLen + rxOtherPacketContentByte) {s : RxState} (hc : s.control = .nextBit)
    (h14 : s.r14 = 2) (h16 : s.r16 = payloadLen + rxOtherPacketContentByte) (h23 : s.r23 = bytes.length)
    (h20 : s.r20 = w + 2 + bytes.length) (h21 : s.r21 = b.toNat) (h25 : s.r25 < 256 ^ 2) :
    BehindByte m w (bytes ++ [b])
      ((processPacketByte s).1, applyStore (storeFrame m w bytes) (processPacketByte s).2) := by
  have hle := hw.le
  have hsize : frameSize = 100 := rfl
  have hlimit : bufferLimit = 6004 := rfl
  have htotal : payloadLen + rxOtherPacketContentByte = 98 := rfl
  have hlen : (bytes ++ [b]).length = bytes.length + 1 := by rw [List.length_append, List.length_singleton]
  have h23' : add s.r23 1 = bytes.length + 1 := by rw [h23, add_of_lt (by omega)]
  have h20' : add s.r20 1 = w + 2 + (bytes.length + 1) := by rw [h20, add_of_lt (by omega), Nat.add_assoc]
  have hst : storeReg s.r21 s.r20 1 = ⟨w + 2 + bytes.length, littleEndian 1 b.toNat⟩ := by rw [h21, h20]; rfl
  unfold BehindByte processPacketByte
  simp only [h23', h20', h16, hst, hlen]
  by_cases hmore : bytes.length + 1 < payloadLen + rxOtherPacketContentByte
  · have hwrap : wrapOffset (w + 2 + (bytes.length + 1)) = w + 2 + (bytes.length + 1) :=
      wrapOffset_of_lt (by omega)
    rw [if_pos hmore, if_neg (by omega), hwrap]
    refine ⟨⟨store_byte _ _ _ _, hc, rfl, h14, rfl, ?_, h25⟩, rfl, hlen.symm, ?_, rfl⟩
    · dsimp only
      omega
    · rw [hlen]
  · have hlast : w + 2 + (bytes.length + 1) = w + frameSize := by omega
    rw [if_neg hmore, if_pos (by omega), hlast]
    exact ⟨store_byte _ _ _ _, rfl, rfl, wrapOffset_lt, h25⟩

theorem takes_byte (hw : WritesAt m w) {bytes : List UInt8} (b : UInt8)
    (hlt : bytes.length < payloadLen + rxOtherPacketContentByte) :
    Takes rxSymbol (BehindByte m w bytes) (encode (msbBits 8 b.toNat)) (BehindByte m w (bytes ++ [b])) := by
  have hv := b.toNat_lt
  have hbits : Takes rxSymbol (InByte m w bytes b.toNat 7) (encode (msbBits 8 b.toNat))
      (BehindByte m w (bytes ++ [b])) := by
    refine takes_countdown (F := InByte m w bytes b.toNat)
      (fun j => takes_pair (fun o h => ⟨h.at_.control, h.at_.r4⟩) ?_)
      (takes_pair (fun o h => ⟨h.at_.control, h.at_.r4⟩) ?_) 7
    · intro o h pass hpass
      have hj := h.j_le
      rw [checkPacketState_body_bit hv h] at hpass
      rw [← hpass]
      exact ⟨⟨h.at_.mem, h.at_.control, rfl, h.at_.r14, rfl, ⟨h.at_.short.r20, h.at_.short.r25⟩⟩, by omega,
        h.r16, h.r23, h.r20, rfl⟩
    · intro o h pass hpass
      rw [checkPacketState_body_bit hv h, if_pos rfl] at hpass
      rw [← hpass, h.at_.mem]
      exact processPacketByte_spec (s := bodyBit o.1 b.toNat 0) hw hlt h.at_.control h.at_.r14 h.r16 h.r23 h.r20
        (highBits_zero _) h.at_.short.r25
  intro o ho
  rw [BehindByte, if_pos hlt] at ho
  refine hbits o ⟨ho.at_, le_rfl, ho.r16, ho.r23, ho.r20, ?_⟩
  rw [ho.r21, highBits_of_lt hv]

/-- **A whole body.** -/
theorem takes_body (hw : WritesAt m w) {bytes : List UInt8}
    (hlen : bytes.length = payloadLen + rxOtherPacketContentByte) :
    Takes rxSymbol (AtByte m w []) (encodeBytes bytes) (BodyDone m w bytes) := by
  have h := takes_bytes (F := BehindByte m w) _ (fun pre b hlt => takes_byte hw b hlt) bytes []
    (by rw [List.length_nil, Nat.zero_add, hlen])
  have hstart : BehindByte m w [] = AtByte m w [] := funext fun o => if_pos (show 0 < 98 by omega)
  have hdone : BehindByte m w bytes = BodyDone m w bytes := funext fun o => if_neg (by omega)
  rwa [List.nil_append, hstart, hdone] at h

/-- **A whole packet**, from any state of the search. -/
theorem run_packet {s : RxState} (h : InSearch s) (short : ShortWords s) (hw : WritesAt m w) {bytes : List UInt8}
    (hlen : bytes.length = payloadLen + rxOtherPacketContentByte) :
    ∃ u, Run rxSymbol (s, m) (syncSymbols ++ encode (msbBits 8 sfdValue) ++ encode (msbBits 16 payloadLen) ++
      encodeBytes bytes) u ∧ BodyDone m w bytes u := by
  have hsfd : SfdAt m 7 (preambleDone (counting s 24), m) :=
    ⟨⟨rfl, h.control, rfl, rfl, rfl, ⟨short.r20, short.r25⟩⟩, le_rfl⟩
  obtain ⟨u, hrun, hu⟩ := ((takes_sfd.trans (takes_length hw)).trans (takes_body hw hlen)) _ hsfd
  refine ⟨u, ?_, hu⟩
  rw [List.append_assoc, List.append_assoc, ← List.append_assoc (encode _)]
  exact (run_sync h).append hrun

end

end CiotVlc.Pru
