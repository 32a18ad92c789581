import CiotVlc.Pru.RxPru

/-! # Where the receiver firmware is in a frame

`RxAt w n s`: the firmware has stored `n` bytes of the frame at `w`. Before the first bytes it may be in
any state of the search, the SFD or the length; once it has stored the length word it can only go on
to the end of the frame, whatever symbols it receives.
-/
namespace CiotVlc.Pru
open Foundations.Bytes Foundations.Registers
set_option autoImplicit false

def frameSize : ℕ := 2 + payloadLen + rxOtherPacketContentByte

/-- Registers that are loaded as 16-bit words hold no more. -/
structure ShortWords (s : RxState) : Prop where
  r20 : s.r20 < 256 ^ 2
  r25 : s.r25 < 256 ^ 2

/-- In front of the body: nothing of the frame is stored. -/
structure Searching (s : RxState) : Prop where
  control : s.control = .nextBit
  state : s.r4 = 0 ∨ (s.r4 = 1 ∨ s.r4 = 2) ∧ (s.r14 = 0 ∨ s.r14 = 1)

/-- In the body, with `n` bytes of the frame at `w` stored. -/
structure InBody (w n : ℕ) (s : RxState) : Prop where
  control : s.control = .nextBit
  state : s.r4 = 1 ∨ s.r4 = 2
  r14 : s.r14 = 2
  r16 : s.r16 = payloadLen + rxOtherPacketContentByte
  r23 : s.r23 + 2 = n
  r20 : s.r20 = w + n
  lt : n < frameSize

/-- In the loop at `FINAL`, with the whole frame stored. -/
structure AtFinal (w : ℕ) (s : RxState) : Prop where
  control : s.control = .final
  r20 : s.r20 = wrapOffset (w + frameSize)

inductive RxAt (w : ℕ) : ℕ → RxState → Prop
  | search {s : RxState} (short : ShortWords s) (h : Searching s) : RxAt w 0 s
  | body {s : RxState} {n : ℕ} (short : ShortWords s) (h : InBody w n s) : RxAt w n s
  | final {s : RxState} (short : ShortWords s) (h : AtFinal w s) : RxAt w frameSize s

theorem RxAt.le {w n : ℕ} {s : RxState} (h : RxAt w n s) : n ≤ frameSize := by
  cases h with
  | search => exact Nat.zero_le _
  | body _ h => exact h.lt.le
  | final => exact le_rfl

/-- What a pass may do at this point of the frame: go on without storing, or store the bytes that come
next. The length word is stored whole. -/
def Advances (w n : ℕ) (s : RxState) (result : RxState × Option Store) : Prop :=
  (result.2 = none ∧ RxAt w n result.1) ∨
  ∃ bs, result.2 = some ⟨w + n, bs⟩ ∧ RxAt w (n + bs.length) result.1 ∧
    (n = 0 ∧ s.r14 = 1 ∧ bs = littleEndian 2 payloadLen ∨ n ≠ 0 ∧ s.r14 = 2 ∧ bs.length = 1)

section
variable {w n : ℕ} {s : RxState} {m : Memory}

theorem ShortWords.backToSearch (h : ShortWords s) (prev : ℕ) : ShortWords (backToSearch s prev) := ⟨h.r20, h.r25⟩

theorem searching_backToSearch (h : s.control = .nextBit) (prev : ℕ) : Searching (backToSearch s prev) :=
  ⟨h, Or.inl rfl⟩

theorem advances_backToSearch (short : ShortWords s) (h : s.control = .nextBit) (t : RxState) (prev : ℕ) :
    Advances w 0 t (backToSearch s prev, none) :=
  Or.inl ⟨rfl, .search (short.backToSearch prev) (searching_backToSearch h prev)⟩

theorem afterAddSymbol_at (short : ShortWords s) (h : s.control = .nextBit) (h4 : s.r4 = 0) (r7 : ℕ) :
    RxAt w 0 (afterAddSymbol s r7) := by
  unfold afterAddSymbol addPreamble
  dsimp only
  split
  · split
    · exact .search ⟨short.r20, short.r25⟩ ⟨h, Or.inr ⟨Or.inl rfl, Or.inl rfl⟩⟩
    · exact .search ⟨short.r20, short.r25⟩ ⟨h, Or.inl h4⟩
  · exact .search ⟨short.r20, short.r25⟩ ⟨h, Or.inl h4⟩

theorem preambleDetection_at (short : ShortWords s) (h : s.control = .nextBit) (h4 : s.r4 = 0) (r7 : ℕ) :
    RxAt w 0 (preambleDetection s r7) := by
  unfold preambleDetection
  split
  · refine afterAddSymbol_at ?_ ?_ ?_ r7
    exacts [⟨short.r20, short.r25⟩, h, h4]
  · refine afterAddSymbol_at ?_ ?_ ?_ r7
    exacts [⟨short.r20, short.r25⟩, h, h4]

theorem sfd_at (short : ShortWords s) (h : s.control = .nextBit) (h14 : s.r14 = 0) (r7 : ℕ) :
    RxAt w 0 (sfd s r7) := by
  unfold sfd
  dsimp only
  split
  · exact .search ⟨short.r20, short.r25⟩ ⟨h, Or.inl rfl⟩
  · split
    · exact .search ⟨short.r20, short.r25⟩ ⟨h, Or.inr ⟨Or.inl rfl, Or.inr rfl⟩⟩
    · exact .search ⟨short.r20, short.r25⟩ ⟨h, Or.inr ⟨Or.inl rfl, Or.inl h14⟩⟩

theorem wrapOffset_of_lt {offset : ℕ} (h : offset < bufferLimit) : wrapOffset offset = offset := if_pos h

theorem wrapOffset_lt {offset : ℕ} : wrapOffset offset < 256 ^ 2 := by
  have hlimit : bufferLimit = 6004 := rfl
  unfold wrapOffset
  split <;> omega

theorem processLength_advances (short : ShortWords s) (h : s.control = .nextBit) (hw : load m 0 2 = w)
    (hle : w + frameSize ≤ bufferLimit) {t : RxState} (ht : t.r14 = 1) :
    Advances w 0 t (processLength s m) := by
  have hsize : frameSize = 100 := rfl
  have hlimit : bufferLimit = 6004 := rfl
  unfold processLength
  split
  · exact advances_backToSearch short h t 0
  · next h16 =>
    rw [not_not] at h16
    have h20 : loadReg m s.r20 0 2 = w := by rw [loadReg_of_lt short.r20, hw]
    have hoff : wrapOffset (add w 2) = w + 2 := by
      rw [add_of_lt (by omega), wrapOffset_of_lt (by omega)]
    refine Or.inr ⟨littleEndian 2 payloadLen, ?_, ?_, Or.inl ⟨rfl, ht, rfl⟩⟩
    · rw [h20, h16]
      rfl
    · rw [littleEndian_length]
      refine .body ⟨wrapOffset_lt, short.r25⟩ ?_
      refine ⟨h, Or.inl rfl, rfl, by rw [h16]; rfl, rfl, ?_, by omega⟩
      dsimp only
      rw [h20, hoff]

theorem length_advances (short : ShortWords s) (h : s.control = .nextBit) (h14 : s.r14 = 1)
    (hw : load m 0 2 = w) (hle : w + frameSize ≤ bufferLimit) {t : RxState} (ht : t.r14 = 1) :
    Advances w 0 t (length s m) := by
  unfold length
  dsimp only
  split
  · refine processLength_advances ?_ ?_ hw hle ht
    exacts [⟨short.r20, short.r25⟩, h]
  · refine Or.inl ⟨rfl, .search ⟨short.r20, short.r25⟩ ?_⟩
    exact ⟨h, Or.inr ⟨Or.inl rfl, Or.inr h14⟩⟩

theorem processPacketByte_advances (short : ShortWords s) (h : InBody w n s) (hn : n ≠ 0)
    (hle : w + frameSize ≤ bufferLimit) {t : RxState} (ht : t.r14 = 2) :
    Advances w n t (processPacketByte s) := by
  have hsize : frameSize = 100 := rfl
  have hlimit : bufferLimit = 6004 := rfl
  have htotal : payloadLen + rxOtherPacketContentByte = 98 := rfl
  have hlt := h.lt
  have h23 := h.r23
  have h23' : add s.r23 1 = s.r23 + 1 := add_of_lt (by omega)
  have h20' : add s.r20 1 = w + n + 1 := by rw [h.r20, add_of_lt (by omega)]
  refine Or.inr ⟨littleEndian 1 s.r21, ?_, ?_, Or.inr ⟨hn, ht, littleEndian_length _ _⟩⟩
  · unfold processPacketByte
    dsimp only
    split
    · rw [h.r20]
      rfl
    · rw [h.r20]
      rfl
  · unfold processPacketByte
    dsimp only
    rw [littleEndian_length]
    split
    · next hdone =>
      have hlast : n + 1 = frameSize := by
        rw [h.r16, h23'] at hdone
        omega
      rw [hlast]
      refine .final ⟨wrapOffset_lt, short.r25⟩ ⟨rfl, ?_⟩
      rw [h20', Nat.add_assoc, hlast]
    · next hmore =>
      rw [h.r16, h23'] at hmore
      refine .body ⟨wrapOffset_lt, short.r25⟩ ?_
      refine ⟨h.control, Or.inl rfl, h.r14, h.r16, ?_, ?_, by omega⟩
      · dsimp only
        omega
      · rw [h20', wrapOffset_of_lt (by omega), Nat.add_assoc]

theorem body_advances (short : ShortWords s) (h : InBody w n s) (hn : n ≠ 0)
    (hle : w + frameSize ≤ bufferLimit) {t : RxState} (ht : t.r14 = 2) : Advances w n t (body s) := by
  unfold body
  dsimp only
  split
  · refine processPacketByte_advances ?_ ?_ hn hle ht
    · exact ⟨short.r20, short.r25⟩
    · exact ⟨h.control, h.state, h.r14, h.r16, h.r23, h.r20, h.lt⟩
  · refine Or.inl ⟨rfl, .body ⟨short.r20, short.r25⟩ ?_⟩
    exact ⟨h.control, Or.inl rfl, h.r14, h.r16, h.r23, h.r20, h.lt⟩

theorem checkPacketState_search (short : ShortWords s) (h : s.control = .nextBit) (h14 : s.r14 = 0 ∨ s.r14 = 1)
    (hw : load m 0 2 = w) (hle : w + frameSize ≤ bufferLimit) (r7 : ℕ) {t : RxState} (ht : t.r14 = s.r14) :
    Advances w 0 t (checkPacketState s m r7) := by
  rcases h14 with h14 | h14
  · simp only [checkPacketState, h14]
    exact Or.inl ⟨rfl, sfd_at short h h14 r7⟩
  · simp only [checkPacketState, h14]
    exact length_advances short h h14 hw hle (by rw [ht, h14])

theorem checkPacketState_body (short : ShortWords s) (h : InBody w n s) (hn : n ≠ 0)
    (hle : w + frameSize ≤ bufferLimit) (r7 : ℕ) {t : RxState} (ht : t.r14 = 2) :
    Advances w n t (checkPacketState s m r7) := by
  simp only [checkPacketState, h.r14]
  exact body_advances short h hn hle ht

/-- **One symbol.** Wherever the firmware is in the frame, it advances. -/
theorem rxBit_advances (h : RxAt w n s) (hc : s.control = .nextBit) (hw : load m 0 2 = w)
    (hle : w + frameSize ≤ bufferLimit) (r7 : ℕ) : Advances w n s (rxBit s m r7) := by
  cases h with
  | search short h =>
    rcases h.state with h4 | ⟨h4 | h4, h14⟩
    · rw [rxBit_search h4]
      exact Or.inl ⟨rfl, preambleDetection_at short h.control h4 r7⟩
    · rw [rxBit_first h4]
      exact Or.inl ⟨rfl, .search ⟨short.r20, short.r25⟩ ⟨h.control, Or.inr ⟨Or.inr rfl, h14⟩⟩⟩
    · rw [rxBit_second h4]
      unfold decodeOokSecond
      have hdecoded : ∀ bit : ℕ, Advances w 0 s (checkPacketState { s with r13 := bit } m r7) := by
        intro bit
        refine checkPacketState_search ?_ ?_ ?_ hw hle r7 rfl
        exacts [⟨short.r20, short.r25⟩, h.control, h14]
      split
      · exact hdecoded 1
      · split
        · exact hdecoded 0
        · split
          · exact hdecoded _
          · exact advances_backToSearch short h.control s r7
  | body short h =>
    have hn : n ≠ 0 := by
      have := h.r23
      omega
    rcases h.state with h4 | h4
    · rw [rxBit_first h4]
      refine Or.inl ⟨rfl, .body ⟨short.r20, short.r25⟩ ?_⟩
      exact ⟨h.control, Or.inr rfl, h.r14, h.r16, h.r23, h.r20, h.lt⟩
    · rw [rxBit_second h4]
      unfold decodeOokSecond
      have hdecoded : ∀ bit : ℕ, Advances w n s (checkPacketState { s with r13 := bit } m r7) := by
        intro bit
        refine checkPacketState_body ?_ ?_ hn hle r7 h.r14
        exacts [⟨short.r20, short.r25⟩, ⟨h.control, h.state, h.r14, h.r16, h.r23, h.r20, h.lt⟩]
      -- an invalid pair gives a made-up bit, never a return to the search
      have h14 : 1 < s.r14 := by
        rw [h.r14]
        omega
      split
      · exact hdecoded 1
      · split
        · exact hdecoded 0
        · exact hdecoded _
  | final short h =>
    rw [h.control] at hc
    cases hc

/-- **The loop at `FINAL`.** It waits while the read index is behind the frame, else it publishes the frame. -/
theorem rxFinal_spec (h : RxAt w n s) (hc : s.control = .final) :
    n = frameSize ∧
    (load m 2 2 = wrapOffset (w + frameSize) ∧ (rxFinal s m).2 = none ∧ RxAt w n (rxFinal s m).1 ∨
     load m 2 2 ≠ wrapOffset (w + frameSize) ∧
      (rxFinal s m).2 = some ⟨0, littleEndian 2 (wrapOffset (w + frameSize))⟩ ∧
      ∀ w', RxAt w' 0 (rxFinal s m).1) := by
  cases h with
  | search short h =>
    rw [h.control] at hc
    cases hc
  | body short h =>
    rw [h.control] at hc
    cases hc
  | final short h =>
    refine ⟨rfl, ?_⟩
    by_cases hfull : load m 2 2 = s.r20
    · rw [rxFinal_full short.r25 hfull, ← h.r20]
      exact Or.inl ⟨hfull, rfl, .final ⟨short.r20, load_lt m 2 2⟩ ⟨h.control, h.r20⟩⟩
    · rw [rxFinal_room short.r25 hfull, ← h.r20]
      exact Or.inr ⟨hfull, rfl, fun w' => .search ⟨short.r20, load_lt m 2 2⟩ ⟨rfl, Or.inl rfl⟩⟩

end

end CiotVlc.Pru
