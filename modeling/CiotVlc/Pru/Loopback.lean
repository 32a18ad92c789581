import CiotVlc.Pru.ReceiveRingSafe
import CiotVlc.Pru.RxDecode
import CiotVlc.Pru.TxReachable

/-! # The receiver decodes what the transmitter encodes

The transmitter is in any reachable state at the start of a separator, wherever the word stands; the
receiver is in any reachable state of the preamble search, with a ring that is not full.
-/
namespace CiotVlc.Pru
open Foundations.Bytes Foundations.Registers Foundations.BitPack Foundations.LineCode Foundations.FrameRing
  Foundations.Runs
set_option autoImplicit false

/-! ## The transmitter -/

/-- The symbols of the passes that follow: those in front of them in the current word were sent before. -/
def sentSymbols (t : TxState) (m : Memory) (passes : ℕ) : List Bool :=
  (getValues^[passes] ⟨t, m, []⟩).symbols.drop t.r1

/-- The passes of a packet up to its 98th body byte. -/
def packetPasses : ℕ := 52 + 8 * (payloadLen + rxOtherPacketContentByte)

section
variable {t : TxState} {m : Memory}

/-- A pass that ends in the separator leaves a short read index: the one just stored, or the old one. -/
theorem checkState_readIdx (hle : t.r2 ≤ 4) (h : t.r2 = 4 → t.r9 < 256 ^ 2)
    (h' : (checkState t m).1.r2 = 4) : (checkState t m).1.r9 < 256 ^ 2 := by
  rcases hr2 : t.r2 with _ | _ | _ | _ | _ | r2
  · simp only [checkState, hr2, preamble] at h'
    split at h'
    · split at h'
      · cases h'
      · exact absurd (hr2.symm.trans h') (by decide)
    · exact absurd (hr2.symm.trans h') (by decide)
  · simp only [checkState, hr2, txSfd] at h'
    split at h'
    · cases h'
    · cases h'
  · simp only [checkState, hr2, dataLength] at h'
    split at h'
    · cases h'
    · cases h'
  · simp only [checkState, hr2, dataOok, nextByte] at h' ⊢
    split at h'
    · next h7 =>
      rw [if_pos h7]
      split at h'
      · next hdone =>
        rw [if_pos hdone]
        exact packetDone_readIdx _
      · cases h'
    · cases h'
  · simp only [checkState, hr2, packetEnd] at h' ⊢
    split at h'
    · cases h'
    · next h7 =>
      rw [if_neg h7]
      exact h hr2
  · omega

theorem txStep_readIdx (hle : t.r2 ≤ 4) (h : t.r2 = 4 → t.r9 < 256 ^ 2) (loadGpoSh : Bool)
    (h' : (txStep t m loadGpoSh).state.r2 = 4) : (txStep t m loadGpoSh).state.r9 < 256 ^ 2 := by
  cases hc : t.control with
  | checkIndex =>
    simp only [txStep, hc, checkIndex] at h' ⊢
    split at h'
    · next hne =>
      rw [if_pos hne]
      exact loadReg_lt (h h') _ _
    · next heq =>
      rw [if_neg heq]
      split at h'
      · cases h'
      · next hreset =>
        rw [if_neg hreset]
        exact loadReg_lt (h h') _ _
  | shiftLoop =>
    simp only [txStep, hc, shiftLoop] at h' ⊢
    split at h' <;> exact h h'
  | getValue gpo =>
    have hpass : (getValuePass t m gpo).state.r2 = (checkState t m).1.r2 ∧
        (getValuePass t m gpo).state.r9 = (checkState t m).1.r9 := by
      unfold getValuePass
      dsimp only
      split
      · exact ⟨rfl, rfl⟩
      · split <;> exact ⟨rfl, rfl⟩
    simp only [txStep, hc] at h' ⊢
    rw [hpass.2]
    exact checkState_readIdx hle h (hpass.1.symm.trans h')
  | halted =>
    simp only [txStep, hc] at h' ⊢
    exact h h'

theorem readIdx_of_reachable (ht : Reachable txAnyStep txStart t) (h2 : t.r2 = 4) : t.r9 < 256 ^ 2 := by
  have h : TxSound t ∧ (t.r2 = 4 → t.r9 < 256 ^ 2) :=
    ht.invariant (P := fun t => TxSound t ∧ (t.r2 = 4 → t.r9 < 256 ^ 2)) ⟨txSound_start, fun h => by cases h⟩
      fun u input v hu hs => by
        cases hs
        exact ⟨txStep_sound hu.1 input.2, txStep_readIdx hu.1.aligned.r2_le hu.2 input.2⟩
  exact h.2 h2

/-- **What the transmitter sends** from the start of a separator on, whatever is in the current word. -/
theorem sentSymbols_eq (ht : Reachable txAnyStep txStart t) {gpo : Gpo} (hc : t.control = .getValue gpo)
    (h2 : t.r2 = 4) (h7 : t.r7 = 3) (hlen : load m t.r9 2 = payloadLen) :
    sentSymbols t m packetPasses =
      packetSymbols payloadLen (image m (t.r9 + 2) (payloadLen + rxOtherPacketContentByte)) := by
  have hsound := txSound_of_reachable ht
  obtain ⟨hr1, hr3⟩ := hsound.word gpo hc
  have hfilled : t.filled = t.r1 := by
    unfold TxState.filled
    rw [hc]
  have hodd := hsound.aligned.single (Or.inr h2)
  rw [hfilled, h7] at hodd
  have haligned : t.r1 % 2 = (TxPhase.separator 3).parity := by
    simp only [TxPhase.parity]
    omega
  have hat : OutAt m t.r9 (.separator 3) ⟨t, m, []⟩ :=
    ⟨⟨⟨gpo, hc⟩, hr1, hr3⟩, rfl, hsound.short, ⟨h2, h7, le_rfl, rfl⟩, haligned⟩
  have hn : payloadLen + rxOtherPacketContentByte < bodyBytes m t.r9 := by
    rw [bodyBytes, hlen]
    decide
  obtain ⟨-, hsymbols⟩ := sendsTo_packet (readIdx_of_reachable ht h2) hn _ hat
  have hstart : TxOut.symbols ⟨t, m, []⟩ = lsbBits t.r1 t.r3 := rfl
  rw [sentSymbols, packetPasses, hsymbols, hstart, hlen, List.drop_left' (lsbBits_length _ _)]

end

/-! ## The receiver -/

section
variable {s : RxState} {m : Memory}

/-- Whatever returns to the search starts it with counters in range. -/
def SearchInRange (s : RxState) : Prop := s.r4 = 0 → InSearch s

theorem inRange_of_ne {n : ℕ} (h : s.r4 = n) (hn : n ≠ 0) : SearchInRange s := fun h0 => absurd (h.symm.trans h0) hn

theorem inRange_backToSearch (hc : s.control = .nextBit) {prev : ℕ} (hprev : prev ≤ 1) :
    SearchInRange (backToSearch s prev) := fun _ => ⟨hc, rfl, show 1 ≤ 7 by omega, Nat.zero_le 2, hprev⟩

theorem preambleDetection_inRange (h : InSearch s) {r7 : ℕ} (h7 : r7 ≤ 1) :
    SearchInRange (preambleDetection s r7) := by
  have h8 := h.r8
  have h9 := h.r9
  cases hedge : expectedEdge s r7 with
  | false =>
    rw [preambleDetection_reset hedge]
    exact fun _ => ⟨h.control, h.r4, show 1 ≤ 7 by omega, Nat.zero_le 2, h7⟩
  | true =>
    by_cases hlt : s.r8 < 7
    · rw [preambleDetection_edge hedge hlt]
      exact fun _ => ⟨h.control, h.r4, hlt, h9, h7⟩
    · have hadd : add s.r9 1 = s.r9 + 1 := add_of_lt (by omega)
      have hlen : preambleLen = 3 := rfl
      rw [preambleDetection_preamble hedge (by omega)]
      simp only [addPreamble, hadd]
      split
      · exact inRange_of_ne (n := 1) rfl (by decide)
      · exact fun _ => ⟨h.control, h.r4, Nat.zero_le 7, show s.r9 + 1 ≤ 2 by omega, h7⟩

theorem sfd_inRange (hc : s.control = .nextBit) {r7 : ℕ} (h7 : r7 ≤ 1) : SearchInRange (sfd s r7) := by
  unfold sfd
  dsimp only
  split
  · refine inRange_backToSearch ?_ h7
    exact hc
  · split <;> exact inRange_of_ne (n := 1) rfl (by decide)

theorem processLength_inRange (hc : s.control = .nextBit) : SearchInRange (processLength s m).1 := by
  unfold processLength
  split
  · exact inRange_backToSearch hc (Nat.zero_le 1)
  · exact inRange_of_ne (n := 1) rfl (by decide)

theorem length_inRange (hc : s.control = .nextBit) : SearchInRange (length s m).1 := by
  unfold length
  dsimp only
  split
  · refine processLength_inRange ?_
    exact hc
  · exact inRange_of_ne (n := 1) rfl (by decide)

theorem body_inRange (h4 : s.r4 = 2) : SearchInRange (body s).1 := by
  unfold body
  dsimp only
  split
  · unfold processPacketByte
    dsimp only
    split
    · exact inRange_of_ne (n := 2) h4 (by decide)
    · exact inRange_of_ne (n := 1) rfl (by decide)
  · exact inRange_of_ne (n := 1) rfl (by decide)

theorem checkPacketState_inRange (hc : s.control = .nextBit) (h4 : s.r4 = 2) {r7 : ℕ} (h7 : r7 ≤ 1) :
    SearchInRange (checkPacketState s m r7).1 := by
  unfold checkPacketState
  split
  · exact sfd_inRange hc h7
  · exact length_inRange hc
  · exact body_inRange h4
  · exact inRange_of_ne (n := 2) h4 (by decide)
  · exact inRange_of_ne (n := 2) h4 (by decide)

theorem rxBit_inRange (hc : s.control = .nextBit) (h : SearchInRange s) (high : Bool) :
    SearchInRange (rxBit s m high.toNat).1 := by
  have h7 : high.toNat ≤ 1 := Bool.toNat_le high
  unfold rxBit
  split
  · next h4 => exact preambleDetection_inRange (h h4) h7
  · exact inRange_of_ne (n := 2) rfl (by decide)
  · next h4 =>
    have hdecoded : ∀ bit : ℕ, SearchInRange (checkPacketState { s with r13 := bit } m high.toNat).1 := by
      intro bit
      refine checkPacketState_inRange ?_ ?_ h7
      exacts [hc, h4]
    unfold decodeOokSecond
    split
    · exact hdecoded 1
    · split
      · exact hdecoded 0
      · split
        · exact hdecoded _
        · exact inRange_backToSearch hc h7
  · next h0 _ _ => exact fun h4 => absurd h4 h0

theorem rxFinal_inRange (h : SearchInRange s) (hc : s.control = .final) : SearchInRange (rxFinal s m).1 := by
  unfold rxFinal
  dsimp only
  split
  · intro h4
    have hsearch := (h h4).control
    rw [hc] at hsearch
    cases hsearch
  · exact fun _ => ⟨rfl, rfl, show 1 ≤ 7 by omega, Nat.zero_le 2, Nat.zero_le 1⟩

end

/-! ## The ring -/

section
variable {rxPru : Memory} {s : RxRing}

theorem ringStep_inRange {u : RxRing} {a : RingAction} (h : SearchInRange s.rx) (hs : ringStep s a = some u) :
    SearchInRange u.rx := by
  cases a with
  | symbol high =>
    simp only [ringStep, RxRing.pass] at hs
    split at hs
    · next hc =>
      cases hs
      exact rxBit_inRange hc h high
    · cases hs
  | final =>
    simp only [ringStep, RxRing.pass] at hs
    split at hs
    · next hc =>
      cases hs
      exact rxFinal_inRange h hc
    · cases hs
  | poll =>
    cases hs
    exact h

/-- What a reachable ring has when the firmware searches: counters in range, and room for a frame at
the write index. -/
structure SearchesAt (s : RxRing) (w : ℕ) : Prop where
  search : InSearch s.rx
  short : ShortWords s.rx
  writes : WritesAt s.mem w
  le : 4 ≤ w

theorem search_of_reachable (hs : Reachable ringStep (rxRingStart rxPru) s) (h4 : s.rx.r4 = 0) :
    SearchesAt s (load s.mem 0 2) := by
  have hrange : SearchInRange s.rx :=
    hs.invariant (P := fun s => SearchInRange s.rx)
      (fun _ => ⟨rfl, rfl, show 1 ≤ 7 by omega, Nat.zero_le 2, Nat.zero_le 1⟩) fun _ _ _ h h' => ringStep_inRange h h'
  obtain ⟨d, n, hinv⟩ := hs.elim fun _ => ringInv_run
  refine ⟨hrange h4, ?_, ⟨rfl, ?_⟩, ?_⟩
  · cases hinv.firmware.at_ with
    | search short => exact short
    | body short => exact short
    | final short => exact short
  · rw [hinv.writeWord]
    exact slot_add_le _
  · rw [hinv.writeWord]
    exact (onSlot_slot _).1

/-- The symbols that the firmware takes are steps of the ring. -/
theorem run_ring {xs : List Bool} {o : RxState × Memory} (h : Run rxSymbol (s.rx, s.mem) xs o) :
    ∃ u, Run ringStep s (xs.map .symbol) u ∧ u.rx = o.1 ∧ u.mem = o.2 := by
  induction h with
  | refl => exact ⟨s, .refl, rfl, rfl⟩
  | snoc _ hs ih =>
    next o o' high _ =>
    obtain ⟨u, hrun, hrx, hmem⟩ := ih
    simp only [rxSymbol] at hs
    split at hs
    · next hc =>
      cases hs
      refine ⟨u.received (rxBit u.rx u.mem high.toNat), ?_, ?_, ?_⟩
      · rw [List.map_append]
        refine hrun.snoc ?_
        simp only [ringStep, RxRing.pass, hrx, if_pos hc, Option.map_some]
      · rw [← hrx, ← hmem]
        rfl
      · rw [← hrx, ← hmem]
        rfl
    · cases hs

/-! ## Both together -/

/-- The ring takes these symbols as this frame: the search ends exactly at the last preamble symbol, and
behind the last symbol the frame is stored and published, and the search starts again. -/
structure Decodes (s : RxRing) (symbols : List Bool) (frame : List UInt8) : Prop where
  searches : ∀ k < 28, ∃ u, Run ringStep s ((symbols.take k).map .symbol) u ∧ u.rx.r4 = 0
  preambleDone : ∃ u, Run ringStep s ((symbols.take 28).map .symbol) u ∧ ∃ rx, u.rx = preambleDone rx
  delivers : ∃ u, Run ringStep s (symbols.map .symbol ++ [.final]) u ∧
    u.mem = store (store s.mem (load s.mem 0 2) frame) 0
      (littleEndian 2 (wrapOffset (load s.mem 0 2 + frame.length))) ∧
    ∃ rx, u.rx = { backToSearch rx 0 with control := .nextBit }

theorem packetSymbols_eq (body : List UInt8) : packetSymbols payloadLen body =
    syncSymbols ++ encode (msbBits 8 sfdValue) ++ encode (msbBits 16 payloadLen) ++ encodeBytes body := by
  have hsync : List.replicate 4 true ++ (List.replicate 3 (msbBits 8 preambleValue)).flatten = syncSymbols := by
    decide
  rw [packetSymbols, hsync]
  rfl

theorem packetSymbols_take (body : List UInt8) {k : ℕ} (hk : k ≤ 28) :
    (packetSymbols payloadLen body).take k = syncSymbols.take k := by
  have hlen : syncSymbols.length = 28 := by decide
  rw [packetSymbols_eq, List.append_assoc, List.append_assoc, List.take_append_of_le_length (by rw [hlen]; exact hk)]

theorem frame_eq {m : Memory} {a : ℕ} (h : load m a 2 = payloadLen) :
    littleEndian 2 payloadLen ++ image m (a + 2) (payloadLen + rxOtherPacketContentByte) = image m a frameSize := by
  have hword := littleEndian_ofLittleEndian (image m a 2)
  rw [image_length] at hword
  have hload : littleEndian 2 payloadLen = image m a 2 := by rw [← h, load, hword]
  rw [hload]
  exact (image_add m a 2 _).symm

theorem final_publishes {w : ℕ} (h : SearchesAt s w) {bytes : List UInt8} {u : RxRing}
    (hdone : BodyDone s.mem w bytes (u.rx, u.mem))
    (hroom : load s.mem 2 2 ≠ wrapOffset (w + frameSize)) :
    ∃ v, ringStep u .final = some v ∧
      v.mem = store (storeFrame s.mem w bytes) 0 (littleEndian 2 (wrapOffset (w + frameSize))) ∧
      ∃ rx, v.rx = { backToSearch rx 0 with control := .nextBit } := by
  have hmem : u.mem = storeFrame s.mem w bytes := hdone.mem
  have hcontrol : u.rx.control = .final := hdone.control
  have h20 : u.rx.r20 = wrapOffset (w + frameSize) := hdone.r20
  have hread : load u.mem 2 2 = load s.mem 2 2 := by
    rw [hmem]
    exact load_store_disjoint _ _ _ _ _ (Or.inl h.le)
  have hfinal := rxFinal_room (m := u.mem) hdone.short.r25 (by rw [hread, h20]; exact hroom)
  refine ⟨u.finished (rxFinal u.rx u.mem), ?_, ?_, ?_⟩
  · simp only [ringStep, RxRing.pass, if_pos hcontrol, Option.map_some]
  · rw [RxRing.finished, hfinal]
    rw [← hmem, ← h20]
    rfl
  · rw [RxRing.finished, hfinal]
    exact ⟨_, rfl⟩

/-- **The receiver decodes a packet.** -/
theorem decodes_packet (hs : Reachable ringStep (rxRingStart rxPru) s) (h4 : s.rx.r4 = 0)
    (hroom : load s.mem 2 2 ≠ wrapOffset (load s.mem 0 2 + frameSize)) {m : Memory} {a : ℕ}
    (hlen : load m a 2 = payloadLen) :
    Decodes s (packetSymbols payloadLen (image m (a + 2) (payloadLen + rxOtherPacketContentByte)))
      (image m a frameSize) := by
  have h := search_of_reachable hs h4
  set body := image m (a + 2) (payloadLen + rxOtherPacketContentByte) with hbody
  have hbodyLen : body.length = payloadLen + rxOtherPacketContentByte := image_length _ _ _
  refine ⟨fun k hk => ?_, ?_, ?_⟩
  · obtain ⟨rx, hrun, hr4⟩ := run_sync_search (m := s.mem) h.search hk
    obtain ⟨u, hring, hrx, -⟩ := run_ring hrun
    rw [packetSymbols_take body (by omega)]
    exact ⟨u, hring, by rw [hrx]; exact hr4⟩
  · obtain ⟨u, hring, hrx, -⟩ := run_ring (run_sync (m := s.mem) h.search)
    rw [packetSymbols_take body le_rfl]
    exact ⟨u, hring, _, hrx⟩
  · obtain ⟨⟨rx, mem⟩, hrun, hdone⟩ := run_packet h.search h.short h.writes hbodyLen
    obtain ⟨u, hring, rfl, rfl⟩ := run_ring hrun
    rw [← packetSymbols_eq] at hring
    obtain ⟨v, hstep, hmem, hrx⟩ := final_publishes h hdone hroom
    refine ⟨v, hring.snoc hstep, ?_, hrx⟩
    rw [hmem, image_length, storeFrame, frame_eq hlen]

/-- **What the transmitter encodes, the receiver decodes**: from every state in which the transmitter starts
a separator and the receiver searches, whatever the packet, the word alignment and the counters are. -/
theorem rx_decodes_tx {t : TxState} (ht : Reachable txAnyStep txStart t) {gpo : Gpo}
    (hc : t.control = .getValue gpo) (h2 : t.r2 = 4) (h7 : t.r7 = 3) {m : Memory}
    (hlen : load m t.r9 2 = payloadLen) (hs : Reachable ringStep (rxRingStart rxPru) s) (h4 : s.rx.r4 = 0)
    (hroom : load s.mem 2 2 ≠ wrapOffset (load s.mem 0 2 + frameSize)) :
    Decodes s (sentSymbols t m packetPasses) (image m t.r9 frameSize) := by
  rw [sentSymbols_eq ht hc h2 h7 hlen]
  exact decodes_packet hs h4 hroom hlen

end

def emptyPacket : Memory := store (fun _ => 0) 0 (littleEndian 2 104 ++ littleEndian 2 4)

/-- The transmitter behind that packet, in the middle of a word. -/
def behindEmptyPacket : TxState where
  r1 := 8
  r2 := 4
  r3 := 85
  r5 := true
  r7 := 3
  r9 := 50
  r10 := 0
  r12 := 44
  r15 := 44
  r16 := 0
  r18 := 0
  r25 := 104
  r26 := true
  r27 := false
  control := .getValue .sh0

theorem behindEmptyPacket_reachable : Reachable txAnyStep txStart behindEmptyPacket := by
  refine ⟨(List.range 451).map fun i => (emptyPacket, i % 2 == 0), run_of_exec ?_⟩
  decide +kernel

/-- A packet behind it, into an empty ring. -/
theorem rx_decodes_tx_empty_ring :
    let m := store (fun a => UInt8.ofNat a) 50 (littleEndian 2 payloadLen)
    Decodes (rxRingStart fun _ => 0) (sentSymbols behindEmptyPacket m packetPasses) (image m 50 frameSize) :=
  rx_decodes_tx behindEmptyPacket_reachable rfl rfl rfl (by decide +kernel) (.refl _ _) rfl (by decide +kernel)

end CiotVlc.Pru
