import CiotVlc.Kernel.Transparency
import CiotVlc.Pru.ReceiveRingSafe
import CiotVlc.Pru.TransmitRing

/-! # When the transmit ring stays in lockstep

The driver stores a hundred bytes for a packet, the firmware encodes a hundred and twenty: its
`SEQ_NUMBER_LENGTH` is 24. Up to the first `PACKET_DONE` nothing is lost, and the first one puts the read index
twenty bytes behind the frame.
-/
namespace CiotVlc.Pru
open Foundations.Bytes Foundations.Registers Foundations.FrameRing Foundations.Runs
open CiotVlc.Kernel (ReedSolomon PacketData VlcPacket Holds TxDriver vlcTx phyTimerHandler writeNext
  writePacketToPruMemory writePacketToPruMemory_eq oneWordCodec onePacket eccLen ringStart)
set_option autoImplicit false

/-! ## The firmware before its first packet ends -/

/-- Where the firmware is in the packet at the start of the ring, by its read index. -/
def FirstPacketAt (t : TxState) : Prop :=
  (t.r2 = 0 ∨ t.r2 = 1) ∧ t.r9 = 4 ∨
  t.r2 = 2 ∧ t.r9 = 6 ∧ t.r10 = payloadLen ∨
  t.r2 = 3 ∧ t.r9 = 7 + t.r15 ∧ t.r12 = payloadLen + txOtherPacketContentByte ∧ t.r15 < t.r12

/-- In the main loop behind `CHECK_INDEX`, on the first packet. -/
structure OnFirstPacket (t : TxState) : Prop where
  control : t.control = .shiftLoop ∨ ∃ gpo, t.control = .getValue gpo
  r26 : t.r26 = false
  short : t.r10 < 256 ^ 2
  at_ : FirstPacketAt t

/-- Waiting at `CHECK_INDEX` for the first packet. -/
structure WaitsForPacket (t : TxState) : Prop where
  control : t.control = .checkIndex
  r2 : t.r2 = 0
  r9 : t.r9 < 256 ^ 2
  r10 : t.r10 < 256 ^ 2
  r25 : t.r25 < 256 ^ 2

section
variable {t : TxState} {m : Memory}

/-- What a pass of `GETVALUE` leaves on the first packet. -/
structure FirstPass (t : TxState) (result : TxState × Option Store) : Prop where
  store : result.2 = none
  control : result.1.control = t.control
  r26 : result.1.r26 = t.r26
  short : result.1.r10 < 256 ^ 2
  at_ : FirstPacketAt result.1

theorem preamble_first (h2 : t.r2 = 0) (h9 : t.r9 = 4) (short : t.r10 < 256 ^ 2) :
    FirstPass t (preamble t, none) := by
  unfold preamble
  dsimp only
  split
  · split
    · exact ⟨rfl, rfl, rfl, short, Or.inl ⟨Or.inr rfl, h9⟩⟩
    · exact ⟨rfl, rfl, rfl, short, Or.inl ⟨Or.inl h2, h9⟩⟩
  · exact ⟨rfl, rfl, rfl, short, Or.inl ⟨Or.inl h2, h9⟩⟩

theorem txSfd_first (h2 : t.r2 = 1) (h9 : t.r9 = 4) (short : t.r10 < 256 ^ 2) (hlen : load m 4 2 = payloadLen) :
    FirstPass t (txSfd t m, none) := by
  unfold txSfd
  dsimp only
  split
  · have h10 : loadReg m t.r10 t.r9 2 = payloadLen := by rw [loadReg_of_lt short, h9, hlen]
    have h9' : add t.r9 2 = 6 := by rw [h9, add_of_lt (by omega)]
    exact ⟨rfl, rfl, rfl, loadReg_lt short _ _, Or.inr (Or.inl ⟨rfl, h9', h10⟩)⟩
  · exact ⟨rfl, rfl, rfl, short, Or.inl ⟨Or.inr h2, h9⟩⟩

theorem dataLength_first (h2 : t.r2 = 2) (h9 : t.r9 = 6) (h10 : t.r10 = payloadLen) :
    FirstPass t (dataLength t m, none) := by
  have hlen : payloadLen = 74 := rfl
  have hother : txOtherPacketContentByte = 44 := rfl
  have short : t.r10 < 256 ^ 2 := by omega
  unfold dataLength
  dsimp only
  split
  · have h9' : add t.r9 1 = 7 + 0 := by rw [h9, add_of_lt (by omega)]
    have h12 : add t.r10 txOtherPacketContentByte = payloadLen + txOtherPacketContentByte := by
      rw [h10, add_of_lt (by omega)]
    refine ⟨rfl, rfl, rfl, short, Or.inr (Or.inr ⟨rfl, h9', h12, ?_⟩)⟩
    change 0 < add t.r10 txOtherPacketContentByte
    omega
  · exact ⟨rfl, rfl, rfl, short, Or.inr (Or.inl ⟨h2, h9, h10⟩)⟩

theorem dataOok_first (h2 : t.r2 = 3) (h9 : t.r9 = 7 + t.r15) (h12 : t.r12 = payloadLen + txOtherPacketContentByte)
    (h15 : t.r15 < t.r12) (short : t.r10 < 256 ^ 2) (hmore : ¬ (t.r7 = 0 ∧ add t.r15 1 = t.r12)) :
    FirstPass t (dataOok t m) := by
  have htotal : payloadLen + txOtherPacketContentByte = 118 := rfl
  have h15' : add t.r15 1 = t.r15 + 1 := add_of_lt (by omega)
  by_cases h7 : t.r7 = 0
  · have hne : add t.r15 1 ≠ t.r12 := fun h => hmore ⟨h7, h⟩
    have hnext : nextByte t m = ({ t with
        r7 := 7, r15 := add t.r15 1, r16 := loadReg m t.r16 t.r9 1, r9 := add t.r9 1 }, none) := if_neg hne
    have heq : dataOok t m = (encodeBit (nextByte t m).1 (lsr t.r16 t.r7), (nextByte t m).2) := if_pos h7
    have h9' : add t.r9 1 = 7 + add t.r15 1 := by rw [h9, h15', add_of_lt (by omega), Nat.add_assoc]
    rw [hnext] at heq
    rw [heq]
    refine ⟨rfl, rfl, rfl, short, Or.inr (Or.inr ⟨h2, h9', h12, ?_⟩)⟩
    change add t.r15 1 < t.r12
    omega
  · have heq : dataOok t m = (encodeBit { t with r7 := sub t.r7 1 } (lsr t.r16 t.r7), none) := if_neg h7
    rw [heq]
    exact ⟨rfl, rfl, rfl, short, Or.inr (Or.inr ⟨h2, h9, h12, h15⟩)⟩

/-- The pass that ends the first packet stores an index twenty bytes behind its frame. -/
theorem dataOok_done (h9 : t.r9 = 7 + t.r15) (h12 : t.r12 = payloadLen + txOtherPacketContentByte)
    (h15 : t.r15 < t.r12) (h7 : t.r7 = 0) (hdone : add t.r15 1 = t.r12) :
    (dataOok t m).2 = some ⟨2, littleEndian 2 124⟩ := by
  have htotal : payloadLen + txOtherPacketContentByte = 118 := rfl
  have h15' : add t.r15 1 = t.r15 + 1 := add_of_lt (by omega)
  have hr9 : t.r9 = 124 := by omega
  have hnext : nextByte t m = packetDone { t with r7 := 7, r15 := add t.r15 1 } := if_pos hdone
  have heq : dataOok t m = (encodeBit (nextByte t m).1 (lsr t.r16 t.r7), (nextByte t m).2) := if_pos h7
  rw [heq, hnext]
  change some (storeReg (if txBufferLimit > t.r9 then t.r9 else 4) 2 2) = _
  rw [hr9]
  rfl

theorem checkState_first (h : OnFirstPacket t) (hlen : load m 4 2 = payloadLen)
    (hmore : ¬ (t.r2 = 3 ∧ t.r7 = 0 ∧ add t.r15 1 = t.r12)) : FirstPass t (checkState t m) := by
  rcases h.at_ with ⟨h2 | h2, h9⟩ | ⟨h2, h9, h10⟩ | ⟨h2, h9, h12, h15⟩
  · simp only [checkState, h2]
    exact preamble_first h2 h9 h.short
  · simp only [checkState, h2]
    exact txSfd_first h2 h9 h.short hlen
  · simp only [checkState, h2]
    exact dataLength_first h2 h9 h10
  · simp only [checkState, h2]
    exact dataOok_first h2 h9 h12 h15 h.short fun hdone => hmore ⟨h2, hdone⟩

/-! ### Steps of the firmware -/

theorem getValuePass_first (h : OnFirstPacket t) {gpo : Gpo} (hc : t.control = .getValue gpo)
    (hlen : load m 4 2 = payloadLen) (hmore : ¬ FinishesPacket t) :
    (getValuePass t m gpo).store = none ∧ OnFirstPacket (getValuePass t m gpo).state := by
  have hpass := checkState_first h hlen fun hdone => hmore ⟨⟨gpo, hc⟩, hdone⟩
  generalize hcheck : checkState t m = pass at hpass
  obtain ⟨u, st⟩ := pass
  have hcu : u.control = .getValue gpo := hpass.control.trans hc
  have hr26 : u.r26 = false := hpass.r26.trans h.r26
  by_cases hfull : u.r1 = 16
  · have heq : getValuePass t m gpo = ⟨{ u with control := returnTo u gpo }, st, some (u.r3 % 2 ^ 16)⟩ := by
      simp only [getValuePass, hcheck, hcu, reduceCtorEq, if_false, if_neg (not_not.mpr hfull)]
    have hreturn : returnTo u gpo = .shiftLoop := by
      cases gpo with
      | sh0 => simp only [returnTo, hr26, Bool.false_eq_true, if_false]
      | sh1 => rfl
    rw [heq]
    exact ⟨hpass.store, Or.inl hreturn, hr26, hpass.short, hpass.at_⟩
  · have heq : getValuePass t m gpo = ⟨u, st, none⟩ := by
      simp only [getValuePass, hcheck, hcu, reduceCtorEq, if_false, if_pos hfull]
    rw [heq]
    exact ⟨hpass.store, Or.inr ⟨gpo, hcu⟩, hr26, hpass.short, hpass.at_⟩

theorem txStep_first (h : OnFirstPacket t) (hlen : load m 4 2 = payloadLen) (hmore : ¬ FinishesPacket t)
    (loadGpoSh : Bool) : (txStep t m loadGpoSh).store = none ∧ OnFirstPacket (txStep t m loadGpoSh).state := by
  rcases h.control with hc | ⟨gpo, hc⟩
  · simp only [txStep, hc, shiftLoop]
    refine ⟨trivial, ?_⟩
    split
    · exact ⟨Or.inr ⟨.sh0, rfl⟩, h.r26, h.short, h.at_⟩
    · exact ⟨Or.inr ⟨.sh1, rfl⟩, h.r26, h.short, h.at_⟩
    · exact h
  · simp only [txStep, hc]
    exact getValuePass_first h hc hlen hmore

theorem txStep_done (h : OnFirstPacket t) (hdone : FinishesPacket t) (loadGpoSh : Bool) :
    (txStep t m loadGpoSh).store = some ⟨2, littleEndian 2 124⟩ := by
  obtain ⟨⟨gpo, hc⟩, h2, h7, hlast⟩ := hdone
  have hstore : (getValuePass t m gpo).store = (checkState t m).2 := by
    unfold getValuePass
    dsimp only
    split
    · rfl
    · split <;> rfl
  simp only [txStep, hc, hstore, checkState, h2]
  rcases h.at_ with ⟨h2' | h2', -⟩ | ⟨h2', -⟩ | ⟨-, h9, h12, h15⟩
  · omega
  · omega
  · omega
  · exact dataOok_done h9 h12 h15 h7 hlast

theorem txStep_waits (h : WaitsForPacket t) (hread : load m 2 2 = 4) (loadGpoSh : Bool) :
    (txStep t m loadGpoSh).store = none ∧
      (load m 0 2 = 4 ∧ WaitsForPacket (txStep t m loadGpoSh).state ∨
        load m 0 2 ≠ 4 ∧ OnFirstPacket (txStep t m loadGpoSh).state) := by
  have h25 : loadReg m t.r25 0 2 = load m 0 2 := loadReg_of_lt h.r25 m 0
  have h9 : loadReg m t.r9 2 2 = 4 := by rw [loadReg_of_lt h.r9, hread]
  have h25lt := load_lt m 0 2
  simp only [txStep, h.control, checkIndex, h25, h9]
  refine ⟨trivial, ?_⟩
  by_cases hne : 4 ≠ load m 0 2
  · rw [if_pos hne]
    exact Or.inr ⟨hne.symm, Or.inl rfl, rfl, h.r10, Or.inl ⟨Or.inl h.r2, rfl⟩⟩
  · rw [if_neg hne]
    refine Or.inl ⟨(not_not.mp hne).symm, ?_⟩
    split
    · exact ⟨rfl, rfl, show 4 < 256 ^ 2 by omega, h.r10, h25lt⟩
    · exact ⟨rfl, h.r2, show 4 < 256 ^ 2 by omega, h.r10, h25lt⟩

end

/-! ## The driver -/

/-- A buffer that holds a packet with the payload length of the gateway. -/
def HoldsPacket (data : PacketData) : Prop :=
  ∃ p : VlcPacket, Holds data p.bytes ∧ p.payload.length = Kernel.payloadLen

theorem dummyData_holds : HoldsPacket dummyData :=
  ⟨dummyPacket, image_store _ _ _, List.length_replicate⟩

/-- The driver and the ring with `p` published frames, none of them released. -/
structure Unreleased (mem : Memory) (driver : TxDriver) (p : ℕ) : Prop where
  le : p ≤ 59
  readWord : load mem 2 2 = 4
  writeWord : load mem 0 2 = frameRing.slot p
  first : 0 < p ∨ driver.isWriteNext = false → load mem 4 2 = payloadLen
  writeIdx : driver.isWriteNext = false → driver.writeIdx = frameRing.slot (p + 1)
  queue : ∀ d ∈ driver.txQueue, HoldsPacket d
  dummy : HoldsPacket driver.vlcQPkt

section
variable {rs : ReedSolomon} {mem : Memory} {driver : TxDriver} {p : ℕ}

theorem writeIdx_slot (k : ℕ) :
    (if (frameRing.slot k + 100) % 2 ^ 16 ≥ Kernel.bufferLimit then ringStart
      else (frameRing.slot k + 100) % 2 ^ 16) = frameRing.slot (k + 1) :=
  nextReadIdx_slot k

theorem write_packet {data : PacketData} (hdata : HoldsPacket data) (mem : Memory) (w : ℕ) :
    ∃ data' frame, HoldsPacket data' ∧ frame.take 2 = littleEndian 2 payloadLen ∧
      writePacketToPruMemory rs data mem w = (data', store mem w frame, (w + 100) % 2 ^ 16) ∧
      (Kernel.packetLength (load data 0 2) + eccLen) % 2 ^ 16 = 100 := by
  obtain ⟨pkt, hholds, hlen⟩ := hdata
  obtain ⟨data', hkeep, hwrite⟩ :=
    @writePacketToPruMemory_eq rs data pkt hholds (by rw [hlen]; decide) mem w
  have hframe : (pkt.frame rs).length = 100 := by
    rw [VlcPacket.frame_length, hlen]
    rfl
  rw [hframe] at hwrite
  refine ⟨data', pkt.frame rs, ⟨pkt, hkeep, hlen⟩, ?_, hwrite, ?_⟩
  · simp only [VlcPacket.frame, VlcPacket.bytes, VlcPacket.header, List.append_assoc]
    rw [List.take_left' (littleEndian_length _ _), hlen]
    rfl
  · rw [hholds.load_length (by rw [hlen]; decide), hlen]
    rfl

theorem Unreleased.write (h : Unreleased mem driver p) {frame : List UInt8}
    (hword : frame.take 2 = littleEndian 2 payloadLen) {queue : List PacketData} {dummy : PacketData}
    (hqueue : ∀ d ∈ queue, HoldsPacket d) (hdummy : HoldsPacket dummy) :
    Unreleased (store mem (frameRing.slot p) frame)
      { driver with
        txQueue := queue
        vlcQPkt := dummy
        writeIdx := frameRing.slot (p + 1)
        isWriteNext := false } p := by
  have hslot := onSlot_slot p
  have hfront : ∀ a, a + 2 ≤ 4 → load (store mem (frameRing.slot p) frame) a 2 = load mem a 2 := fun a ha =>
    load_store_disjoint _ _ _ _ _ (Or.inl (ha.trans hslot.1))
  refine ⟨h.le, (hfront 2 le_rfl).trans h.readWord, (hfront 0 (by omega)).trans h.writeWord, fun _ => ?_,
    fun _ => rfl, hqueue, hdummy⟩
  rcases Nat.eq_zero_or_pos p with rfl | hpos
  · exact load_store_front hword (by decide) mem 4
  · have hle := h.le
    have hapart := RingShape.slot_disjoint (R := frameRing) hpos (show p < 0 + 60 by omega)
    have hzero : frameRing.slot 0 = 4 := rfl
    have hsize : frameRing.size = 100 := rfl
    have hbase := hslot.1
    rw [load_store_disjoint _ _ _ _ _ (by omega)]
    exact h.first (Or.inl hpos)

/-- **The first half of a tick.** -/
theorem writeNext_spec {s : TxRing} (h : Unreleased s.mem s.driver p) (hnext : s.driver.isWriteNext = true) :
    (s.nextFrame rs).length = 100 ∧ (writeNext rs s.driver s.mem).1.isWriteNext = false ∧
      Unreleased (writeNext rs s.driver s.mem).2 (writeNext rs s.driver s.mem).1 p := by
  have hwrite := h.writeWord
  cases hqueue : s.driver.txQueue with
  | nil =>
    obtain ⟨data', frame, hkeep, hword, hstore, hsize⟩ := @write_packet rs _ h.dummy s.mem (frameRing.slot p)
    have heq : writeNext rs s.driver s.mem = ({ s.driver with
        vlcQPkt := data', writeIdx := frameRing.slot (p + 1), isWriteNext := false },
        store s.mem (frameRing.slot p) frame) := by
      simp only [writeNext, hnext, if_true, hqueue, Kernel.writeIdxOffset, hwrite, hstore, writeIdx_slot]
    refine ⟨?_, ?_, ?_⟩
    · simp only [TxRing.nextFrame, image_length, hqueue, List.headD_nil, hsize]
    · rw [heq]
    · rw [heq]
      exact h.write hword (by rw [hqueue]; exact fun d hd => absurd hd List.not_mem_nil) hkeep
  | cons pkt rest =>
    have hrest : ∀ d ∈ pkt :: rest, HoldsPacket d := by
      rw [← hqueue]
      exact h.queue
    obtain ⟨data', frame, hkeep, hword, hstore, hsize⟩ :=
      @write_packet rs _ (hrest pkt List.mem_cons_self) s.mem (frameRing.slot p)
    have heq : writeNext rs s.driver s.mem = ({ s.driver with
        txQueue := rest, writeIdx := frameRing.slot (p + 1), isWriteNext := false },
        store s.mem (frameRing.slot p) frame) := by
      simp only [writeNext, hnext, if_true, hqueue, Kernel.writeIdxOffset, hwrite, hstore, writeIdx_slot]
    refine ⟨?_, ?_, ?_⟩
    · simp only [TxRing.nextFrame, image_length, hqueue, List.headD_cons, hsize]
    · rw [heq]
    · rw [heq]
      exact h.write hword (fun d hd => hrest d (List.mem_cons_of_mem _ hd)) h.dummy

/-- **The second half**: the frame is published, unless its end is where the firmware reads. -/
theorem Unreleased.publish (h : Unreleased mem driver p) (hnext : driver.isWriteNext = false) :
    (frameRing.slot (p + 1) = 4 ∧ Unreleased mem { driver with readIdx := 4 } p) ∨
      frameRing.slot (p + 1) ≠ 4 ∧ Unreleased (store mem 0 (littleEndian 2 (frameRing.slot (p + 1))))
        { driver with readIdx := 4, isWriteNext := true } (p + 1) := by
  by_cases hfull : frameRing.slot (p + 1) = 4
  · exact Or.inl ⟨hfull, h.le, h.readWord, h.writeWord, h.first, h.writeIdx, h.queue, h.dummy⟩
  · have hbehind : ∀ a, 2 ≤ a →
        load (store mem 0 (littleEndian 2 (frameRing.slot (p + 1)))) a 2 = load mem a 2 := fun a ha =>
      load_store_disjoint _ _ _ _ _ (Or.inr (by rw [littleEndian_length]; omega))
    have hle : p + 1 ≤ 59 := by
      by_contra hgt
      have hp := h.le
      have hlast : p = 59 := by omega
      rw [hlast] at hfull
      exact hfull rfl
    exact Or.inr ⟨hfull, hle, (hbehind 2 le_rfl).trans h.readWord, load_index mem 0 (p + 1),
      fun _ => (hbehind 4 (by omega)).trans (h.first (Or.inr hnext)), (fun hn => by cases hn), h.queue, h.dummy⟩

end

/-! ## The invariant -/

/-- Up to the first `PACKET_DONE`. -/
structure BeforeFirstDone (s : TxRing) : Prop where
  filled : Unreleased s.mem s.driver s.published.length
  frames : ∀ f ∈ s.published, f.length = 100
  written : s.driver.isWriteNext = false → s.written.length = 100
  encoded : s.encoded = []
  firmware : WaitsForPacket s.tx ∨ 0 < s.published.length ∧ OnFirstPacket s.tx

section
variable {rs : ReedSolomon} {s : TxRing}

theorem beforeFirstDone_start (pru : Memory) : BeforeFirstDone (txRingStart pru) where
  filled := by
    have hwords := image_store pru 0 (littleEndian 2 ringStart ++ littleEndian 2 ringStart)
    obtain ⟨hwrite, hread⟩ := image_append_iff.mp hwords
    refine ⟨Nat.zero_le 59, congrArg ofLittleEndian hread, congrArg ofLittleEndian hwrite, fun h => ?_,
      (fun h => by cases h), fun d hd => absurd hd List.not_mem_nil, dummyData_holds⟩
    rcases h with h | h
    · exact absurd h (lt_irrefl 0)
    · cases h
  frames := fun f hf => absurd hf List.not_mem_nil
  written := fun h => by cases h
  encoded := rfl
  firmware := Or.inl ⟨rfl, rfl, show 0 < 256 ^ 2 by decide, show 0 < 256 ^ 2 by decide, show 0 < 256 ^ 2 by decide⟩

theorem BeforeFirstDone.lockstep (h : BeforeFirstDone s) : Lockstep s where
  readIdx := by
    rw [h.filled.readWord, h.encoded]
    rfl
  encodes := by
    rw [h.encoded]
    exact List.nil_prefix
  empty := by
    intro heq
    have hle := h.filled.le
    rw [h.filled.readWord, h.filled.writeWord] at heq
    rw [h.encoded]
    exact (RingShape.slot_eq_iff (R := frameRing) (Nat.zero_le _) (show _ < 0 + 60 by omega)).mp heq

theorem ticked_eq {driver : TxDriver} {mem : Memory} {p : ℕ} (hw : writeNext rs s.driver s.mem = (driver, mem))
    (h : Unreleased mem driver p) (hnext : driver.isWriteNext = false) :
    let written := if s.driver.isWriteNext then s.nextFrame rs else s.written
    s.ticked rs =
      if frameRing.slot (p + 1) = 4 then { s with driver := { driver with readIdx := 4 }, mem, written }
      else { s with
        driver := { driver with readIdx := 4, isWriteNext := true }
        mem := store mem 0 (littleEndian 2 (frameRing.slot (p + 1)))
        written
        published := s.published ++ [written] } := by
  have hread : load mem Kernel.readIdxOffset 2 = 4 := h.readWord
  have hwrite := h.writeIdx hnext
  simp only [TxRing.ticked, phyTimerHandler, hw, hread, hwrite, hnext]
  by_cases hfull : frameRing.slot (p + 1) = 4
  · rw [if_pos hfull, if_neg (not_not.mpr hfull.symm)]
    simp only [Bool.false_eq_true, if_false]
  · rw [if_neg hfull, if_pos (Ne.symm hfull)]
    simp only [if_true, Kernel.writeIdxOffset]

theorem BeforeFirstDone.tick (h : BeforeFirstDone s) : BeforeFirstDone (s.ticked rs) := by
  -- the driver and the memory behind the first half, and the bytes of the last write
  obtain ⟨driver, mem, hw, hmid, hnext, hwritten⟩ : ∃ driver mem, writeNext rs s.driver s.mem = (driver, mem) ∧
      Unreleased mem driver s.published.length ∧ driver.isWriteNext = false ∧
      (if s.driver.isWriteNext then s.nextFrame rs else s.written).length = 100 := by
    cases hflag : s.driver.isWriteNext with
    | true =>
      obtain ⟨hlen, hnext, hmid⟩ := @writeNext_spec rs _ _ h.filled hflag
      exact ⟨_, _, rfl, hmid, hnext, hlen⟩
    | false =>
      have hskip : writeNext rs s.driver s.mem = (s.driver, s.mem) := by
        simp only [writeNext, hflag, Bool.false_eq_true, if_false]
      exact ⟨_, _, hskip, h.filled, hflag, h.written hflag⟩
  rw [ticked_eq hw hmid hnext]
  rcases hmid.publish hnext with ⟨hfull, hfilled⟩ | ⟨hfull, hfilled⟩
  · rw [if_pos hfull]
    exact ⟨hfilled, h.frames, fun _ => hwritten, h.encoded, h.firmware⟩
  · rw [if_neg hfull]
    refine ⟨?_, ?_, (fun hn => by cases hn), h.encoded, ?_⟩
    · rw [List.length_append, List.length_singleton]
      exact hfilled
    · intro f hf
      rcases List.mem_append.mp hf with hf | hf
      · exact h.frames f hf
      · rw [List.mem_singleton.mp hf]
        exact hwritten
    · refine h.firmware.imp id fun hfirst => ⟨?_, hfirst.2⟩
      rw [List.length_append, List.length_singleton]
      exact Nat.succ_pos _

theorem BeforeFirstDone.vlcTx (h : BeforeFirstDone s) (p : QueuedPacket) :
    BeforeFirstDone { s with driver := Kernel.vlcTx s.driver p.data } := by
  obtain ⟨hle, hread, hwrite, hfirst, hidx, hqueue, hdummy⟩ := h.filled
  refine ⟨⟨hle, hread, hwrite, hfirst, hidx, fun d hd => ?_, hdummy⟩, h.frames, h.written, h.encoded, h.firmware⟩
  rcases List.mem_append.mp hd with hd | hd
  · exact hqueue d hd
  · rw [List.mem_singleton.mp hd]
    exact ⟨p.packet, p.holds, p.length_eq⟩

theorem BeforeFirstDone.quiet (h : BeforeFirstDone s) {step : TxStep} (hstore : step.store = none)
    (hfirmware : WaitsForPacket step.state ∨ 0 < s.published.length ∧ OnFirstPacket step.state) :
    BeforeFirstDone (s.transmitted step) := by
  refine ⟨?_, h.frames, h.written, ?_, hfirmware⟩
  · simp only [TxRing.transmitted, hstore, applyStore_none]
    exact h.filled
  · simp only [TxRing.transmitted, hstore, Option.isSome_none, Bool.false_eq_true, if_false]
    exact h.encoded

theorem BeforeFirstDone.tx (h : BeforeFirstDone s) (hmore : ¬ FinishesPacket s.tx) (loadGpoSh : Bool) :
    BeforeFirstDone (s.transmitted (txStep s.tx s.mem loadGpoSh)) := by
  rcases h.firmware with hwait | ⟨hpos, hfirst⟩
  · obtain ⟨hstore, hnext⟩ := txStep_waits hwait h.filled.readWord loadGpoSh
    refine h.quiet hstore (hnext.imp (fun hw => hw.2) fun hf => ⟨?_, hf.2⟩)
    -- the indices differ, so a frame is published
    by_contra hzero
    have hempty : s.published.length = 0 := by omega
    have hword := h.filled.writeWord
    rw [hempty] at hword
    exact hf.1 hword
  · obtain ⟨hstore, hnext⟩ := txStep_first hfirst (h.filled.first (Or.inl hpos)) hmore loadGpoSh
    exact h.quiet hstore (Or.inr ⟨hpos, hnext⟩)

/-- The first `PACKET_DONE` puts the read index behind the frame. -/
theorem BeforeFirstDone.drift (h : BeforeFirstDone s) (hdone : FinishesPacket s.tx) (loadGpoSh : Bool) :
    ¬ Lockstep (s.transmitted (txStep s.tx s.mem loadGpoSh)) := by
  intro hlock
  rcases h.firmware with hwait | ⟨hpos, hfirst⟩
  · obtain ⟨⟨gpo, hc⟩, -⟩ := hdone
    rw [hwait.control] at hc
    cases hc
  · have hstore := txStep_done (m := s.mem) hfirst hdone loadGpoSh
    have hread := hlock.readIdx
    simp only [TxRing.transmitted, hstore, applyStore_some, Option.isSome_some, if_true, h.encoded,
      List.nil_append, List.length_singleton] at hread
    rw [load_store] at hread
    cases hpublished : s.published with
    | nil =>
      rw [hpublished] at hpos
      exact absurd hpos (lt_irrefl 0)
    | cons f rest =>
      have hlen : f.length = 100 := h.frames f (by rw [hpublished]; exact List.mem_cons_self)
      have hbehind : behindFrame ringStart f = 104 := by
        rw [behindFrame, hlen]
        rfl
      rw [hpublished, List.take_succ_cons, List.take_zero, List.foldl_cons, List.foldl_nil, hbehind] at hread
      revert hread
      decide

end

/-- The parity of the dummy packet, for the polynomial `0x11d` with 16 roots. -/
def dummyParity : List UInt8 := [243, 115, 251, 46, 65, 207, 186, 156, 190, 185, 3, 212, 120, 183, 161, 15]

/-- A tick publishes the dummy packet, and the firmware encodes it. -/
def dummyRun : List TxAction := .tick :: (List.range 1117).map fun i => .tx (i % 2 == 0)

/-- One dummy packet, and the read index is 124 where the driver's frame ends at 104. -/
theorem lockstep_lost : ∃ s, Run (txRingStep (oneWordCodec dummyPacket.bytes dummyParity))
    (txRingStart fun _ => 0) dummyRun s ∧ ¬ Lockstep s := by
  have hexec : ((exec (txRingStep (oneWordCodec dummyPacket.bytes dummyParity)) (txRingStart fun _ => 0) dummyRun).map
      fun s => (load s.mem 2 2, s.encoded.length, s.published.map List.length)) = some (124, 1, [100]) := by
    decide +kernel
  obtain ⟨s, hs, hvalues⟩ := Option.map_eq_some_iff.mp hexec
  simp only [Prod.mk.injEq] at hvalues
  obtain ⟨hread, hencoded, hpublished⟩ := hvalues
  refine ⟨s, run_of_exec hs, fun hlock => ?_⟩
  obtain ⟨f, rest, hlist, hlen, -⟩ := List.map_eq_cons_iff.mp hpublished
  have hidx := hlock.readIdx
  rw [hread, hencoded, hlist, List.take_succ_cons, List.take_zero, List.foldl_cons, List.foldl_nil, behindFrame,
    hlen] at hidx
  revert hidx
  decide

/-- **When the transmit ring stays in lockstep**: exactly as long as the firmware finishes no packet. -/
theorem lockstep_iff (rs : ReedSolomon) (pru : Memory) (as : List TxAction) (t : TxRing)
    (hrun : Run (txRingStep rs) (txRingStart pru) as t) :
    Always (txRingStep rs) (txRingStart pru) as Lockstep ↔
      EveryStep (txRingStep rs) (txRingStart pru) as
        fun s a => ∀ loadGpoSh, a = .tx loadGpoSh → ¬ FinishesPacket s.tx := by
  refine always_iff_everyStep hrun (beforeFirstDone_start pru) (fun _ h => h.lockstep) ?_ ?_
  · intro s a u h hgood hs
    cases a with
    | vlcTx p =>
      cases hs
      exact h.vlcTx p
    | tick =>
      cases hs
      exact h.tick
    | tx loadGpoSh =>
      cases hs
      exact h.tx (hgood loadGpoSh rfl) loadGpoSh
  · intro s a u h hbad hs
    simp only [not_forall, not_not] at hbad
    obtain ⟨loadGpoSh, rfl, hdone⟩ := hbad
    cases hs
    exact h.drift hdone loadGpoSh

def queuedOne : QueuedPacket := ⟨store (fun _ => 0) 0 (onePacket 0).bytes, onePacket 0, image_store _ _ _, rfl⟩

/-- A packet from the queue and two dummy packets are published, and the firmware is on its way into the first one. -/
def threePublished : List TxAction := [.vlcTx queuedOne, .tick, .tick, .tick, .tx true, .tx false, .tx true]

theorem lockstep_iff_three_packets :
    let codec := oneWordCodec dummyPacket.bytes dummyParity
    ∃ t, Run (txRingStep codec) (txRingStart fun _ => 0) threePublished t ∧ t.published.length = 3 ∧
      Always (txRingStep codec) (txRingStart fun _ => 0) threePublished Lockstep := by
  intro codec
  have hstates : ∀ k < threePublished.length, ((exec (txRingStep codec) (txRingStart fun _ => 0) (threePublished.take k)).map
      fun s => decide (s.tx.r2 = 3)) = some false := by decide +kernel
  have hend : ((exec (txRingStep codec) (txRingStart fun _ => 0) threePublished).map
      fun s => s.published.length) = some 3 := by decide +kernel
  obtain ⟨t, ht, hthree⟩ := Option.map_eq_some_iff.mp hend
  refine ⟨t, run_of_exec ht, hthree, (lockstep_iff codec (fun _ => 0) threePublished t (run_of_exec ht)).mpr ?_⟩
  refine everyStep_of_exec_take fun k hk => ?_
  obtain ⟨u, hu, hbody⟩ := Option.map_eq_some_iff.mp (hstates k hk)
  exact ⟨u, hu, fun a _ _ hdone => of_decide_eq_false hbody hdone.2.1⟩

end CiotVlc.Pru
