import CiotVlc.Foundations.SpillRing
import CiotVlc.Pru.TransmitRing

/-! # The transmit ring with packets of every size

The driver of the ring, and a consumer that takes what the driver stores for a packet: the payload and 26
bytes more. The driver writes before it looks for room, and then looks at one index only, so a packet can
cross the reader; that is the only way in which it overlaps an unread packet.
-/
namespace CiotVlc.Pru
open Foundations.Bytes Foundations.Runs Foundations.SpillRing
open CiotVlc.Kernel (ReedSolomon PacketData VlcPacket Holds TxDriver vlcTx phyTimerHandler writeNext
  writePacketToPruMemory writePacketToPruMemory_eq eccLen ringStart)
set_option autoImplicit false

/-- A buffer handed to `vlc_tx`: a packet that the MTU of 100 bytes lets through. -/
structure MtuPacket where
  data : PacketData
  packet : VlcPacket
  holds : Holds data packet.bytes
  pos : 1 ≤ packet.payload.length
  le : packet.payload.length ≤ 90

/-- Memory and driver, with two histories: where the last write lies, and where the packets lie that are
published and not consumed. -/
structure MixedRing where
  mem : Memory
  driver : TxDriver
  written : Extent
  unread : List Extent

/-- `init_module`, on any memory. -/
def mixedStart (pru : Memory) : MixedRing where
  mem := store pru 0 (littleEndian 2 ringStart ++ littleEndian 2 ringStart)
  driver := ⟨ringStart, ringStart, true, [], dummyData⟩
  written := ⟨ringStart, 0⟩
  unread := []

inductive MixedAction
  | vlcTx (p : MtuPacket)
  | tick
  | consume

/-- What `write_packet_to_pru_memory` stores in the next tick that writes: the next packet of the device
queue, or the dummy packet. -/
def MixedRing.nextWrite (s : MixedRing) : Extent :=
  let pkt := s.driver.txQueue.headD s.driver.vlcQPkt
  ⟨load s.mem 0 2, (Kernel.packetLength (load pkt 0 2) + eccLen) % 2 ^ 16⟩

def MixedRing.ticked (rs : ReedSolomon) (s : MixedRing) : MixedRing :=
  let (driver, mem) := phyTimerHandler rs s.driver s.mem
  let written := if s.driver.isWriteNext then s.nextWrite else s.written
  ⟨mem, driver, written, if driver.isWriteNext then s.unread ++ [written] else s.unread⟩

/-- The bytes of a packet in the ring that are not payload. -/
def packetOverhead : ℕ := 26

/-- A packet of `payload_len + 26` bytes is consumed, and `PACKET_DONE` stores the index behind it. -/
def MixedRing.consumed (s : MixedRing) : MixedRing :=
  let readIdx := load s.mem 2 2
  let next := readIdx + (load s.mem readIdx 2 + packetOverhead)
  { s with
    mem := store s.mem 2 (littleEndian 2 (if txBufferLimit > next then next else 4))
    unread := s.unread.tail }

/-- The consumer takes a packet when the indices differ. -/
def mixedStep (rs : ReedSolomon) (s : MixedRing) : MixedAction → Option MixedRing
  | .vlcTx p => some { s with driver := vlcTx s.driver p.data }
  | .tick => some (s.ticked rs)
  | .consume => if load s.mem 2 2 = load s.mem 0 2 then none else some s.consumed

/-- The step stores no byte of a packet that is published and not consumed. -/
def WritesApart (s : MixedRing) : MixedAction → Prop
  | .tick => s.driver.isWriteNext = true → ∀ e ∈ s.unread, s.nextWrite.Apart e
  | _ => True

/-- A packet that is written below the read index ends there or below. -/
def StaysBelowReader (s : MixedRing) : MixedAction → Prop
  | .tick => s.driver.isWriteNext = true → load s.mem 0 2 < load s.mem 2 2 →
      load s.mem 0 2 + s.nextWrite.size ≤ load s.mem 2 2
  | _ => True

/-- The indices and extents alone. -/
def MixedRing.ring (s : MixedRing) : RingState :=
  ⟨load s.mem 2 2, load s.mem 0 2, if s.driver.isWriteNext then none else some s.written.size, s.unread⟩

/-! ## Writing a packet -/

def HoldsMtu (data : PacketData) : Prop :=
  ∃ p : VlcPacket, Holds data p.bytes ∧ 1 ≤ p.payload.length ∧ p.payload.length ≤ 90

theorem dummyData_holdsMtu : HoldsMtu dummyData := by
  have hlen : dummyPacket.payload.length = 74 := List.length_replicate
  exact ⟨dummyPacket, image_store _ _ _, by omega, by omega⟩

section
variable {rs : ReedSolomon} {s : MixedRing}

theorem write_mtu {data : PacketData} (hdata : HoldsMtu data) (mem : Memory) (w : ℕ) :
    ∃ data' frame, HoldsMtu data' ∧ 26 < frame.length ∧ frame.length ≤ 116 ∧
      frame.take 2 = littleEndian 2 (frame.length - packetOverhead) ∧
      writePacketToPruMemory rs data mem w = (data', store mem w frame, (w + frame.length) % 2 ^ 16) ∧
      (Kernel.packetLength (load data 0 2) + eccLen) % 2 ^ 16 = frame.length := by
  obtain ⟨p, hholds, hpos, hle⟩ := hdata
  have hblock : Kernel.blockSize = 200 := rfl
  obtain ⟨data', hkeep, hwrite⟩ := @writePacketToPruMemory_eq rs data p hholds (by omega) mem w
  have hlen := VlcPacket.frame_length rs p
  refine ⟨data', p.frame rs, ⟨p, hkeep, hpos, hle⟩, by omega, by omega, ?_, hwrite, ?_⟩
  · rw [hlen, packetOverhead, Nat.add_sub_cancel_left]
    simp only [VlcPacket.frame, VlcPacket.bytes, VlcPacket.header, List.append_assoc]
    rw [List.take_left' (littleEndian_length _ _)]
  · rw [hholds.load_length (by omega), Kernel.packetLength_eq (by omega), VlcPacket.bytes_length, hlen, eccLen]
    omega

theorem writePacketToPruMemory_outside (data : PacketData) (mem : Memory) (w x : ℕ)
    (hx : x < w ∨ w + (Kernel.packetLength (load data 0 2) + eccLen) % 2 ^ 16 ≤ x) :
    (writePacketToPruMemory rs data mem w).2.1 x = mem x :=
  store_outside _ _ _ _ (by rwa [image_length])

/-- **A write stores inside `nextWrite`**, in every state. -/
theorem writeNext_outside (s : MixedRing) (x : ℕ)
    (hx : x < s.nextWrite.start ∨ s.nextWrite.start + s.nextWrite.size ≤ x) :
    (writeNext rs s.driver s.mem).2 x = s.mem x := by
  unfold MixedRing.nextWrite at hx
  unfold writeNext
  split
  · split
    · next pkt rest hqueue =>
      rw [hqueue] at hx
      exact writePacketToPruMemory_outside pkt s.mem _ x hx
    · next hqueue =>
      rw [hqueue] at hx
      exact writePacketToPruMemory_outside _ s.mem _ x hx
  · rfl

/-! ## The invariant -/

/-- The word in front of each packet tells its size. -/
def Sized (mem : Memory) (e : Extent) : Prop := load mem e.start 2 + packetOverhead = e.size

/-- The driver's buffers, the ring and the sizes in it. -/
structure MixedInv (s : MixedRing) : Prop where
  sound : s.ring.Sound ringStart Kernel.bufferLimit
  queue : ∀ d ∈ s.driver.txQueue, HoldsMtu d
  dummy : HoldsMtu s.driver.vlcQPkt
  sized : ∀ e ∈ s.unread, Sized s.mem e
  pending : s.driver.isWriteNext = false → s.written.start = load s.mem 0 2 ∧ Sized s.mem s.written ∧
    s.driver.writeIdx = behind ringStart Kernel.bufferLimit s.written

/-- Behind the first half of a tick: a packet is written and not published. -/
structure Pending (s : MixedRing) (driver : TxDriver) (mem : Memory) (written : Extent) : Prop where
  isWriteNext : driver.isWriteNext = false
  readWord : load mem 2 2 = load s.mem 2 2
  writeWord : load mem 0 2 = load s.mem 0 2
  queue : ∀ d ∈ driver.txQueue, HoldsMtu d
  dummy : HoldsMtu driver.vlcQPkt
  sized : ∀ e ∈ s.unread, Sized mem e
  start : written.start = load s.mem 0 2
  size : written.size = s.ring.pending.getD s.nextWrite.size
  length : Sized mem written
  writeIdx : driver.writeIdx = behind ringStart Kernel.bufferLimit written

theorem Sized.of_load {mem mem' : Memory} {e : Extent} (h : Sized mem e)
    (hload : load mem' e.start 2 = load mem e.start 2) : Sized mem' e := by
  rw [Sized, hload]
  exact h

theorem MixedInv.start_le (h : MixedInv s) {e : Extent} (he : e ∈ s.unread) : 4 ≤ e.start :=
  h.sound.layout.base_le h.sound.read.1 he

/-- What a write leaves, for the packet's buffer and the bytes it stores. -/
theorem MixedInv.wrote (h : MixedInv s) {frame : List UInt8} (hsize : s.nextWrite.size = frame.length)
    (hpos : 26 < frame.length) (hle : frame.length ≤ 116)
    (hword : frame.take 2 = littleEndian 2 (frame.length - packetOverhead))
    (hnext : s.driver.isWriteNext = true) (hapart : ∀ e ∈ s.unread, s.nextWrite.Apart e)
    {queue : List PacketData} {dummy : PacketData} (hqueue : ∀ d ∈ queue, HoldsMtu d) (hdummy : HoldsMtu dummy) :
    Pending s
      { s.driver with
        txQueue := queue
        vlcQPkt := dummy
        writeIdx := behind ringStart Kernel.bufferLimit s.nextWrite
        isWriteNext := false }
      (store s.mem (load s.mem 0 2) frame) s.nextWrite := by
  have hstart : ringStart ≤ load s.mem 0 2 := h.sound.write.1
  have hbase : ringStart = 4 := rfl
  refine ⟨rfl, ?_, ?_, hqueue, hdummy, fun e he => ?_, rfl, ?_, ?_, rfl⟩
  · exact load_store_disjoint _ _ _ _ _ (Or.inl (by omega))
  · exact load_store_disjoint _ _ _ _ _ (Or.inl (by omega))
  · have hsized := h.sized e he
    refine hsized.of_load (load_store_disjoint _ _ _ _ _ ?_)
    have hapart := hapart e he
    unfold Sized packetOverhead at hsized
    unfold Extent.Apart at hapart
    rw [hsize] at hapart
    change load s.mem 0 2 + _ ≤ _ ∨ _ ≤ load s.mem 0 2 at hapart
    omega
  · rw [MixedRing.ring, hnext]
    rfl
  · rw [Sized, hsize]
    change load (store s.mem (load s.mem 0 2) frame) (load s.mem 0 2) 2 + _ = _
    rw [load_store_front hword (by omega), packetOverhead]
    omega

theorem MixedInv.nextWrite_pos (h : MixedInv s) : 0 < s.nextWrite.size := by
  have hhead : HoldsMtu (s.driver.txQueue.headD s.driver.vlcQPkt) := by
    have hall := h.queue
    cases hqueue : s.driver.txQueue with
    | nil => exact h.dummy
    | cons pkt rest =>
      rw [hqueue] at hall
      exact hall pkt List.mem_cons_self
  obtain ⟨-, frame, -, hpos, -, -, -, hlen⟩ :=
    @write_mtu ⟨fun _ par => par, fun _ block _ => (block, 0)⟩ _ hhead s.mem 0
  have hsize : s.nextWrite.size = frame.length := hlen
  omega

/-- **The first half of a tick.** -/
theorem MixedInv.write (h : MixedInv s) (hnext : s.driver.isWriteNext = true)
    (hapart : ∀ e ∈ s.unread, s.nextWrite.Apart e) :
    Pending s (writeNext rs s.driver s.mem).1 (writeNext rs s.driver s.mem).2 s.nextWrite := by
  have hlimit : Kernel.bufferLimit = 6004 := rfl
  have hwrite : load s.mem 0 2 < Kernel.bufferLimit := h.sound.write.2
  have hbehind : ∀ frame : List UInt8, s.nextWrite.size = frame.length → frame.length ≤ 116 →
      (if (load s.mem 0 2 + frame.length) % 2 ^ 16 ≥ Kernel.bufferLimit then ringStart
        else (load s.mem 0 2 + frame.length) % 2 ^ 16) = behind ringStart Kernel.bufferLimit s.nextWrite := by
    intro frame hsize hle
    rw [Nat.mod_eq_of_lt (by omega), behind, hsize]
    rfl
  have hall := h.queue
  cases hqueue : s.driver.txQueue with
  | nil =>
    obtain ⟨data', frame, hkeep, hpos, hle, hword, hstore, hlen⟩ := @write_mtu rs _ h.dummy s.mem (load s.mem 0 2)
    have hsize : s.nextWrite.size = frame.length := by
      rw [MixedRing.nextWrite, hqueue]
      exact hlen
    simp only [writeNext, hnext, if_true, hqueue, Kernel.writeIdxOffset, hstore, hbehind frame hsize hle]
    exact h.wrote hsize hpos hle hword hnext hapart (fun d hd => absurd hd List.not_mem_nil) hkeep
  | cons pkt rest =>
    rw [hqueue] at hall
    obtain ⟨data', frame, -, hpos, hle, hword, hstore, hlen⟩ :=
      @write_mtu rs _ (hall pkt List.mem_cons_self) s.mem (load s.mem 0 2)
    have hsize : s.nextWrite.size = frame.length := by
      rw [MixedRing.nextWrite, hqueue]
      exact hlen
    simp only [writeNext, hnext, if_true, hqueue, Kernel.writeIdxOffset, hstore, hbehind frame hsize hle]
    exact h.wrote hsize hpos hle hword hnext hapart (fun d hd => hall d (List.mem_cons_of_mem _ hd)) h.dummy

theorem MixedInv.skip (h : MixedInv s) (hnext : s.driver.isWriteNext = false) :
    Pending s (writeNext rs s.driver s.mem).1 (writeNext rs s.driver s.mem).2 s.written := by
  obtain ⟨hstart, hlength, hidx⟩ := h.pending hnext
  simp only [writeNext, hnext, Bool.false_eq_true, if_false]
  refine ⟨hnext, rfl, rfl, h.queue, h.dummy, h.sized, hstart, ?_, hlength, hidx⟩
  rw [MixedRing.ring, hnext]
  rfl

/-- **The second half**: the packet is published, unless the index behind it is the read index. -/
theorem Pending.ticked {driver : TxDriver} {mem : Memory} {written : Extent}
    (h : Pending s driver mem written) (hw : writeNext rs s.driver s.mem = (driver, mem))
    (hwritten : (if s.driver.isWriteNext then s.nextWrite else s.written) = written) :
    s.ticked rs =
      if behind ringStart Kernel.bufferLimit written = load s.mem 2 2 then
        ⟨mem, { driver with readIdx := load s.mem 2 2 }, written, s.unread⟩
      else ⟨store mem 0 (littleEndian 2 driver.writeIdx),
        { driver with readIdx := load s.mem 2 2, isWriteNext := true }, written, s.unread ++ [written]⟩ := by
  have hread : load mem Kernel.readIdxOffset 2 = load s.mem 2 2 := h.readWord
  simp only [MixedRing.ticked, phyTimerHandler, hw, hread, hwritten, h.writeIdx]
  by_cases hfull : behind ringStart Kernel.bufferLimit written = load s.mem 2 2
  · rw [if_pos hfull, if_neg (not_not.mpr hfull.symm)]
    simp only [h.isWriteNext, Bool.false_eq_true, if_false]
  · rw [if_neg hfull, if_pos (Ne.symm hfull)]
    simp only [if_true, Kernel.writeIdxOffset]

theorem Pending.produce {driver : TxDriver} {mem : Memory} {written : Extent} (h : Pending s driver mem written)
    (n : ℕ) (hn : s.ring.pending.getD n = written.size) :
    s.ring.produce ringStart Kernel.bufferLimit n =
      if behind ringStart Kernel.bufferLimit written = load s.mem 2 2 then
        { s.ring with pending := some written.size }
      else { s.ring with
        write := behind ringStart Kernel.bufferLimit written
        pending := none
        unread := s.unread ++ [written] } := by
  have hextent : written = ⟨s.ring.write, written.size⟩ := by
    change written = ⟨load s.mem 0 2, written.size⟩
    rw [← h.start]
  simp only [RingState.produce, hn, ← hextent]
  rfl

theorem Pending.inv {driver : TxDriver} {mem : Memory} {written : Extent} (hinv : MixedInv s)
    (h : Pending s driver mem written) (hsound : (s.ring.produce ringStart Kernel.bufferLimit s.nextWrite.size).Sound
      ringStart Kernel.bufferLimit) (hw : writeNext rs s.driver s.mem = (driver, mem))
    (hwritten : (if s.driver.isWriteNext then s.nextWrite else s.written) = written) :
    (s.ticked rs).ring = s.ring.produce ringStart Kernel.bufferLimit s.nextWrite.size ∧ MixedInv (s.ticked rs) := by
  have hwrite : ringStart ≤ load s.mem 0 2 := hinv.sound.write.1
  have hbase : ringStart = 4 := rfl
  have hlimit : Kernel.bufferLimit = 6004 := rfl
  rw [h.produce _ h.size.symm] at hsound ⊢
  rw [h.ticked hw hwritten]
  by_cases hfull : behind ringStart Kernel.bufferLimit written = load s.mem 2 2
  · rw [if_pos hfull] at hsound
    rw [if_pos hfull, if_pos hfull]
    have hring : MixedRing.ring ⟨mem, { driver with readIdx := load s.mem 2 2 }, written, s.unread⟩ =
        { s.ring with pending := some written.size } := by
      simp only [MixedRing.ring, h.readWord, h.writeWord, h.isWriteNext, Bool.false_eq_true, if_false]
    refine ⟨hring, by rw [hring]; exact hsound, h.queue, h.dummy, h.sized, fun _ => ⟨?_, h.length, h.writeIdx⟩⟩
    rw [h.start, h.writeWord]
  · rw [if_neg hfull] at hsound
    rw [if_neg hfull, if_neg hfull]
    have hnext : driver.writeIdx < 256 ^ 2 := by
      have hlt : behind ringStart Kernel.bufferLimit written < Kernel.bufferLimit := hsound.write.2
      rw [h.writeIdx]
      omega
    have hbehind : ∀ a, 2 ≤ a → load (store mem 0 (littleEndian 2 driver.writeIdx)) a 2 = load mem a 2 :=
      fun a ha => load_store_disjoint _ _ _ _ _ (Or.inr (by rw [littleEndian_length]; omega))
    have hindex : load (store mem 0 (littleEndian 2 driver.writeIdx)) 0 2 =
        behind ringStart Kernel.bufferLimit written := by
      rw [load_store, Nat.mod_eq_of_lt hnext, h.writeIdx]
    have hring : MixedRing.ring ⟨store mem 0 (littleEndian 2 driver.writeIdx),
        { driver with readIdx := load s.mem 2 2, isWriteNext := true }, written, s.unread ++ [written]⟩ =
        { s.ring with
          write := behind ringStart Kernel.bufferLimit written
          pending := none
          unread := s.unread ++ [written] } := by
      simp only [MixedRing.ring, hindex, hbehind 2 le_rfl, h.readWord, if_true]
    refine ⟨hring, by rw [hring]; exact hsound, h.queue, h.dummy, fun e he => ?_, nofun⟩
    rcases List.mem_append.mp he with he | he
    · exact (h.sized e he).of_load (hbehind _ (by have := hinv.start_le he; omega))
    · rw [List.mem_singleton.mp he]
      exact h.length.of_load (hbehind _ (by rw [h.start]; omega))

/-- **A tick is a turn of the producer**, if it writes apart from the unread packets. -/
theorem MixedInv.ticked (h : MixedInv s) (hapart : WritesApart s .tick) :
    (s.ticked rs).ring = s.ring.produce ringStart Kernel.bufferLimit s.nextWrite.size ∧ MixedInv (s.ticked rs) := by
  have hsound :
      (s.ring.produce ringStart Kernel.bufferLimit s.nextWrite.size).Sound ringStart Kernel.bufferLimit := by
    refine h.sound.produce h.nextWrite_pos fun hpending => ?_
    have hnext : s.driver.isWriteNext = true := by
      by_contra hnext
      rw [MixedRing.ring] at hpending
      simp [hnext] at hpending
    exact (h.sound.layout.apart_iff h.sound.read.2).mp (hapart hnext)
  cases hnext : s.driver.isWriteNext with
  | true =>
    have hpending : Pending s (writeNext rs s.driver s.mem).1 _ s.nextWrite := h.write hnext (hapart hnext)
    exact hpending.inv h hsound rfl (by rw [hnext]; rfl)
  | false =>
    have hpending : Pending s (writeNext rs s.driver s.mem).1 _ s.written := h.skip hnext
    exact hpending.inv h hsound rfl (by rw [hnext]; rfl)

/-! ## Consuming a packet -/

/-- The firmware's next index, from the length it reads, is the one behind the first unread packet. -/
theorem MixedInv.consumed_eq (h : MixedInv s) {e : Extent} {rest : List Extent} (hunread : s.unread = e :: rest)
    (hstart : e.start = load s.mem 2 2) :
    s.consumed = { s with
      mem := store s.mem 2 (littleEndian 2 (behind ringStart Kernel.bufferLimit e)), unread := rest } := by
  have hlimit : Kernel.bufferLimit = 6004 := rfl
  have hlimit' : txBufferLimit = 6004 := rfl
  have hbase : ringStart = 4 := rfl
  have hsized : load s.mem (load s.mem 2 2) 2 + packetOverhead = e.size := by
    rw [← hstart]
    exact h.sized e (by rw [hunread]; exact List.mem_cons_self)
  have hnext : (if txBufferLimit > load s.mem 2 2 + e.size then load s.mem 2 2 + e.size else 4) =
      behind ringStart Kernel.bufferLimit e := by
    rw [behind, hstart]
    split_ifs <;> omega
  simp only [MixedRing.consumed, hsized, hnext, hunread, List.tail_cons]

/-- **A consumption is a turn of the consumer.** -/
theorem MixedInv.consumed (h : MixedInv s) (hne : load s.mem 2 2 ≠ load s.mem 0 2) :
    s.ring.consume ringStart Kernel.bufferLimit = some s.consumed.ring ∧ MixedInv s.consumed := by
  have hbase : ringStart = 4 := rfl
  have hlimit : Kernel.bufferLimit = 6004 := rfl
  have hwrite : ringStart ≤ load s.mem 0 2 := h.sound.write.1
  obtain ⟨-, heq⟩ | ⟨e, rest, hunread, hstart, -⟩ := h.sound.layout.head h.sound.read.2
  · exact absurd heq hne
  · have heq := h.consumed_eq hunread hstart
    have hbounds := behind_bounds (show ringStart < Kernel.bufferLimit by omega)
      (show ringStart ≤ e.start by rw [hstart]; exact h.sound.read.1)
    have hread : load s.consumed.mem 2 2 = behind ringStart Kernel.bufferLimit e := by
      rw [heq, load_store]
      exact Nat.mod_eq_of_lt (by omega)
    have hfront : load s.consumed.mem 0 2 = load s.mem 0 2 := by
      rw [heq]
      exact load_store_disjoint _ _ _ _ _ (Or.inl le_rfl)
    have hbehind : ∀ a, 4 ≤ a → load s.consumed.mem a 2 = load s.mem a 2 := by
      intro a ha
      rw [heq]
      exact load_store_disjoint _ _ _ _ _ (Or.inr (by rw [littleEndian_length]; omega))
    change s.unread = e :: rest at hunread
    have hconsume : s.ring.consume ringStart Kernel.bufferLimit = some s.consumed.ring := by
      rw [MixedRing.ring, MixedRing.ring, RingState.consume, hread, hfront, hunread, heq]
    refine ⟨hconsume, h.sound.consume hconsume, ?_, ?_, ?_, ?_⟩
    · rw [heq]
      exact h.queue
    · rw [heq]
      exact h.dummy
    · intro f hf
      have hmem : f ∈ s.unread := by
        rw [hunread]
        rw [heq] at hf
        exact List.mem_cons_of_mem e hf
      exact (h.sized f hmem).of_load (hbehind _ (h.start_le hmem))
    · intro hnext
      rw [heq] at hnext
      obtain ⟨hw, hlength, hidx⟩ := h.pending hnext
      have hwritten : s.consumed.written = s.written := by rw [heq]
      have hdriver : s.consumed.driver = s.driver := by rw [heq]
      rw [hwritten, hdriver, hfront]
      exact ⟨hw, hlength.of_load (hbehind _ (by omega)), hidx⟩

/-! ## Runs -/

theorem mixedInv_start (pru : Memory) : MixedInv (mixedStart pru) := by
  have hwords := image_store pru 0 (littleEndian 2 ringStart ++ littleEndian 2 ringStart)
  obtain ⟨hwrite, hread⟩ := image_append_iff.mp hwords
  have hring : (mixedStart pru).ring = ⟨ringStart, ringStart, none, []⟩ := by
    rw [MixedRing.ring]
    exact congrArg₂ (fun r w => RingState.mk r w none []) (congrArg ofLittleEndian hread)
      (congrArg ofLittleEndian hwrite)
  refine ⟨?_, fun d hd => absurd hd List.not_mem_nil, dummyData_holdsMtu, nofun, nofun⟩
  rw [hring]
  exact ⟨⟨le_rfl, by decide⟩, ⟨le_rfl, by decide⟩, .straight rfl, nofun⟩

theorem MixedInv.vlcTx (h : MixedInv s) (p : MtuPacket) :
    MixedInv { s with driver := Kernel.vlcTx s.driver p.data } := by
  refine ⟨h.sound, fun d hd => ?_, h.dummy, h.sized, h.pending⟩
  rcases List.mem_append.mp hd with hd | hd
  · exact h.queue d hd
  · rw [List.mem_singleton.mp hd]
    exact ⟨p.packet, p.holds, p.pos, p.le⟩

theorem MixedInv.writesApart_iff (h : MixedInv s) (a : MixedAction) : WritesApart s a ↔ StaysBelowReader s a := by
  cases a with
  | tick =>
    refine imp_congr_right fun _ => ?_
    have hiff := h.sound.layout.apart_iff (n := s.nextWrite.size) h.sound.read.2
    refine hiff.trans ⟨fun hcross hlt => ?_, fun hbelow hcross => ?_⟩
    · exact Nat.le_of_not_lt fun hgt => hcross ⟨hlt, hgt⟩
    · exact absurd (hbelow hcross.1) (Nat.not_le.mpr hcross.2)
  | vlcTx p => exact Iff.rfl
  | consume => exact Iff.rfl

theorem MixedInv.step {a : MixedAction} {u : MixedRing} (h : MixedInv s) (hapart : WritesApart s a)
    (hstep : mixedStep rs s a = some u) : MixedInv u := by
  cases a with
  | vlcTx p =>
    cases hstep
    exact h.vlcTx p
  | tick =>
    cases hstep
    exact (h.ticked hapart).2
  | consume =>
    obtain ⟨hne, hu⟩ := Option.ite_none_left_eq_some.mp hstep
    cases hu
    exact (h.consumed hne).2

end

/-- **When the transmit ring overwrites nothing unread**: exactly as long as no packet that is written below the
read index reaches beyond it. -/
theorem writes_apart_iff (rs : ReedSolomon) (pru : Memory) (as : List MixedAction) :
    EveryStep (mixedStep rs) (mixedStart pru) as WritesApart ↔
      EveryStep (mixedStep rs) (mixedStart pru) as StaysBelowReader :=
  everyStep_congr (mixedInv_start pru) (fun _ a _ h hbelow hstep => h.step ((h.writesApart_iff a).mpr hbelow) hstep)
    fun _ a h => h.writesApart_iff a

/-- A code without parity: sixteen zero bytes. -/
def noParity : ReedSolomon := ⟨fun _ par => par, fun _ block _ => (block, 0)⟩

def shortPacket : VlcPacket := ⟨1, 1, 0, [0]⟩

/-- A packet of one byte, dummy packets up to the limit, and the first packet is consumed. -/
def shortFirst : List MixedAction :=
  .vlcTx ⟨store (fun _ => 0) 0 shortPacket.bytes, shortPacket, image_store _ _ _, le_rfl, by decide⟩ ::
    List.replicate 61 .tick ++ [.consume, .tick]

/-- The packet at the base ends at 104, and the reader is at 31. -/
theorem short_packet_crossed :
    ¬ EveryStep (mixedStep noParity) (mixedStart fun _ => 0) (shortFirst ++ [.tick]) WritesApart := by
  have hexec : ((exec (mixedStep noParity) (mixedStart fun _ => 0) shortFirst).map
      fun s => (s.driver.isWriteNext, s.nextWrite, s.unread.head?)) = some (true, ⟨4, 100⟩, some ⟨31, 100⟩) := by
    decide +kernel
  obtain ⟨s, hs, hvalues⟩ := Option.map_eq_some_iff.mp hexec
  simp only [Prod.mk.injEq] at hvalues
  obtain ⟨hnext, hwrite, hhead⟩ := hvalues
  intro h
  have hapart := h shortFirst .tick s List.prefix_rfl (run_of_exec hs) hnext ⟨31, 100⟩ (List.mem_of_head? hhead)
  rw [hwrite] at hapart
  rcases hapart with hbelow | habove
  · exact absurd hbelow (by decide)
  · exact absurd habove (by decide)

end CiotVlc.Pru
