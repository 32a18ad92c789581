import CiotVlc.Kernel.Packet

/-! # The transmitting driver

`write_packet_to_pru_memory` appends the parity to a packet and copies it into the ring;
`phy_timer_handler` takes the next packet from the device queue, or the dummy packet when the queue is
empty, and publishes it once the read index shows that there is room.
-/
namespace CiotVlc.Kernel
open Foundations.Bytes Foundations.BlockCode
set_option autoImplicit false

/-- The buffer of a `struct vlc_packet`. -/
abbrev PacketData := Memory

/-- One pass of the block loop: the parity of a block is stored behind the packet. -/
def encodeBlock (rs : ReedSolomon) (length : ℕ) (data : PacketData) (indexBlock : ℕ) : PacketData :=
  let block := image data (indexBlock * blockSize) (blockLength length indexBlock)
  store data (length + indexBlock * eccLen) (rs.parity block)

/-- The packet buffer, the PRU memory and the index behind the packet. -/
def writePacketToPruMemory (rs : ReedSolomon) (data : PacketData) (pru : Memory) (writeIdx : ℕ) :
    PacketData × Memory × ℕ :=
  let length := packetLength (load data 0 2)
  let data := (List.range (numOfBlocks length)).foldl (encodeBlock rs length) data
  let length := (length + eccLen) % 2 ^ 16
  (data, store pru writeIdx (image data 0 length), (writeIdx + length) % 2 ^ 16)

/-- The driver: its globals, the device queue and the dummy packet. -/
structure TxDriver where
  readIdx : ℕ
  writeIdx : ℕ
  isWriteNext : Bool
  txQueue : List PacketData
  vlcQPkt : PacketData

/-- `vlc_tx`: the packet goes to the end of the device queue. -/
def vlcTx (driver : TxDriver) (data : PacketData) : TxDriver :=
  { driver with txQueue := driver.txQueue ++ [data] }

/-- `if (is_write_next) { .. }`: write a packet behind the published ones. -/
def writeNext (rs : ReedSolomon) (driver : TxDriver) (pru : Memory) : TxDriver × Memory :=
  if driver.isWriteNext then
    match driver.txQueue with
    | pkt :: rest =>
      let (_, pru', writeIdx) := writePacketToPruMemory rs pkt pru (load pru writeIdxOffset 2)
      ({ driver with
          txQueue := rest
          writeIdx := if writeIdx ≥ bufferLimit then ringStart else writeIdx
          isWriteNext := false }, pru')
    | [] =>
      let (dummy, pru', writeIdx) :=
        writePacketToPruMemory rs driver.vlcQPkt pru (load pru writeIdxOffset 2)
      ({ driver with
          vlcQPkt := dummy
          writeIdx := if writeIdx ≥ bufferLimit then ringStart else writeIdx
          isWriteNext := false }, pru')
  else (driver, pru)

/-- One tick of the timer. -/
def phyTimerHandler (rs : ReedSolomon) (driver : TxDriver) (pru : Memory) : TxDriver × Memory :=
  let (driver, pru) := writeNext rs driver pru
  let driver := { driver with readIdx := load pru readIdxOffset 2 }
  if driver.readIdx ≠ driver.writeIdx then
    ({ driver with isWriteNext := true }, store pru writeIdxOffset (littleEndian 2 driver.writeIdx))
  else (driver, pru)

/-! ## What a write stores -/

section
variable {rs : ReedSolomon} {data : PacketData} {p : VlcPacket}

theorem writePacketToPruMemory_eq (h : Holds data p.bytes) (hlt : p.payload.length + 10 < blockSize)
    (pru : Memory) (writeIdx : ℕ) :
    ∃ data', Holds data' p.bytes ∧ writePacketToPruMemory rs data pru writeIdx =
      (data', store pru writeIdx (p.frame rs), (writeIdx + (p.frame rs).length) % 2 ^ 16) := by
  simp only [blockSize] at hlt
  have hlen := p.bytes_length
  have hload := h.load_length (by omega)
  obtain ⟨hnum, hblock⟩ := @oneBlock p.bytes.length (by omega) (by simp only [blockSize]; omega)
  have hecc : (p.bytes.length + eccLen) % 2 ^ 16 = (p.frame rs).length := by
    rw [VlcPacket.frame_length, hlen, eccLen]
    omega
  let data' := store data p.bytes.length (rs.parity p.bytes)
  have hkeep : Holds data' p.bytes := by
    rw [Holds, image_store_disjoint _ _ _ _ _ (Or.inl (by omega)), h]
  have hparity : image data' p.bytes.length eccLen = rs.parity p.bytes := by
    have := image_store data p.bytes.length (rs.parity p.bytes)
    rwa [ReedSolomon.parity_length] at this
  have hframe : image data' 0 (p.frame rs).length = p.frame rs := by
    rw [show (p.frame rs).length = p.bytes.length + eccLen by rw [VlcPacket.frame_length, hlen, eccLen]; omega,
      image_add, Nat.zero_add, hkeep, hparity]
    rfl
  refine ⟨data', hkeep, ?_⟩
  simp only [writePacketToPruMemory, hload, packetLength_eq (show p.payload.length + 10 < 2 ^ 16 by omega),
    hnum, List.range_one, List.foldl_cons, List.foldl_nil, encodeBlock, hblock, hecc, Nat.zero_mul,
    Nat.add_zero]
  rw [h]
  exact congrArg _ (congrArg (fun f => (store pru writeIdx f, _)) hframe)

end

end CiotVlc.Kernel
