import CiotVlc.Foundations.Bytes
import CiotVlc.Foundations.BlockCode

/-! # Packets of the VLC drivers

Both drivers move packets through a ring in PRU memory: a 16-bit payload length, two 16-bit ids, a
32-bit sequence number, the payload, and the parity bytes of the Reed-Solomon library.
-/
namespace CiotVlc.Kernel
open Foundations.Bytes Foundations.BlockCode
set_option autoImplicit false

def addressLength : ℕ := 2
def seqNumberLength : ℕ := 4
def eccLen : ℕ := 16
def otherPacketContentByte : ℕ := addressLength * 2 + seqNumberLength
def bufferLimit : ℕ := 6004
def payloadLen : ℕ := 74
def dummyPacketNodeId : ℕ := 99

/-- `block_size`, a module parameter of the receiver, at its default. -/
def blockSize : ℕ := 200

/-- `readIdxOffset` and `writeIdxOffset` are where PRU memory keeps the index words; the ring starts
behind them. -/
def readIdxOffset : ℕ := 2
def writeIdxOffset : ℕ := 0
def ringStart : ℕ := 4

/-- The kernel's Reed-Solomon library: `encode_rs8` adds its parity to `par`, `decode_rs8` corrects the
data in place and returns the number of errors, or a negative code. It reads the byte that `data` points to
even when the block is empty, so that byte is an argument of its own. -/
structure ReedSolomon where
  encodeRs8 : List UInt8 → List UInt16 → List UInt16
  decodeRs8 : UInt8 → List UInt8 → List UInt16 → List UInt8 × ℤ

/-- The parity bytes that the transmitter stores for a block. -/
def ReedSolomon.parity (rs : ReedSolomon) (block : List UInt8) : List UInt8 :=
  let par := rs.encodeRs8 block (List.replicate eccLen 0)
  (List.range eccLen).map fun i => (par.getD i 0).toUInt8

/-- The receiver hands parity bytes to the decoder in an array of 16-bit words. -/
def ReedSolomon.decoderAt (rs : ReedSolomon) (first : UInt8) : Decoder UInt8 := fun block parity =>
  rs.decodeRs8 first block (parity.map UInt8.toUInt16)

/-- The decoder on blocks that are not empty. -/
def ReedSolomon.decoder (rs : ReedSolomon) : Decoder UInt8 := fun block => rs.decoderAt (block.headD 0) block

@[simp] theorem ReedSolomon.parity_length (rs : ReedSolomon) (block : List UInt8) :
    (rs.parity block).length = eccLen := by
  simp [ReedSolomon.parity]

/-! ## Sizes, computed alike by both drivers -/

/-- `packet_length += OTHER_PACKET_CONTENT_BYTE + sizeof(uint16_t)` -/
def packetLength (payloadLength : ℕ) : ℕ := (payloadLength + (otherPacketContentByte + 2)) % 2 ^ 16

def numOfBlocks (length : ℕ) : ℕ :=
  if length % blockSize ≠ 0 then length / blockSize + 1 else length / blockSize

def blockLength (length indexBlock : ℕ) : ℕ :=
  if indexBlock + 1 < numOfBlocks length then blockSize else length % blockSize

theorem oneBlock {length : ℕ} (h0 : 0 < length) (h : length < blockSize) :
    numOfBlocks length = 1 ∧ blockLength length 0 = length := by
  have hmod : length % blockSize = length := Nat.mod_eq_of_lt h
  have hdiv : length / blockSize = 0 := Nat.div_eq_of_lt h
  have hnum : numOfBlocks length = 1 := by
    rw [numOfBlocks, hmod, hdiv, if_pos (by omega)]
  exact ⟨hnum, by rw [blockLength, hnum, if_neg (by omega), hmod]⟩

/-! ## Packets -/

/-- A packet handed to the transmitting driver. -/
structure VlcPacket where
  nodeId : UInt16
  vlcId : UInt16
  seqNumber : UInt32
  payload : List UInt8
  deriving DecidableEq, Repr

/-- The fields in front of the payload. -/
def VlcPacket.header (p : VlcPacket) : List UInt8 :=
  littleEndian 2 p.payload.length ++ (littleEndian 2 p.nodeId.toNat ++ (littleEndian 2 p.vlcId.toNat ++
    littleEndian 4 p.seqNumber.toNat))

/-- Its bytes, as `transmit_to_vlc` and `init_vlc_quality_packet` write them. -/
def VlcPacket.bytes (p : VlcPacket) : List UInt8 := p.header ++ p.payload

/-- The bytes with their parity: what a packet of one block looks like in the ring. -/
def VlcPacket.frame (rs : ReedSolomon) (p : VlcPacket) : List UInt8 := p.bytes ++ rs.parity p.bytes

@[simp] theorem VlcPacket.header_length (p : VlcPacket) : p.header.length = 10 := by
  simp only [VlcPacket.header, List.length_append, littleEndian_length]

@[simp] theorem VlcPacket.bytes_length (p : VlcPacket) : p.bytes.length = 10 + p.payload.length := by
  rw [VlcPacket.bytes, List.length_append, VlcPacket.header_length]

@[simp] theorem VlcPacket.frame_length (rs : ReedSolomon) (p : VlcPacket) :
    (p.frame rs).length = 26 + p.payload.length := by
  rw [VlcPacket.frame, List.length_append, VlcPacket.bytes_length, ReedSolomon.parity_length, eccLen]
  omega

theorem packetLength_eq {p : VlcPacket} (h : p.payload.length + 10 < 2 ^ 16) :
    packetLength p.payload.length = p.bytes.length := by
  have hother : otherPacketContentByte + 2 = 10 := rfl
  rw [packetLength, hother, Nat.mod_eq_of_lt h, VlcPacket.bytes_length]
  omega

/-! ## Buffers that hold a packet -/

/-- The buffer starts with these bytes. -/
def Holds (data : Memory) (bytes : List UInt8) : Prop := image data 0 bytes.length = bytes

section
variable {data : Memory} {p : VlcPacket}

theorem holds_bytes_iff : Holds data p.bytes ↔
    image data 0 p.header.length = p.header ∧ image data 10 p.payload.length = p.payload := by
  have h := @image_append_iff data 0 p.header p.payload
  rwa [show 0 + p.header.length = 10 by rw [Nat.zero_add, VlcPacket.header_length]] at h

theorem Holds.load_length (h : Holds data p.bytes) (hlt : p.payload.length < 2 ^ 16) :
    load data 0 2 = p.payload.length := by
  have himage := (image_append_iff.mp (holds_bytes_iff.mp h).1).1
  rw [littleEndian_length] at himage
  rw [load, himage]
  exact ofLittleEndian_of_lt (by norm_num; exact hlt)

theorem Holds.load_nodeId (h : Holds data p.bytes) : load data 2 2 = p.nodeId.toNat := by
  have himage := image_part (holds_bytes_iff.mp h).1
  rw [littleEndian_length, littleEndian_length, Nat.zero_add] at himage
  rw [load, himage]
  exact ofLittleEndian_of_lt (by norm_num; exact p.nodeId.toNat_lt)

theorem Holds.store_nodeId (h : Holds data p.bytes) (id : UInt16) :
    Holds (store data 2 (littleEndian 2 id.toNat)) { p with nodeId := id }.bytes := by
  obtain ⟨hheader, hpayload⟩ := holds_bytes_iff.mp h
  have hid : (littleEndian 2 id.toNat).length = (littleEndian 2 p.nodeId.toNat).length := by
    simp only [littleEndian_length]
  have hstore := image_store_part hheader hid
  rw [littleEndian_length, Nat.zero_add] at hstore
  refine holds_bytes_iff.mpr ⟨hstore, ?_⟩
  rw [image_store_disjoint _ _ _ _ _ (Or.inr (by rw [littleEndian_length]; omega))]
  exact hpayload

theorem Holds.store_payload (h : Holds data p.bytes) {bs : List UInt8} (hbs : bs.length = 4)
    (hlen : 4 ≤ p.payload.length) :
    Holds (store data 10 bs) { p with payload := bs ++ p.payload.drop 4 }.bytes := by
  obtain ⟨hheader, hpayload⟩ := holds_bytes_iff.mp h
  have hsame : (bs ++ p.payload.drop 4).length = p.payload.length := by
    rw [List.length_append, List.length_drop]
    omega
  have hsplit : p.payload = [] ++ (p.payload.take 4 ++ p.payload.drop 4) :=
    (List.take_append_drop 4 p.payload).symm
  rw [hsplit] at hpayload
  refine holds_bytes_iff.mpr ⟨?_, ?_⟩
  · rw [image_store_disjoint _ _ _ _ _ (Or.inl (by rw [VlcPacket.header_length]))]
    simp only [VlcPacket.header, hsame] at hheader ⊢
    exact hheader
  · exact image_store_part hpayload (by rw [List.length_take]; omega)

end

end CiotVlc.Kernel
