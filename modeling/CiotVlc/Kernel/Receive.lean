import CiotVlc.Kernel.Packet

/-! # The receiving driver

One pass of `pru_phy_decoding`: a frame at the read index with an accepted length is copied out of the
ring, its blocks are decoded, the buffer is marked when errors were corrected, and the bytes go to the
network stack.
-/
namespace CiotVlc.Kernel
open Foundations.Bytes Foundations.BlockCode
set_option autoImplicit false

def mtuValue : ℕ := 150
def errorNodeId : ℕ := 98

/-- `rx_data`, cleared, with the copied bytes at its start. -/
def rxBuffer (copied : List UInt8) : Memory := store (fun _ => 0) 0 copied

/-- One pass of the block loop: the buffer with a block corrected, and the errors so far. The test
`num_err < 0` is on an unsigned variable, so a negative code is added like any other. -/
def decodeBlock (rs : ReedSolomon) (datalen : ℕ) (state : Memory × ℕ) (indexBlock : ℕ) : Memory × ℕ :=
  let (rxData, totalNumErr) := state
  let parity := image rxData (datalen + indexBlock * eccLen) eccLen
  let block := image rxData (indexBlock * blockSize) (blockLength datalen indexBlock)
  let (block, numErr) := rs.decoderAt (rxData (indexBlock * blockSize)) block parity
  (store rxData (indexBlock * blockSize) block, (totalNumErr + ofInt32 numErr) % 2 ^ 32)

/-- `if (total_num_err > 0) { .. }`: the id of the node is replaced, unless it is the dummy id, and the
number of errors is written over the start of the payload. -/
def markErrors (rxData : Memory) (totalNumErr : ℕ) : Memory :=
  if totalNumErr > 0 then
    let rxData :=
      if load rxData 2 2 ≠ dummyPacketNodeId then store rxData 2 (littleEndian 2 errorNodeId) else rxData
    store rxData 10 (littleEndian 4 totalNumErr)
  else rxData

/-- The bytes handed to `mac_rx` for a frame of `datalen` bytes before the parity. -/
def decodeFrame (rs : ReedSolomon) (datalen : ℕ) (copied : List UInt8) : List UInt8 :=
  let (rxData, totalNumErr) :=
    (List.range (numOfBlocks datalen)).foldl (decodeBlock rs datalen) (rxBuffer copied, 0)
  image (markErrors rxData totalNumErr) 0 datalen

/-- The test of the length word of a frame. -/
def acceptLength (datalen : ℕ) : Bool := 0 < datalen ∧ datalen ≤ mtuValue

/-- `read_idx += datalen + ECC_LEN`, back to the start of the ring from its end on. -/
def nextReadIdx (readIdx datalen : ℕ) : ℕ :=
  let readIdx := (readIdx + (datalen + eccLen)) % 2 ^ 16
  if readIdx ≥ bufferLimit then ringStart else readIdx

/-- One pass of the loop: what goes to `mac_rx`, and the PRU memory. -/
def pruPhyDecoding (rs : ReedSolomon) (pru : Memory) : Option (List UInt8) × Memory :=
  let readIdx := load pru readIdxOffset 2
  let writeIdx := load pru writeIdxOffset 2
  if readIdx = writeIdx then (none, pru)
  else if acceptLength (load pru readIdx 2) then
    let datalen := packetLength (load pru readIdx 2)
    (some (decodeFrame rs datalen (image pru readIdx (datalen + eccLen))),
      store pru readIdxOffset (littleEndian 2 (nextReadIdx readIdx datalen)))
  else (none, pru)

/-! ## Frames of one block -/

section
variable {rs : ReedSolomon} {data parity : List UInt8} {numErr : ℕ}

theorem decodeBlocks_eq (hdata : 0 < data.length ∧ data.length < blockSize) (hparity : parity.length = eccLen) :
    (List.range (numOfBlocks data.length)).foldl (decodeBlock rs data.length) (rxBuffer (data ++ parity), 0) =
      (store (rxBuffer (data ++ parity)) 0 (rs.decoder data parity).1, ofInt32 (rs.decoder data parity).2) := by
  obtain ⟨hblocks, hblock⟩ := oneBlock hdata.1 hdata.2
  have hall : image (rxBuffer (data ++ parity)) 0 (data.length + eccLen) = data ++ parity := by
    have := image_store (fun _ => 0) 0 (data ++ parity)
    rwa [List.length_append, hparity] at this
  rw [image_add, Nat.zero_add] at hall
  obtain ⟨hd, hp⟩ := List.append_inj hall (image_length _ _ _)
  have hfirst : rs.decoderAt (rxBuffer (data ++ parity) 0) data parity = rs.decoder data parity := by
    rw [ReedSolomon.decoder, ← image_headD (rxBuffer (data ++ parity)) 0 hdata.1 0, hd]
  have hnum : ofInt32 (rs.decoder data parity).2 % 2 ^ 32 = ofInt32 (rs.decoder data parity).2 :=
    Nat.mod_eq_of_lt (ofInt32_lt _)
  simp only [hblocks, List.range_one, List.foldl_cons, List.foldl_nil, decodeBlock, hblock, Nat.zero_mul,
    Nat.add_zero, hd, hp, hfirst, Nat.zero_add, hnum]

theorem ofInt32_natCast (hnum : numErr < 2 ^ 32) : ofInt32 (numErr : ℤ) = numErr := by
  unfold ofInt32
  omega

end

/-! ## Marked packets -/

/-- The packet as it is delivered after `totalNumErr` errors. -/
def VlcPacket.marked (p : VlcPacket) (totalNumErr : ℕ) : VlcPacket :=
  if totalNumErr > 0 then
    { p with
      nodeId := if p.nodeId.toNat = dummyPacketNodeId then p.nodeId else UInt16.ofNat errorNodeId
      payload := littleEndian 4 totalNumErr ++ p.payload.drop 4 }
  else p

theorem Holds.markErrors {m : Memory} {p : VlcPacket} (h : Holds m p.bytes) (hlen : 4 ≤ p.payload.length)
    (totalNumErr : ℕ) : Holds (markErrors m totalNumErr) (p.marked totalNumErr).bytes := by
  unfold Kernel.markErrors VlcPacket.marked
  split
  · rw [h.load_nodeId]
    split
    · exact (h.store_nodeId (UInt16.ofNat errorNodeId)).store_payload (littleEndian_length _ _) hlen
    · next hid =>
      rw [if_pos (not_not.mp hid)]
      exact h.store_payload (littleEndian_length _ _) hlen
  · exact h

@[simp] theorem VlcPacket.marked_zero (p : VlcPacket) : p.marked 0 = p := rfl

theorem VlcPacket.marked_length (p : VlcPacket) (hlen : 4 ≤ p.payload.length) (totalNumErr : ℕ) :
    (p.marked totalNumErr).bytes.length = p.bytes.length := by
  rw [VlcPacket.bytes_length, VlcPacket.bytes_length, VlcPacket.marked]
  split
  · rw [List.length_append, List.length_drop, littleEndian_length]
    omega
  · rfl

theorem decodeFrame_eq {rs : ReedSolomon} {p : VlcPacket} {data parity : List UInt8} {numErr : ℕ}
    (hlen : 4 ≤ p.payload.length) (hlt : p.payload.length + 10 < blockSize)
    (hdata : data.length = p.bytes.length) (hparity : parity.length = eccLen) (hnum : numErr < 2 ^ 32)
    (hdecode : rs.decoder data parity = (p.bytes, (numErr : ℤ))) :
    decodeFrame rs p.bytes.length (data ++ parity) = (p.marked numErr).bytes := by
  have hsize := p.bytes_length
  have hblocks := @decodeBlocks_eq rs data parity (by omega) hparity
  rw [hdecode, ofInt32_natCast hnum] at hblocks
  have hholds : Holds (store (rxBuffer (data ++ parity)) 0 p.bytes) p.bytes := image_store _ _ _
  have hmarked := hholds.markErrors hlen numErr
  rw [Holds, p.marked_length hlen] at hmarked
  rw [decodeFrame, ← hdata, hblocks, hdata]
  exact hmarked

theorem pruPhyDecoding_eq {rs : ReedSolomon} {p : VlcPacket} {pru : Memory} {data parity : List UInt8}
    {numErr : ℕ} (hready : load pru readIdxOffset 2 ≠ load pru writeIdxOffset 2)
    (hload : load pru (load pru readIdxOffset 2) 2 = p.payload.length)
    (hlen : 4 ≤ p.payload.length) (hmtu : p.payload.length ≤ mtuValue)
    (hframe : image pru (load pru readIdxOffset 2) (p.bytes.length + eccLen) = data ++ parity)
    (hparity : parity.length = eccLen) (hnum : numErr < 2 ^ 32)
    (hdecode : rs.decoder data parity = (p.bytes, (numErr : ℤ))) :
    pruPhyDecoding rs pru = (some (p.marked numErr).bytes, store pru readIdxOffset
      (littleEndian 2 (nextReadIdx (load pru readIdxOffset 2) p.bytes.length))) := by
  simp only [mtuValue] at hmtu
  have hdata : data.length = p.bytes.length := by
    have h := congrArg List.length hframe
    rw [image_length, List.length_append] at h
    omega
  have haccept : acceptLength p.payload.length = true := by
    rw [acceptLength, decide_eq_true_iff]
    simp only [mtuValue]
    omega
  have hlength := packetLength_eq (p := p) (by omega)
  have hdelivered := decodeFrame_eq hlen (by simp only [blockSize]; omega) hdata hparity hnum hdecode
  unfold pruPhyDecoding
  rw [if_neg hready, hload, if_pos haccept, hlength]
  dsimp only
  rw [hframe, hdelivered]

end CiotVlc.Kernel
