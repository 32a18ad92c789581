import CiotVlc.Foundations.Bytes
import CiotVlc.Foundations.Checked
import CiotVlc.Node.Status

/-! # Status reports: the two encoders and the decoder

The node writes a report in two places, `send_report` (which the program runs) and
`convert_report_packet_to_string`; both loops are the same text over different arrays, so the loop
is one definition that takes the array reads as a parameter. The gateway reads a report back with
`generate_status_report_from_string`. Buffers are bounded: an access outside one is a fault.
-/
namespace CiotVlc.Report
open Foundations.Bytes Foundations.Checked CiotVlc.Node
set_option autoImplicit false

structure VlcInformation where
  vlcTxId : ℤ
  vlcLinkQuality : ℤ
  deriving DecidableEq, Repr

structure StatusReportPacket where
  nodeId : ℤ
  ackNumber : ℤ
  patternLength : ℤ
  ackBitPattern : List UInt8
  nVlc : ℤ
  vlcData : List VlcInformation
  deriving DecidableEq, Repr

def intBytes (x : ℤ) : List UInt8 := littleEndian 4 (ofInt32 x)

/-- `pattern_length / 8 + (pattern_length % 8 == 0 ? 0 : 1)`, with the division of C. -/
def patternBytes (patternLength : ℤ) : ℤ :=
  patternLength.tdiv 8 + if patternLength.tmod 8 = 0 then 0 else 1

/-! ## Encoders -/

/-- `for (j = cur_idx; j < cur_last_idx; j++)`: `count` bits of a byte, the next one at `n_shift`. -/
def packByte (cell : ℕ → Except Fault ℤ) : (count j nShift : ℕ) → (tempByte : UInt8) → Except Fault UInt8
  | 0, _, _, tempByte => .ok tempByte
  | count + 1, j, nShift, tempByte => do
    let x ← cell j
    packByte cell count (j + 1) (nShift - 1) (tempByte ||| UInt8.ofNat ((x % 2).toNat <<< nShift))

/-- `for (i = 0; i < pattern_bytes; i++)`: `count` bytes of the pattern. -/
def packPattern (cap : ℕ) (cell : ℕ → Except Fault ℤ) :
    (count i : ℕ) → (remaining : ℤ) → (buff : List UInt8) → Except Fault (List UInt8)
  | 0, _, _, buff => .ok buff
  | count + 1, i, remaining, buff => do
    let curIdx := i * 8
    let bits := if remaining > 8 then 8 else remaining
    let tempByte ← packByte cell bits.toNat curIdx 7 0
    let buff ← put cap [tempByte] buff
    packPattern cap cell count (i + 1) (remaining - 8) buff

/-- The id and the link quality of each transmitter. -/
def putVlcData (cap : ℕ) (entry : ℕ → Except Fault VlcInformation) :
    (count i : ℕ) → (buff : List UInt8) → Except Fault (List UInt8)
  | 0, _, buff => .ok buff
  | count + 1, i, buff => do
    let info ← entry i
    let buff ← put cap [UInt8.ofInt info.vlcTxId] buff
    let buff ← put cap [UInt8.ofInt info.vlcLinkQuality] buff
    putVlcData cap entry count (i + 1) buff

/-- The text that the two encoders share: a report appended to a buffer of `cap` bytes. -/
def encodeReport (cap : ℕ) (nodeId ackNumber patternLength : ℤ) (cell : ℕ → Except Fault ℤ)
    (nVlc : ℤ) (entry : ℕ → Except Fault VlcInformation) (buff : List UInt8) :
    Except Fault (List UInt8) := do
  let buff ← put cap [UInt8.ofInt nodeId] buff
  let buff ← put cap (intBytes ackNumber) buff
  let buff ← put cap (intBytes patternLength) buff
  let buff ← packPattern cap cell (patternBytes patternLength).toNat 0 patternLength buff
  let buff ← put cap [UInt8.ofInt nVlc] buff
  putVlcData cap entry nVlc.toNat 0 buff

/-- The size of the buffer that `convert_report_packet_to_string` allocates. -/
def reportBuffer : ℕ := 1000

/-- The size of the send buffer of `send_report`. -/
def bufSiz : ℕ := 1024

/-- `packet.ACK_bit_pattern[j]` -/
def StatusReportPacket.patternByte (packet : StatusReportPacket) (j : ℕ) : Except Fault ℤ := do
  let b ← readByte packet.ackBitPattern j
  return b.toNat

/-- `packet.vlc_data[i]` -/
def StatusReportPacket.vlcEntry (packet : StatusReportPacket) (i : ℕ) : Except Fault VlcInformation :=
  match packet.vlcData[i]? with
  | some info => .ok info
  | none => .error (.outOfBounds i)

def convertReportPacketToString (packet : StatusReportPacket) (vlcTxNumber : ℤ) :
    Except Fault (List UInt8) :=
  encodeReport reportBuffer packet.nodeId packet.ackNumber packet.patternLength packet.patternByte
    vlcTxNumber packet.vlcEntry []

structure EtherHeader where
  bytes : List UInt8
  size : bytes.length = 14

/-- `status.last_rcv_seq - status.rcv_seq + 1` -/
def patternLength (status : NodeStatus) : ℤ := status.lastRcvSeq - status.rcvSeq + 1

/-- One round of `send_report`: the frame handed to `sendto`. `in255Range i` is the quality of
transmitter `i` scaled to 255. -/
def sendReport (eh : EtherHeader) (nodeId : UInt8) (status : NodeStatus) (nVlc : ℕ)
    (in255Range : ℕ → ℤ) : Except Fault (List UInt8) :=
  encodeReport bufSiz nodeId.toNat status.rcvSeq (patternLength status)
    (fun j => readCell status.size status.rcvState (status.rcvSeq + j))
    nVlc
    (fun i => .ok { vlcTxId := i + 1, vlcLinkQuality := in255Range i })
    eh.bytes

/-! ## Decoder -/

/-- `for (j = 7; j >= conv_shift_until; j--)`, from `j = count - 1` down. -/
def unpackByte (cap : ℕ) (byteTemp : UInt8) (convShiftUntil : ℤ) :
    (count : ℕ) → (bits : List UInt8) → Except Fault (List UInt8)
  | 0, bits => .ok bits
  | j + 1, bits =>
    if (j : ℤ) ≥ convShiftUntil then do
      let bits ← put cap [UInt8.ofNat (byteTemp.toNat >>> j &&& 1)] bits
      unpackByte cap byteTemp convShiftUntil j bits
    else .ok bits

/-- `for (i = 0; i < pattern_bytes; i++)`: the pattern read so far and the read position. -/
def unpackPattern (reportBytes : List UInt8) (cap : ℕ) :
    (count idx : ℕ) → (remaining : ℤ) → (bits : List UInt8) → Except Fault (List UInt8 × ℕ)
  | 0, idx, _, bits => .ok (bits, idx)
  | count + 1, idx, remaining, bits => do
    let byteTemp ← readByte reportBytes idx
    let convShiftUntil := if remaining ≥ 8 then 0 else 8 - remaining
    let bits ← unpackByte cap byteTemp convShiftUntil 8 bits
    unpackPattern reportBytes cap count (idx + 1) (remaining - 8) bits

/-- The entries read so far and the read position. -/
def readVlcData (reportBytes : List UInt8) :
    (count idx : ℕ) → (entries : List VlcInformation) → Except Fault (List VlcInformation × ℕ)
  | 0, idx, entries => .ok (entries, idx)
  | count + 1, idx, entries => do
    let txId ← readByte reportBytes idx
    let quality ← readByte reportBytes (idx + 1)
    readVlcData reportBytes count (idx + 2)
      (entries ++ [{ vlcTxId := txId.toNat, vlcLinkQuality := quality.toNat }])

/-- The report, and the position `idx` behind it. -/
def generateStatusReportFromString (reportBytes : List UInt8) :
    Except Fault (StatusReportPacket × ℕ) := do
  let nodeId ← readByte reportBytes 0
  let ack ← readBytes reportBytes 1 4
  let len ← readBytes reportBytes 5 4
  let patternLength := int32 (ofLittleEndian len)
  let (ackBitPattern, idx) ←
    unpackPattern reportBytes patternLength.toNat (patternBytes patternLength).toNat 9 patternLength []
  let nVlc ← readByte reportBytes idx
  let (vlcData, idx) ← readVlcData reportBytes nVlc.toNat (idx + 1) []
  return ({ nodeId := nodeId.toNat, ackNumber := int32 (ofLittleEndian ack), patternLength,
            ackBitPattern, nVlc := nVlc.toNat, vlcData }, idx)

end CiotVlc.Report
