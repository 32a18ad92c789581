import CiotVlc.Foundations.Bytes
import CiotVlc.Foundations.Checked

/-! # Packets of the node program

The packet record of `node_packet.h` and the reader that `receive_vlc` runs on what the VLC driver
delivers: three little-endian 16-bit fields, a 32-bit sequence number, then the payload.
-/
namespace CiotVlc.Node
open Foundations.Bytes Foundations.Checked
set_option autoImplicit false

structure NodePacket where
  nodeId : UInt16
  vlcId : UInt16
  payloadLen : UInt16
  seqNumber : UInt32
  data : List UInt8
  deriving DecidableEq, Repr

/-- `((uint16_t)buff[i+1]<<8) + (uint16_t)buff[i]` -/
def readUInt16 (buff : List UInt8) (i : ℕ) : Except Fault UInt16 := do
  let high ← readByte buff (i + 1)
  let low ← readByte buff i
  return UInt16.ofNat (high.toNat * 256 + low.toNat)

def generateFromBytes (buff : List UInt8) : Except Fault NodePacket := do
  let payloadLen ← readUInt16 buff 0
  let nodeId ← readUInt16 buff 2
  let vlcId ← readUInt16 buff 4
  let seqBytes ← readBytes buff 6 4
  let data ← readBytes buff 10 payloadLen.toNat
  return { nodeId, vlcId, payloadLen, seqNumber := UInt32.ofNat (ofLittleEndian seqBytes), data }

end CiotVlc.Node
