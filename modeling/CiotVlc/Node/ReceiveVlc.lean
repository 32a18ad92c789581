import CiotVlc.Foundations.LinkedQueue
import CiotVlc.Node.Packet

/-! # The node's VLC receiver

One pass of `receive_vlc`: the bytes that the driver delivered are read as a packet. A packet with the
node's own id, the dummy id or the error id marks the frame period of its transmitter; with the own
id or the error id it is also queued, and the error id becomes the own one.
-/
namespace CiotVlc.Node
open Foundations.Bytes Foundations.Checked Foundations.LinkedQueue
set_option autoImplicit false

def selfId : UInt16 := 1
def dummyPacketNodeId : UInt16 := 99
def rsErrorId : UInt16 := 98
def nVlc : ℕ := 1
def mtuValue : UInt16 := 100
def bufSize : ℕ := 1024
def maxProcessQueue : ℕ := 1000000

/-- The receive buffer, `Frame_Rx`, the process queue and the counters of `receive_vlc`. -/
structure VlcReceiver where
  buff : List UInt8
  frameRx : ℕ → ℤ
  processQueue : List NodePacket
  fromVlc : ℤ
  rsErrorBytes : ℤ
  uncorrectedBytes : ℤ

/-- The buffer after `recvfrom`: what was behind the received bytes stays. -/
def recvFrom (buff received : List UInt8) : List UInt8 :=
  received.take bufSize ++ buff.drop received.length

/-- `Frame_Rx[vlc_id - 1] = 1`, for the id of a transmitter. -/
def markFrame (frameRx : ℕ → ℤ) (vlcId : UInt16) : Except Fault (ℕ → ℤ) :=
  if 0 < vlcId ∧ vlcId.toNat ≤ nVlc then writeCell nVlc frameRx (vlcId.toNat - 1 : ℕ) 1 else .ok frameRx

/-- `if (node_id == RS_ERROR_ID) { .. }`: the packet under the node's own id, and the counters. -/
def countErrors (receiver : VlcReceiver) (arrived : NodePacket) : Except Fault (NodePacket × VlcReceiver) :=
  if arrived.nodeId = rsErrorId then do
    let bytes ← readBytes arrived.data 0 4
    let currNumError := int32 (ofLittleEndian bytes)
    let receiver :=
      if currNumError < 0 then
        { receiver with uncorrectedBytes := receiver.uncorrectedBytes - currNumError }
      else { receiver with rsErrorBytes := receiver.rsErrorBytes + currNumError }
    return ({ arrived with nodeId := selfId }, receiver)
  else .ok (arrived, receiver)

/-- What happens to a packet of an accepted length: the packet given to `push`, if any. -/
def acceptPacket (receiver : VlcReceiver) (arrived : NodePacket) :
    Except Fault (Option NodePacket × VlcReceiver) :=
  if arrived.nodeId = selfId ∨ arrived.nodeId = dummyPacketNodeId ∨ arrived.nodeId = rsErrorId then do
    let frameRx ← markFrame receiver.frameRx arrived.vlcId
    let receiver := { receiver with frameRx }
    if arrived.nodeId = selfId ∨ arrived.nodeId = rsErrorId then do
      let (packet, receiver) ← countErrors receiver arrived
      return (some packet, { receiver with
        processQueue := Fifo.push maxProcessQueue receiver.processQueue packet
        fromVlc := receiver.fromVlc + 1 })
    else .ok (none, receiver)
  else .ok (none, receiver)

/-- One pass of the loop, for the bytes that `recvfrom` returned. -/
def receiveVlc (receiver : VlcReceiver) (received : List UInt8) :
    Except Fault (Option NodePacket × VlcReceiver) :=
  if received.length > 0 then do
    let receiver := { receiver with buff := recvFrom receiver.buff received }
    let packetLength ← readUInt16 receiver.buff 0
    if 0 < packetLength ∧ packetLength ≤ mtuValue then do
      let arrived ← generateFromBytes receiver.buff
      acceptPacket receiver arrived
    else .ok (none, receiver)
  else .ok (none, receiver)

end CiotVlc.Node
