import CiotVlc.Gateway.ParcelNumbers
import CiotVlc.Links.NodeFrames
import CiotVlc.Links.QueueReports
import CiotVlc.Report.SendBuffer

/-! # The acknowledgement loop

The whole gateway and the node, with the links between them: a packet or a report that was sent may be heard at
any time, any number of times, in any order, or never. Frames over VLC arrive as the error correction repairs
them. Whatever the links do, the gateway never takes a packet for received that the node has not seen, unless
the node itself has given it up.
-/
namespace CiotVlc.Links
open Foundations.Bytes Foundations.Checked Foundations.Runs Foundations.LinkedQueue
open CiotVlc.Gateway CiotVlc.Report CiotVlc.Kernel
open CiotVlc.Node (NodePacket NodeStatus processData processAll initializeNodeStatus selfId rsErrorId maxProcessQueue
  seqNumbers maxAckBitPattern)
set_option autoImplicit false

/-! ## What goes over the links -/

/-- The packet that the transmitter's program reads from the frame that `transmit_packet_vlc` sends. -/
def relay (p : GatewayPacket) : Except Fault GatewayPacket := do
  let frame ← transmitPacketVlc gatewayEthMac p
  generateGatewayPacketFromBytes (frame.drop 14)

/-- The packet whose bytes `transmit_to_vlc` writes to the device. -/
def deviceTx (p : GatewayPacket) : VlcPacket := ⟨p.nodeId, p.vlcId, p.seqNumber, p.data⟩

/-- The structure that `transmit_packet_rf` reads: `transmit_vlc` may have freed the payload. -/
def rfContent (released : List ℕ) (memory : Payload) (temp : Parcel) : GatewayPacket :=
  if temp.serial ∈ released then { temp.packet with data := memory.val } else temp.packet

/-- The link-layer header of a report. -/
def reportHeader : EtherHeader := ⟨etherHeader gatewayMac nodeMac, etherHeader_length _ _⟩

/-! ## The system -/

/-- The two programs, and what has been sent over each link. `processed` and `rfHeard` are histories. -/
structure AckLoop where
  gateway : GatewaySystem
  node : NodeSystem
  vlcAir : List GatewayPacket
  rfAir : List (List UInt8)
  reports : List (List UInt8)
  processed : List NodePacket
  rfHeard : ℕ

def initialLoop (buf buff : Buffer) : AckLoop where
  gateway := initialGateway
  node := initialNode buf buff
  vlcAir := []
  rfAir := []
  reports := []
  processed := []
  rfHeard := 0

/-- A thread of the gateway that reaches no link, a send or a reception of the gateway, and the same of the node.
`rest` is what else is in the buffer of `receive_report`. -/
inductive LoopAction (cfg : Config)
  | thread (a : ThreadAction cfg)
  | sendVlc
  | sendRf (memory : Payload)
  | hearReport (frame rest : List UInt8)
  | hearVlc (packet : GatewayPacket) (wrong : ℕ)
  | hearRf (k : ℕ)
  | processData
  | sendReport (in255Range : ℕ → ℤ)

/-- The threads' iterations that reach a link have their own actions. -/
def isInternal {cfg : Config} : ThreadAction cfg → Bool
  | .transmitVlc => false
  | .report _ => false
  | .tbfTransmit sendSucceeds => !sendSucceeds
  | _ => true

/-- A step that faults has no successor. -/
def loopStep (cfg : Config) (s : AckLoop) : LoopAction cfg → Option AckLoop
  | .thread a =>
    if isInternal a then do
      let gateway ← gatewayStep cfg s.gateway a
      return { s with gateway }
    else none
  | .sendVlc => do
    let gateway ← gatewayStep cfg s.gateway .transmitVlc
    let sent ← ((s.gateway.path.vlcQueue.take 1).mapM fun temp => relay temp.packet).toOption
    return { s with gateway, vlcAir := s.vlcAir ++ sent }
  | .sendRf memory =>
    if s.gateway.nToken > 0 then do
      let gateway ← gatewayStep cfg s.gateway (.tbfTransmit true)
      let sent ← ((s.gateway.tbfQueue.take 1).mapM fun temp =>
        transmitPacketRf gatewayMac (rfContent s.gateway.path.released memory temp)).toOption
      return { s with gateway, rfAir := s.rfAir ++ sent }
    else some s
  | .hearReport frame rest =>
    if frame ∈ s.reports then do
      let gateway ← gatewayStep cfg s.gateway (.report (frame ++ rest))
      return { s with gateway }
    else none
  | .hearVlc packet wrong =>
    if packet ∈ s.vlcAir ∧ wrong ≤ 8 then do
      let node ← (nodeStep s.node (.receiveVlc ((deviceTx packet).marked wrong).bytes)).toOption
      return { s with node }
    else none
  | .hearRf k => do
    let frame ← s.rfAir[k]?
    let node ← (nodeStep s.node (.receiveRf frame)).toOption
    return { s with node, rfHeard := s.rfHeard + 1 }
  | .processData => do
    let node ← (nodeStep s.node .processData).toOption
    return { s with node, processed := s.processed ++ s.node.processQueue.take 1 }
  | .sendReport in255Range => do
    let frame ← (Report.sendReport reportHeader (UInt8.ofNat selfId.toNat) s.node.status cfg.nVlc in255Range).toOption
    return { s with reports := s.reports ++ [frame] }

/-! ## Frames and packets -/

section
variable {cfg : Config} {p : GatewayPacket}

theorem relay_eq (hp : PayloadFits p) : relay p = .ok { p with vlcId := readVlcId (p.vlcId.toNat + 1) } := by
  rw [relay, transmitPacketVlc, transmitPacket_eq hp, ok_bind, List.drop_left' (etherHeader_length _ _)]
  have hread := generateGatewayPacketFromBytes_eq hp (p.vlcId.toNat + 1) []
  rwa [List.append_nil] at hread

/-- The frame that `transmit_packet_rf` sends. -/
def rfFrame (p : GatewayPacket) : List UInt8 := etherHeader nodeMac gatewayMac ++ ethernetBytes p 0

theorem transmitPacketRf_eq (hp : PayloadFits p) : transmitPacketRf gatewayMac p = .ok (rfFrame p) :=
  transmitPacket_eq hp _ _ _

theorem rfContent_fits {made : ℕ} {temp : Parcel} (h : Numbered made temp) (released : List ℕ) (memory : Payload) :
    PayloadFits (rfContent released memory temp) := by
  unfold rfContent
  split
  · exact ⟨memory.property.trans h.payloadLen.symm, h.fits.fits⟩
  · exact h.fits

theorem recvFrom_val (buff : Buffer) {frame : List UInt8} (h : frame.length ≤ Node.bufSize) :
    (buff.recvFrom frame).val = frame ++ buff.val.drop frame.length := by
  change Node.recvFrom buff.val frame = _
  rw [Node.recvFrom, List.take_of_length_le h]

/-- The packet that `receive_rf` queues of a frame of the gateway. -/
theorem nodeStep_receiveRf (s : NodeSystem) (hp : PayloadFits p) :
    ∃ buf, nodeStep s (.receiveRf (rfFrame p)) =
      .ok { s with buf, processQueue := Fifo.push maxProcessQueue s.processQueue (asNodePacket p 0) } := by
  have hlen : (rfFrame p).length ≤ Node.bufSize := by
    have hfits := hp.fits
    simp only [rfFrame, ethernetBytes, List.length_append, etherHeader_length, littleEndian_length, hp.length,
      bufSiz, Node.bufSize] at hfits ⊢
    omega
  have hread : receiveRf (s.buf.recvFrom (rfFrame p)).val = .ok (some (asNodePacket p 0)) := by
    rw [recvFrom_val _ hlen]
    exact receiveRf_eq hp 0 _
  refine ⟨s.buf.recvFrom (rfFrame p), ?_⟩
  simp only [nodeStep, hread, ok_bind]
  rfl

/-- The packet that `receive_vlc` queues of a repaired frame. -/
theorem nodeStep_receiveVlc (s : NodeSystem) (hlen : p.data.length = payloadSize) (hid : p.nodeId = 1) (wrong : ℕ) :
    ∃ buff q, nodeStep s (.receiveVlc ((deviceTx p).marked wrong).bytes) =
        .ok { s with buff, processQueue := Fifo.push maxProcessQueue s.processQueue q } ∧
      q.seqNumber = p.seqNumber ∧ q.nodeId = 1 := by
  have hpayload : (deviceTx p).payload.length = 74 := hlen
  have hbytes := (deviceTx p).marked_length (by omega) wrong
  have hmarked : ((deviceTx p).marked wrong).payload.length = 74 := by
    rw [VlcPacket.bytes_length, VlcPacket.bytes_length, hpayload] at hbytes
    omega
  have hsize : ((deviceTx p).marked wrong).bytes.length = 84 := by
    rw [VlcPacket.bytes_length, hmarked]
  have hnumber : ((deviceTx p).marked wrong).seqNumber = p.seqNumber := by
    unfold VlcPacket.marked
    split <;> rfl
  have hnode : ((deviceTx p).marked wrong).nodeId = selfId ∨ ((deviceTx p).marked wrong).nodeId = rsErrorId := by
    unfold VlcPacket.marked
    split
    · have hself : (deviceTx p).nodeId = 1 := hid
      simp only [hself]
      exact Or.inr rfl
    · exact Or.inl hid
  generalize (deviceTx p).marked wrong = m at hmarked hsize hnumber hnode
  have hread : readVlcFrame (s.buff.recvFrom m.bytes).val = .ok (some m.received) := by
    rw [recvFrom_val _ (by rw [hsize]; decide), readVlcFrame, readUInt16_length, ok_bind, hmarked, if_pos (by decide),
      generateFromBytes_eq m (by rw [hmarked]; decide)]
    rfl
  have hqueued : queuedVlc m.received = some { m.received with nodeId := selfId } := if_pos hnode
  refine ⟨s.buff.recvFrom m.bytes, { m.received with nodeId := selfId }, ?_, hnumber, rfl⟩
  rw [nodeStep, if_pos (by rw [hsize]; decide)]
  simp only [hread, ok_bind, Option.bind_some, hqueued]
  rfl

end

end CiotVlc.Links
