import CiotVlc.Foundations.Runs
import CiotVlc.Kernel.Transmit
import CiotVlc.Pru.TxPru

/-! # The transmit ring

The driver's timer fills a ring in PRU memory, and the transmitter firmware empties it; the only things
they share are the frames and the two index words. A tick of the timer and a pass of the firmware are
one step each.
-/
namespace CiotVlc.Pru
open Foundations.Bytes Foundations.Registers Foundations.Runs
open CiotVlc.Kernel (ReedSolomon PacketData VlcPacket Holds TxDriver vlcTx phyTimerHandler
  writePacketToPruMemory eccLen ringStart dummyPacketNodeId)
set_option autoImplicit false

/-- A buffer handed to `vlc_tx`: a packet with the payload length of the gateway. -/
structure QueuedPacket where
  data : PacketData
  packet : VlcPacket
  holds : Holds data packet.bytes
  length_eq : packet.payload.length = Kernel.payloadLen

def vlcTxId : UInt16 := 1

/-- `init_vlc_quality_packet` -/
def dummyPacket : VlcPacket :=
  ⟨UInt16.ofNat dummyPacketNodeId, vlcTxId, 100, List.replicate Kernel.payloadLen 0xCA⟩

def dummyData : PacketData := store (fun _ => 0) 0 dummyPacket.bytes

/-- Memory, driver and firmware, with four histories: the bytes of the last write and the frames
published, the bytes of the packet that the firmware encodes and the packets that it finished. -/
structure TxRing where
  mem : Memory
  driver : TxDriver
  tx : TxState
  written : List UInt8
  published : List (List UInt8)
  current : List UInt8
  encoded : List (List UInt8)

/-- `init_module`, on any memory. -/
def txRingStart (pru : Memory) : TxRing where
  mem := store pru 0 (littleEndian 2 ringStart ++ littleEndian 2 ringStart)
  driver := ⟨ringStart, ringStart, true, [], dummyData⟩
  tx := txStart
  written := []
  published := []
  current := []
  encoded := []

inductive TxAction
  | vlcTx (p : QueuedPacket)
  | tick
  | tx (loadGpoSh : Bool)

/-- What a write stores: the next packet of the device queue, or the dummy packet, with its parity. -/
def TxRing.nextFrame (rs : ReedSolomon) (s : TxRing) : List UInt8 :=
  let pkt := s.driver.txQueue.headD s.driver.vlcQPkt
  let writeIdx := load s.mem 0 2
  image (writePacketToPruMemory rs pkt s.mem writeIdx).2.1 writeIdx
    ((Kernel.packetLength (load pkt 0 2) + eccLen) % 2 ^ 16)

/-- After a tick. The flag `is_write_next` is set behind a tick that published the last write. -/
def TxRing.ticked (rs : ReedSolomon) (s : TxRing) : TxRing :=
  let (driver, mem) := phyTimerHandler rs s.driver s.mem
  let written := if s.driver.isWriteNext then s.nextFrame rs else s.written
  { s with
    driver
    mem
    written
    published := if driver.isWriteNext then s.published ++ [written] else s.published }

/-- The bytes of the packet in progress: the length word starts it, and each byte that is loaded goes
behind. -/
def recordByte (t t' : TxState) (current : List UInt8) : List UInt8 :=
  match t.r2, t'.r2 with
  | 1, 2 => littleEndian 2 t'.r10
  | 2, 3 => current ++ [UInt8.ofNat t'.r16]
  | 3, 3 => if t'.r15 = t.r15 then current else current ++ [UInt8.ofNat t'.r16]
  | _, _ => current

/-- After a step of the firmware. It stores only at `PACKET_DONE`, the read index. -/
def TxRing.transmitted (s : TxRing) (step : TxStep) : TxRing :=
  let current := recordByte s.tx step.state s.current
  { s with
    tx := step.state
    mem := applyStore s.mem step.store
    current
    encoded := if step.store.isSome then s.encoded ++ [current] else s.encoded }

def txRingStep (rs : ReedSolomon) (s : TxRing) : TxAction → Option TxRing
  | .vlcTx p => some { s with driver := vlcTx s.driver p.data }
  | .tick => some (s.ticked rs)
  | .tx loadGpoSh => some (s.transmitted (txStep s.tx s.mem loadGpoSh))

/-! ## What is to hold -/

/-- The index behind a frame. -/
def behindFrame (idx : ℕ) (frame : List UInt8) : ℕ :=
  if Kernel.bufferLimit ≤ idx + frame.length then ringStart else idx + frame.length

/-- Driver and firmware agree on where the frames lie: the read index is behind as many published frames as
the firmware finished packets, these packets are the published frames, and the ring looks empty only
when nothing published is left. -/
structure Lockstep (s : TxRing) : Prop where
  readIdx : load s.mem 2 2 = (s.published.take s.encoded.length).foldl behindFrame ringStart
  encodes : s.encoded <+: s.published
  empty : load s.mem 2 2 = load s.mem 0 2 → s.encoded.length = s.published.length

/-- The firmware is at the last bit of the last byte of a packet: its next pass takes `PACKET_DONE`. -/
def FinishesPacket (t : TxState) : Prop :=
  (∃ gpo, t.control = .getValue gpo) ∧ t.r2 = 3 ∧ t.r7 = 0 ∧ add t.r15 1 = t.r12

end CiotVlc.Pru
