import Mathlib.Data.Rat.Defs
import CiotVlc.Gateway.PacketQueue

/-! # The gateway's configuration and globals

The constants of `gateway.h` as a configuration (`shipped` is the one in the repository), the status
tables of `gateway.c`, and the globals of `main.c` that reports and the dispatcher work on.
-/
namespace CiotVlc.Gateway
set_option autoImplicit false

def maxSeqNumber : ℕ := 500000

def maxUnackedVlcPacket : ℕ := 500000

def payloadSize : ℕ := 74

/-- The configuration. A report counts the transmitters in one byte. -/
structure Config where
  nNode : ℕ
  nVlc : ℕ
  nVlc_le : nVlc ≤ 255
  nodeQueueSize : ℤ
  rfQueueSize : ℤ
  generatedPackets : ℕ
  limit : ℤ
  burst : ℤ
  tokenRate : ℤ
  nodeAddresses : ℕ → List UInt8

def shipped : Config where
  nNode := 1
  nVlc := 1
  nVlc_le := by decide
  nodeQueueSize := 1000000
  rfQueueSize := 300000
  generatedPackets := 1
  limit := 1
  burst := 6
  tokenRate := 1
  nodeAddresses := fun _ => [0xec, 0x08, 0x6b, 0x13, 0x1e, 0x5c]

def rfMac : List UInt8 := [0x18, 0xa6, 0xf7, 0x1a, 0xa9, 0x04]

/-- An entry of `pkt_state`: still zero, or one of the three named values. -/
inductive PktState
  | unset
  | vlcUnacked
  | vlcAcked
  | rf
  deriving DecidableEq, Repr

structure Timespec where
  tvSec : ℤ
  tvNsec : ℤ
  deriving DecidableEq, Repr

structure GatewayStatus where
  unackedSeq : ℕ → ℤ
  unschedSeq : ℕ → ℤ
  arrSeq : ℕ → ℤ
  pktState : ℕ → ℕ → PktState
  expireTime : ℕ → ℕ → Timespec

def initializeGatewayStatus : GatewayStatus where
  unackedSeq := fun _ => 0
  unschedSeq := fun _ => 0
  arrSeq := fun _ => 0
  pktState := fun _ _ => .unset
  expireTime := fun _ _ => ⟨0, 0⟩

/-- The globals. `unackedVlcPacket` lists the first `n_unacked_vlc_packet` entries of the table. -/
structure Globals where
  status : GatewayStatus
  heap : Heap
  nodeQueues : ℕ → PacketQueue
  rfQueue : PacketQueue
  vlcQueue : PacketQueue
  gn : ℕ → ℤ
  r : ℤ
  dVlc : ℕ → ℤ
  e : ℕ → ℕ → ℚ
  unackedVlcPacket : List GatewayPacket

def initialGlobals (cfg : Config) : Globals where
  status := initializeGatewayStatus
  heap := { data := fun _ => ⟨0, 0, 0, 0, []⟩, next := fun _ => none, fresh := 0 }
  nodeQueues := fun _ => constructQueue cfg.nodeQueueSize
  rfQueue := constructQueue cfg.rfQueueSize
  vlcQueue := constructQueue cfg.rfQueueSize
  gn := fun _ => 0
  r := 0
  dVlc := fun _ => 0
  e := fun _ _ => 0
  unackedVlcPacket := []

end CiotVlc.Gateway
