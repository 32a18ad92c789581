import CiotVlc.Foundations.Registers

/-! # The receiver firmware

`RXPRU.p`, one definition for each label that does work. A pass handles one received symbol: it starts
at `GET_CURRENT_BIT` and ends at `AFTER_BIT_PROCESSED`, in the wait loop of `FINAL`, or at `END`. A pass
stores to memory at most once.
-/
namespace CiotVlc.Pru
open Foundations.Bytes Foundations.Registers
set_option autoImplicit false

def preambleLen : ℕ := 3
def bufferLimit : ℕ := 6004
def payloadLen : ℕ := 74

/-- `RXPRU.p`: `ADDRESS_LENGTH * 2 + SEQ_NUMBER_LENGTH + ECC_LEN` -/
def rxOtherPacketContentByte : ℕ := 2 * 2 + 4 + 16

/-- Where the firmware waits: for the next symbol, in the loop of `FINAL`, or nowhere any more. -/
inductive RxControl
  | nextBit
  | final
  | halted
  deriving DecidableEq, Repr

/-- The registers. `r4` program state, `r8` `cnt_symbol`, `r9` `cnt_preamble`, `r10` `prev_symbol`, `r12`
first symbol of a pair, `r13` decoded bit, `r14` packet state (0 SFD, 1 length, 2 body, 3 final),
`r15` bit counter, `r16` SFD check, length or byte total, `r20` `current_offset`, `r21` `rx_ch`,
`r23` `cur_written_byte_num`, `r25` the read index. -/
structure RxState where
  r4 : ℕ
  r8 : ℕ
  r9 : ℕ
  r10 : ℕ
  r12 : ℕ
  r13 : ℕ
  r14 : ℕ
  r15 : ℕ
  r16 : ℕ
  r20 : ℕ
  r21 : ℕ
  r23 : ℕ
  r25 : ℕ
  control : RxControl
  deriving DecidableEq, Repr

/-- `r17` -/
def sfdValue : ℕ := 0xA3

def rxStart : RxState where
  r4 := 0
  r8 := 1
  r9 := 0
  r10 := 0
  r12 := 0
  r13 := 0
  r14 := 0
  r15 := 7
  r16 := 0
  r20 := 0
  r21 := 0
  r23 := 0
  r25 := 0
  control := .nextBit

/-! ## Preamble search -/

/-- The four instructions before every return to the search. -/
def backToSearch (s : RxState) (prev : ℕ) : RxState := { s with r8 := 1, r9 := 0, r10 := prev, r4 := 0 }

def preambleDone (s : RxState) : RxState := { s with r15 := 7, r16 := 0, r4 := 1, r14 := 0 }

def addPreamble (s : RxState) : RxState :=
  let s := { s with r8 := 0, r9 := add s.r9 1 }
  if preambleLen ≤ s.r9 then preambleDone s else s

def afterAddSymbol (s : RxState) (r7 : ℕ) : RxState :=
  let s := { s with r10 := r7 }
  if 8 ≤ s.r8 then addPreamble s else s

/-- At an even count a rising edge is waited for, at an odd one a falling edge. -/
def expectedEdge (s : RxState) (r7 : ℕ) : Bool :=
  if s.r8.testBit 0 then s.r10 > r7 else r7 > s.r10

def preambleDetection (s : RxState) (r7 : ℕ) : RxState :=
  if expectedEdge s r7 then afterAddSymbol { s with r8 := add s.r8 1 } r7
  else afterAddSymbol { s with r8 := 1, r9 := 0, r10 := r7 } r7

/-! ## Packets -/

def decodeOokFirst (s : RxState) (r7 : ℕ) : RxState := { s with r12 := r7, r4 := 2 }

def sfd (s : RxState) (r7 : ℕ) : RxState :=
  let s := { s with r16 := lsr sfdValue s.r15 ^^^ s.r13 }
  if s.r16.testBit 0 then backToSearch s r7
  else if s.r15 = 0 then { s with r15 := 15, r16 := 0, r4 := 1, r14 := 1 }
  else { s with r15 := sub s.r15 1, r4 := 1 }

/-- `r20` behind the bytes just stored. -/
def wrapOffset (offset : ℕ) : ℕ := if bufferLimit > offset then offset else 4

def processLength (s : RxState) (m : Memory) : RxState × Option Store :=
  if s.r16 ≠ payloadLen then (backToSearch s 0, none)
  else
    let s := { s with r20 := loadReg m s.r20 0 2 }
    ({ s with
        r20 := wrapOffset (add s.r20 2)
        r15 := 7
        r21 := 0
        r23 := 0
        r16 := add s.r16 rxOtherPacketContentByte
        r14 := 2
        r4 := 1 }, some (storeReg s.r16 s.r20 2))

def length (s : RxState) (m : Memory) : RxState × Option Store :=
  let s := { s with r13 := lsl s.r13 s.r15 }
  let s := { s with r16 := add s.r16 s.r13 }
  if s.r15 = 0 then processLength s m else ({ s with r15 := sub s.r15 1, r4 := 1 }, none)

def processPacketByte (s : RxState) : RxState × Option Store :=
  let st := storeReg s.r21 s.r20 1
  let s := { s with r23 := add s.r23 1, r20 := wrapOffset (add s.r20 1) }
  if s.r16 ≤ s.r23 then ({ s with control := .final }, some st)
  else ({ s with r15 := 7, r21 := 0, r4 := 1 }, some st)

def body (s : RxState) : RxState × Option Store :=
  let s := { s with r13 := lsl s.r13 s.r15 }
  let s := { s with r21 := add s.r21 s.r13 }
  if s.r15 = 0 then processPacketByte s else ({ s with r15 := sub s.r15 1, r4 := 1 }, none)

def checkPacketState (s : RxState) (m : Memory) (r7 : ℕ) : RxState × Option Store :=
  match s.r14 with
  | 0 => (sfd s r7, none)
  | 1 => length s m
  | 2 => body s
  | 3 => ({ s with control := .final }, none)
  | _ => ({ s with control := .halted }, none)

def decodeOokSecond (s : RxState) (m : Memory) (r7 : ℕ) : RxState × Option Store :=
  if r7 > s.r12 then checkPacketState { s with r13 := 1 } m r7
  else if s.r12 > r7 then checkPacketState { s with r13 := 0 } m r7
  -- neither HIGH nor LOW: inside the body a bit is made up, before it the packet is given up
  else if 1 < s.r14 then checkPacketState { s with r13 := if 0 < s.r12 then 0 else 1 } m r7
  else (backToSearch s r7, none)

/-- One received symbol. -/
def rxBit (s : RxState) (m : Memory) (r7 : ℕ) : RxState × Option Store :=
  match s.r4 with
  | 0 => (preambleDetection s r7, none)
  | 1 => (decodeOokFirst s r7, none)
  | 2 => decodeOokSecond s m r7
  | _ => ({ s with control := .halted }, none)

/-- One round of the loop at `FINAL`: wait while the ring is full, else publish the packet. -/
def rxFinal (s : RxState) (m : Memory) : RxState × Option Store :=
  let s := { s with r25 := loadReg m s.r25 2 2 }
  if s.r25 = s.r20 then (s, none)
  else ({ backToSearch s 0 with control := .nextBit }, some (storeReg s.r20 0 2))

/-! ## One pass, by the program state -/

section
variable {s : RxState} {m : Memory}

theorem rxBit_search (h : s.r4 = 0) (r7 : ℕ) : rxBit s m r7 = (preambleDetection s r7, none) := by
  simp only [rxBit, h]

theorem rxBit_first (h : s.r4 = 1) (r7 : ℕ) : rxBit s m r7 = (decodeOokFirst s r7, none) := by
  simp only [rxBit, h]

theorem rxBit_second (h : s.r4 = 2) (r7 : ℕ) : rxBit s m r7 = decodeOokSecond s m r7 := by
  simp only [rxBit, h]

theorem rxFinal_full (h25 : s.r25 < 256 ^ 2) (h : load m 2 2 = s.r20) :
    rxFinal s m = ({ s with r25 := load m 2 2 }, none) := by
  unfold rxFinal
  dsimp only
  rw [loadReg_of_lt h25, if_pos h]

theorem rxFinal_room (h25 : s.r25 < 256 ^ 2) (h : load m 2 2 ≠ s.r20) :
    rxFinal s m = ({ backToSearch { s with r25 := load m 2 2 } 0 with control := .nextBit },
      some (storeReg s.r20 0 2)) := by
  unfold rxFinal
  dsimp only
  rw [loadReg_of_lt h25, if_neg h]

end

end CiotVlc.Pru
