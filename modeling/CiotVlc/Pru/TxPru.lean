import CiotVlc.Foundations.Registers

/-! # The transmitter firmware

`TXPRU.p`, one definition for each label that does work. `checkState` is one pass of `GETVALUE`, from
`CHECK_STATE` to `AFTERGETVALUE`; it appends one symbol of preamble or separator, or the two symbols
of a Manchester bit, to the word in `r3`. `txStep` is the main loop around it.
-/
namespace CiotVlc.Pru
open Foundations.Bytes Foundations.Registers
set_option autoImplicit false

def txPreambleLen : ℕ := 3
def txBufferLimit : ℕ := 6004

/-- `TXPRU.p`: `ADDRESS_LENGTH * 2 + SEQ_NUMBER_LENGTH + ECC_LEN`, with `SEQ_NUMBER_LENGTH` 24 -/
def txOtherPacketContentByte : ℕ := 2 * 2 + 24 + 16

/-- `r17` -/
def preambleValue : ℕ := 0xAA

/-- `r8` -/
def txSfdValue : ℕ := 0xA3

/-- `r13` and `r14`: the two symbols of a bit, the first one in the low bit. -/
def encodedHigh : ℕ := 2
def encodedLow : ℕ := 1

/-- The shift register that a call of `GETVALUE` fills. -/
inductive Gpo
  | sh0
  | sh1
  deriving DecidableEq, Repr

/-- Where the firmware is: at `CHECK_INDEX`, in `SHIFTLOOP`, in a call of `GETVALUE`, or halted. -/
inductive TxControl
  | checkIndex
  | shiftLoop
  | getValue (gpo : Gpo)
  | halted
  deriving DecidableEq, Repr

/-- The registers. `r1` bits in the word, `r2` state (0 preamble, 1 SFD, 2 length, 3 body, 4 separator), `r3`
the word, `r5` the register filled last, `r7` bit counter, `r9` `read_idx`, `r10` packet length, `r12`
bytes after the length, `r15` encoded bytes, `r16` the byte, `r18` `cnt_preamble`, `r25` `write_idx`,
`r26` `is_packet_finish`, `r27` `is_state_reset`. -/
structure TxState where
  r1 : ℕ
  r2 : ℕ
  r3 : ℕ
  r5 : Bool
  r7 : ℕ
  r9 : ℕ
  r10 : ℕ
  r12 : ℕ
  r15 : ℕ
  r16 : ℕ
  r18 : ℕ
  r25 : ℕ
  r26 : Bool
  r27 : Bool
  control : TxControl
  deriving DecidableEq, Repr

def resetToPreamble (t : TxState) : TxState :=
  { t with r2 := 0, r7 := 7, r18 := 0, r27 := true, control := .checkIndex }

def txStart : TxState :=
  resetToPreamble
    { r1 := 0, r2 := 0, r3 := 0, r5 := false, r7 := 7, r9 := 0, r10 := 0, r12 := 0, r15 := 0, r16 := 0,
      r18 := 0, r25 := 0, r26 := false, r27 := false, control := .checkIndex }

/-! ## GETVALUE -/

/-- Append `count` bits to the word. -/
def appendBits (t : TxState) (bits count : ℕ) : TxState :=
  { t with r3 := add t.r3 (lsl bits t.r1), r1 := add t.r1 count }

/-- `ENCODEBIT`: the bit is the lowest one of `r11`. -/
def encodeBit (t : TxState) (r11 : ℕ) : TxState :=
  appendBits t (if r11.testBit 0 then encodedHigh else encodedLow) 2

def preamble (t : TxState) : TxState :=
  let r11 := lsr preambleValue t.r7 &&& 1
  let t := appendBits t r11 1
  if t.r7 = 0 then
    let t := { t with r18 := add t.r18 1 }
    if t.r18 = txPreambleLen then { t with r2 := 1, r7 := 7 } else { t with r7 := 7 }
  else { t with r7 := sub t.r7 1 }

def toLength (t : TxState) (m : Memory) : TxState :=
  { t with r2 := 2, r7 := 15, r10 := loadReg m t.r10 t.r9 2, r9 := add t.r9 2 }

def txSfd (t : TxState) (m : Memory) : TxState :=
  let r11 := lsr txSfdValue t.r7
  if t.r7 = 0 then encodeBit (toLength t m) r11 else encodeBit { t with r7 := sub t.r7 1 } r11

def toBody (t : TxState) (m : Memory) : TxState :=
  { t with
    r2 := 3
    r7 := 7
    r15 := 0
    r12 := add t.r10 txOtherPacketContentByte
    r16 := loadReg m t.r16 t.r9 1
    r9 := add t.r9 1 }

def dataLength (t : TxState) (m : Memory) : TxState :=
  let r11 := lsr t.r10 t.r7
  if t.r7 = 0 then encodeBit (toBody t m) r11 else encodeBit { t with r7 := sub t.r7 1 } r11

/-- `PACKET_DONE` and `INIT_NEXT_PREAMBLE`: the read index goes to memory. -/
def packetDone (t : TxState) : TxState × Option Store :=
  let t := { t with r2 := 4, r9 := if txBufferLimit > t.r9 then t.r9 else 4 }
  ({ t with r26 := true, r7 := 3, r18 := 0 }, some (storeReg t.r9 2 2))

def nextByte (t : TxState) (m : Memory) : TxState × Option Store :=
  let t := { t with r7 := 7, r15 := add t.r15 1 }
  if t.r15 = t.r12 then packetDone t
  else ({ t with r16 := loadReg m t.r16 t.r9 1, r9 := add t.r9 1 }, none)

def dataOok (t : TxState) (m : Memory) : TxState × Option Store :=
  let r11 := lsr t.r16 t.r7
  if t.r7 = 0 then
    let (t, st) := nextByte t m
    (encodeBit t r11, st)
  else (encodeBit { t with r7 := sub t.r7 1 } r11, none)

def packetEnd (t : TxState) : TxState :=
  let t := { appendBits t encodedLow 1 with r18 := lsl encodedLow t.r1 }
  if t.r7 = 0 then { t with r2 := 0, r7 := 7, r18 := 0 } else { t with r7 := sub t.r7 1 }

/-- One pass of `GETVALUE`. -/
def checkState (t : TxState) (m : Memory) : TxState × Option Store :=
  match t.r2 with
  | 0 => (preamble t, none)
  | 1 => (txSfd t m, none)
  | 2 => (dataLength t m, none)
  | 3 => dataOok t m
  | 4 => (packetEnd t, none)
  | _ => ({ t with control := .halted }, none)

/-! ## The main loop -/

/-- What a step leaves: the registers, what it stored, and the word it loaded into a shift register. -/
structure TxStep where
  state : TxState
  store : Option Store
  word : Option ℕ

/-- `CALL GETVALUE`: the call starts with an empty word. -/
def callGetValue (t : TxState) (gpo : Gpo) : TxState := { t with r1 := 0, r3 := 0, control := .getValue gpo }

/-- Behind the call: only the first shift register's path looks at `is_packet_finish`. -/
def returnTo (t : TxState) : Gpo → TxControl
  | .sh0 => if t.r26 then .checkIndex else .shiftLoop
  | .sh1 => .shiftLoop

def checkIndex (t : TxState) (m : Memory) : TxState :=
  let t := { t with r25 := loadReg m t.r25 0 2, r9 := loadReg m t.r9 2 2 }
  if t.r9 ≠ t.r25 then { t with r27 := false, r26 := false, control := .shiftLoop }
  else if t.r27 = false then resetToPreamble t
  else t

/-- `SHIFTLOOP`, with the bit `LOAD_GPO_SH` of the configuration register. -/
def shiftLoop (t : TxState) (loadGpoSh : Bool) : TxState :=
  match t.r5, loadGpoSh with
  | false, true => callGetValue { t with r5 := true } .sh0
  | true, false => callGetValue { t with r5 := false } .sh1
  | _, _ => t

/-- A pass of `GETVALUE`, and the return from it with a full word. -/
def getValuePass (t : TxState) (m : Memory) (gpo : Gpo) : TxStep :=
  let (t, st) := checkState t m
  if t.control = .halted then ⟨t, st, none⟩
  else if t.r1 ≠ 16 then ⟨t, st, none⟩
  else ⟨{ t with control := returnTo t gpo }, st, some (t.r3 % 2 ^ 16)⟩

def txStep (t : TxState) (m : Memory) (loadGpoSh : Bool) : TxStep :=
  match t.control with
  | .checkIndex => ⟨checkIndex t m, none, none⟩
  | .shiftLoop => ⟨shiftLoop t loadGpoSh, none, none⟩
  | .getValue gpo => getValuePass t m gpo
  | .halted => ⟨t, none, none⟩

end CiotVlc.Pru
