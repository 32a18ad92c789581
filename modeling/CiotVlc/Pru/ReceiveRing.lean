import CiotVlc.Foundations.FrameRing
import CiotVlc.Foundations.Runs
import CiotVlc.Kernel.Receive
import CiotVlc.Pru.RxFrames

/-! # The receive ring

The receiver firmware and the decoding thread of the driver on one memory. The firmware takes a symbol,
or a round of its loop at `FINAL`, at a time. The thread takes one access at a time: it reads an index
word, tests the length word, copies one byte, or writes the read index.
-/
namespace CiotVlc.Pru
open Foundations.Bytes Foundations.Registers Foundations.FrameRing Foundations.Runs
open CiotVlc.Kernel (acceptLength packetLength nextReadIdx eccLen readIdxOffset writeIdxOffset ReedSolomon decodeFrame
  pruPhyDecoding)
set_option autoImplicit false

structure Frame where
  start : ℕ
  bytes : List UInt8
  deriving DecidableEq, Repr

/-! ## The decoding thread -/

/-- `pru_phy_decoding`, with the values it has read. -/
inductive PollPc
  | readRead
  | readWrite (readIdx : ℕ)
  | readLength (readIdx : ℕ)
  | copy (readIdx datalen : ℕ) (copied : List UInt8)
  | release (readIdx datalen : ℕ)

/-- What a step of the thread leaves: where it is, the memory, and the frame it has just copied. -/
structure Polled where
  pc : PollPc
  mem : Memory
  copied : Option Frame

def poll (pc : PollPc) (mem : Memory) : Polled :=
  match pc with
  | .readRead => ⟨.readWrite (load mem 2 2), mem, none⟩
  | .readWrite readIdx => ⟨if readIdx = load mem 0 2 then .readRead else .readLength readIdx, mem, none⟩
  | .readLength readIdx =>
    let datalen := load mem readIdx 2
    ⟨if acceptLength datalen then .copy readIdx (packetLength datalen) [] else .readRead, mem, none⟩
  | .copy readIdx datalen copied =>
    if copied.length < datalen + eccLen then
      ⟨.copy readIdx datalen (copied ++ [mem (readIdx + copied.length)]), mem, none⟩
    else ⟨.release readIdx datalen, mem, some ⟨readIdx, copied⟩⟩
  | .release readIdx datalen =>
    ⟨.readRead, store mem 2 (littleEndian 2 (nextReadIdx readIdx datalen)), none⟩

/-- Steps of the thread alone, with the frames that it copies. -/
def pollMany : ℕ → PollPc → Memory → List Frame → PollPc × Memory × List Frame
  | 0, pc, mem, frames => (pc, mem, frames)
  | k + 1, pc, mem, frames =>
    let p := poll pc mem
    pollMany k p.pc p.mem (frames ++ p.copied.toList)

theorem pollMany_copy (m : Memory) (readIdx datalen k j : ℕ) (frames : List Frame) (hj : j + k = datalen + eccLen) :
    pollMany k (.copy readIdx datalen (image m readIdx j)) m frames =
      (.copy readIdx datalen (image m readIdx (datalen + eccLen)), m, frames) := by
  induction k generalizing j with
  | zero => rw [← hj, Nat.add_zero, pollMany]
  | succ k ih =>
    have hstep : poll (.copy readIdx datalen (image m readIdx j)) m =
        ⟨.copy readIdx datalen (image m readIdx (j + 1)), m, none⟩ := by
      rw [poll, image_length, if_pos (by omega), image_succ]
    rw [pollMany, hstep]
    simp only [Option.toList_none, List.append_nil]
    exact ih (j + 1) (by omega)

theorem pollMany_add (j k : ℕ) (pc : PollPc) (m : Memory) (frames : List Frame) :
    pollMany (j + k) pc m frames =
      let s := pollMany j pc m frames
      pollMany k s.1 s.2.1 s.2.2 := by
  induction j generalizing pc m frames with
  | zero => rw [Nat.zero_add, pollMany]
  | succ j ih =>
    rw [Nat.succ_add, pollMany, pollMany]
    exact ih _ _ _

/-- **Run alone, the steps of the thread are one pass of `pru_phy_decoding`.** -/
theorem pollMany_pass (rs : ReedSolomon) (m : Memory) :
    ∃ k frames, pollMany k .readRead m [] = (.readRead, (pruPhyDecoding rs m).2, frames) ∧
      (pruPhyDecoding rs m).1 = frames.head?.map fun f => decodeFrame rs (f.bytes.length - eccLen) f.bytes := by
  unfold pruPhyDecoding
  by_cases hempty : load m 2 2 = load m 0 2
  · refine ⟨2, [], ?_, ?_⟩
    · simp [pollMany, poll, readIdxOffset, writeIdxOffset, hempty]
    · simp [readIdxOffset, writeIdxOffset, hempty]
  by_cases hacc : acceptLength (load m (load m 2 2) 2) = true
  · have hstart : pollMany 3 .readRead m [] =
        (.copy (load m 2 2) (packetLength (load m (load m 2 2) 2)) (image m (load m 2 2) 0), m, []) := by
      simp [pollMany, poll, hempty, hacc, image]
    have hcopy := pollMany_copy m (load m 2 2) (packetLength (load m (load m 2 2) 2))
      (packetLength (load m (load m 2 2) 2) + eccLen) 0 [] (Nat.zero_add _)
    refine ⟨3 + (packetLength (load m (load m 2 2) 2) + eccLen + 2),
      [⟨load m 2 2, image m (load m 2 2) (packetLength (load m (load m 2 2) 2) + eccLen)⟩], ?_, ?_⟩
    · rw [pollMany_add, hstart, pollMany_add]
      simp only [hcopy]
      simp [pollMany, poll, image_length, readIdxOffset, writeIdxOffset, hempty, hacc]
    · simp [image_length, readIdxOffset, writeIdxOffset, hempty, hacc]
  · refine ⟨3, [], ?_, ?_⟩
    · simp [pollMany, poll, readIdxOffset, writeIdxOffset, hempty, hacc]
    · simp [readIdxOffset, writeIdxOffset, hempty, hacc]

/-! ## The system -/

/-- Memory, firmware and thread, with three histories: the bytes stored for the frame in progress, the
frames completed at `FINAL`, and the frames copied by the thread. -/
structure RxRing where
  mem : Memory
  rx : RxState
  pc : PollPc
  current : List UInt8
  completed : List Frame
  copied : List Frame

/-- The firmware stores both indices; what else is in the memory does not matter. -/
def rxRingStart (pru : Memory) : RxRing where
  mem := store pru 0 (littleEndian 2 4 ++ littleEndian 2 4)
  rx := rxStart
  pc := .readRead
  current := []
  completed := []
  copied := []

inductive RingAction
  | symbol (high : Bool)
  | final
  | poll

/-- The pass of the firmware that an action takes, if it is waiting for it. -/
def RxRing.pass (s : RxRing) : RingAction → Option (RxState × Option Store)
  | .symbol high => if s.rx.control = .nextBit then some (rxBit s.rx s.mem high.toNat) else none
  | .final => if s.rx.control = .final then some (rxFinal s.rx s.mem) else none
  | .poll => none

/-- The bytes of the frame in progress: the length word starts it. -/
def RxRing.record (s : RxRing) : Option Store → List UInt8
  | none => s.current
  | some st => if s.rx.r14 = 1 then st.bytes else s.current ++ st.bytes

def RxRing.received (s : RxRing) (pass : RxState × Option Store) : RxRing :=
  { s with rx := pass.1, mem := applyStore s.mem pass.2, current := s.record pass.2 }

/-- After a round of the loop at `FINAL`: a pass that stores the write index completes the frame. -/
def RxRing.finished (s : RxRing) (pass : RxState × Option Store) : RxRing :=
  { s with
    rx := pass.1
    mem := applyStore s.mem pass.2
    completed :=
      if pass.2.isSome then s.completed ++ [⟨load s.mem 0 2, s.current⟩] else s.completed }

def RxRing.polled (s : RxRing) (p : Polled) : RxRing :=
  { s with pc := p.pc, mem := p.mem, copied := s.copied ++ p.copied.toList }

def ringStep (s : RxRing) (a : RingAction) : Option RxRing :=
  match a with
  | .symbol _ => (s.pass a).map s.received
  | .final => (s.pass a).map s.finished
  | .poll => some (s.polled (poll s.pc s.mem))

/-! ## What is to hold -/

/-- An index that the firmware and the driver can agree on. -/
def OnSlot (index : ℕ) : Prop := 4 ≤ index ∧ index ≤ 5904 ∧ index % 100 = 4

/-- The frames that are published and not yet copied. -/
def RxRing.published (s : RxRing) : List Frame := s.completed.drop s.copied.length

/-- The ring delivers every frame once, intact and in order. -/
structure RingSafe (s : RxRing) : Prop where
  readIdx : OnSlot (load s.mem 2 2)
  writeIdx : OnSlot (load s.mem 0 2)
  inside : ∀ f ∈ s.completed, f.bytes.length = 100 ∧ 4 ≤ f.start ∧ f.start + 100 ≤ bufferLimit
  untouched : ∀ a rx st, s.pass a = some (rx, some st) → ∀ f ∈ s.published,
    st.addr + st.bytes.length ≤ f.start ∨ f.start + 100 ≤ st.addr
  accepted : ∀ readIdx, s.pc = .readLength readIdx → acceptLength (load s.mem readIdx 2) = true
  delivered : s.copied <+: s.completed

end CiotVlc.Pru
