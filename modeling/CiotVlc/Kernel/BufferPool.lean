import CiotVlc.Foundations.Checked
import CiotVlc.Foundations.LinkedQueue
import CiotVlc.Foundations.Runs
import CiotVlc.Kernel.Transmit

/-! # The buffers of the transmitting driver

`struct vlc_packet` buffers on an explicit heap: one `next` pointer threads a buffer through the free list
`ppool` or through `tx_queue`. `vlc_tx` and the timer handler are program counters, so that their buffer
operations interleave; each operation is atomic. A buffer is a number, in the order of the allocations,
which all succeed.
-/
namespace CiotVlc.Kernel
open Foundations.Bytes Foundations.Checked Foundations.LinkedQueue Foundations.Runs
set_option autoImplicit false

/-- `vlc_tx`: between its operations it holds `tmp_pkt`. -/
inductive TxPc
  | idle
  | fill (tmpPkt : ℕ) (skb : List UInt8)
  | enqueue (tmpPkt : ℕ)
  deriving DecidableEq

/-- `phy_timer_handler`; what it writes and releases is the global `tx_pkt`. -/
inductive TimerPc
  | idle
  | write
  | release
  | publish
  deriving DecidableEq

/-- The heap of buffers, the globals of the driver, the memory shared with the PRU, and two histories: the
packets handed to `vlc_tx`, and those from `tx_queue` handed to `write_packet_to_pru_memory`. -/
structure PoolDriver where
  next : ℕ → Option ℕ
  data : ℕ → PacketData
  datalen : ℕ → ℕ
  fresh : ℕ
  ppool : Option ℕ
  txQueue : Option ℕ
  stopped : Bool
  txPkt : ℕ
  vlcQPkt : ℕ
  isWriteNext : Bool
  readIdx : ℕ
  writeIdx : ℕ
  pru : Memory
  tx : TxPc
  timer : TimerPc
  submitted : List (List UInt8)
  written : List (List UInt8)

/-- Only `vlc_init` assigns it. -/
def flagExit : ℤ := 0

namespace PoolDriver

/-! ## vlc_init -/

/-- One pass of the loop of `vlc_setup_pool`. -/
def setupOne (s : PoolDriver) : PoolDriver :=
  { s with next := Function.update s.next s.fresh s.ppool, ppool := some s.fresh, fresh := s.fresh + 1 }

def vlcSetupPool (poolSize : ℕ) (s : PoolDriver) : PoolDriver := setupOne^[poolSize] { s with ppool := none }

/-- `vlc_init`, on any memory; the queue of a new device is not stopped. -/
def vlcInit (poolSize : ℕ) (memory : ℕ → PacketData) (pru : Memory) : PoolDriver :=
  vlcSetupPool poolSize
    { next := fun _ => none
      data := memory
      datalen := fun _ => 0
      fresh := 2
      ppool := none
      txQueue := none
      stopped := false
      txPkt := 0
      vlcQPkt := 1
      isWriteNext := true
      readIdx := ringStart
      writeIdx := ringStart
      pru
      tx := .idle
      timer := .idle
      submitted := []
      written := [] }

/-! ## Operations on buffers -/

def vlcOpen (s : PoolDriver) : PoolDriver := { s with stopped := false }

/-- The statement that would stop the queue is commented out. -/
def vlcRelease (s : PoolDriver) : PoolDriver := s

def vlcGetTxBuffer (s : PoolDriver) : Except Fault (ℕ × PoolDriver) :=
  match s.ppool with
  | none => .error .nullPointer
  | some pkt =>
    let s := { s with ppool := s.next pkt }
    .ok (pkt, if s.ppool = none then { s with stopped := true } else s)

def vlcReleaseBuffer (s : PoolDriver) (pkt : ℕ) : PoolDriver :=
  let s := { s with next := Function.update s.next pkt s.ppool, ppool := some pkt }
  if s.stopped ∧ s.next pkt = none ∧ flagExit = 0 then { s with stopped := false } else s

/-- The walk to the last packet visits each buffer at most once, or does not end. -/
def vlcEnqueuePkt (s : PoolDriver) (pkt : ℕ) : Option PoolDriver :=
  match s.txQueue with
  | none => some { s with txQueue := some pkt }
  | some first => do
    let last ← lastFrom s.next s.fresh first
    return { s with next := Function.update s.next last (some pkt) }

def vlcDequeuePkt (s : PoolDriver) : Option ℕ × PoolDriver :=
  match s.txQueue with
  | none => (none, s)
  | some pkt => (some pkt, { s with txQueue := s.next pkt })

/-! ## vlc_tx -/

/-- The next operation of `vlc_tx`; a new call takes `skb`. -/
def vlcTxStep (s : PoolDriver) (skb : List UInt8) : Option PoolDriver :=
  match s.tx with
  | .idle => do
    let (tmpPkt, s) ← s.vlcGetTxBuffer.toOption
    return { s with tx := .fill tmpPkt skb, submitted := s.submitted ++ [skb] }
  | .fill tmpPkt skb =>
    some { s with
      tx := .enqueue tmpPkt
      next := Function.update s.next tmpPkt none
      datalen := Function.update s.datalen tmpPkt skb.length
      data := Function.update s.data tmpPkt (store (s.data tmpPkt) 0 skb) }
  | .enqueue tmpPkt => do
    let s ← s.vlcEnqueuePkt tmpPkt
    return { s with tx := .idle }

/-! ## phy_timer_handler -/

/-- The bytes of the packet in a buffer. -/
def bytesOf (s : PoolDriver) (pkt : ℕ) : List UInt8 := image (s.data pkt) 0 (s.datalen pkt)

/-- `write_idx = write_packet_to_pru_memory(pkt, write_idx)` -/
def writePacket (rs : ReedSolomon) (s : PoolDriver) (pkt : ℕ) : PoolDriver :=
  let (data, pru, writeIdx) := writePacketToPruMemory rs (s.data pkt) s.pru s.writeIdx
  { s with data := Function.update s.data pkt data, pru, writeIdx }

/-- `if (write_idx >= BUFFER_LIMIT) { .. } is_write_next = 0;` -/
def finishWrite (s : PoolDriver) : PoolDriver :=
  { s with
    writeIdx := if s.writeIdx ≥ bufferLimit then ringStart else s.writeIdx
    isWriteNext := false
    timer := .publish }

/-- The next operation of the timer handler. -/
def timerStep (rs : ReedSolomon) (s : PoolDriver) : PoolDriver :=
  match s.timer with
  | .idle =>
    if s.isWriteNext then
      let s := { s with writeIdx := load s.pru writeIdxOffset 2 }
      match s.vlcDequeuePkt with
      | (some pkt, s) => { s with txPkt := pkt, timer := .write }
      | (none, s) => (s.writePacket rs s.vlcQPkt).finishWrite
    else { s with timer := .publish }
  | .write => { s.writePacket rs s.txPkt with written := s.written ++ [s.bytesOf s.txPkt], timer := .release }
  | .release => (s.vlcReleaseBuffer s.txPkt).finishWrite
  | .publish =>
    let s := { s with readIdx := load s.pru readIdxOffset 2, timer := .idle }
    if s.readIdx ≠ s.writeIdx then
      { s with pru := store s.pru writeIdxOffset (littleEndian 2 s.writeIdx), isWriteNext := true }
    else s

end PoolDriver

/-! ## Runs -/

inductive PoolAction
  | vlcOpen
  | vlcRelease
  | vlcTx (skb : List UInt8)
  | timer
  | firmware (pru : Memory)

open PoolDriver

/-- One operation of one party; the firmware may store anything in the shared memory. -/
def poolStep (rs : ReedSolomon) (s : PoolDriver) : PoolAction → Option PoolDriver
  | .vlcOpen => some s.vlcOpen
  | .vlcRelease => some s.vlcRelease
  | .vlcTx skb => s.vlcTxStep skb
  | .timer => some (s.timerStep rs)
  | .firmware pru => some { s with pru }

/-! ## Flow control -/

/-- A call of `vlc_tx`, which the stack issues only while the queue is not stopped, finds a buffer. -/
def FindsBuffer (s : PoolDriver) : Prop := s.stopped = false → s.ppool ≠ none

/-- The interface is not opened while the free list is empty. -/
def OpensWithBuffer (s : PoolDriver) : PoolAction → Prop
  | .vlcOpen => s.ppool ≠ none
  | _ => True

/-- The queue is stopped exactly while the free list is empty. -/
def FlowControl (s : PoolDriver) : Prop := s.stopped = true ↔ s.ppool = none

section
variable {rs : ReedSolomon} {s t : PoolDriver}

theorem FlowControl.findsBuffer (h : FlowControl s) : FindsBuffer s := by
  intro hrun hempty
  rw [h.mpr hempty] at hrun
  cases hrun

theorem setupOne_iterate_ppool (n : ℕ) (s : PoolDriver) :
    (setupOne^[n] s).stopped = s.stopped ∧ (0 < n → (setupOne^[n] s).ppool ≠ none) := by
  induction n with
  | zero => exact ⟨rfl, fun h => absurd h (lt_irrefl 0)⟩
  | succ n ih =>
    rw [Function.iterate_succ_apply']
    exact ⟨ih.1, fun _ h => by cases h⟩

theorem flowControl_init {poolSize : ℕ} (hpos : 1 ≤ poolSize) (memory : ℕ → PacketData) (pru : Memory) :
    FlowControl (vlcInit poolSize memory pru) := by
  obtain ⟨hstopped, hpool⟩ := setupOne_iterate_ppool poolSize _
  exact iff_of_false (by rw [vlcInit, vlcSetupPool, hstopped]; exact Bool.false_ne_true) (hpool hpos)

theorem FlowControl.congr (h : FlowControl s) (hstopped : t.stopped = s.stopped) (hpool : t.ppool = s.ppool) :
    FlowControl t := by
  rw [FlowControl, hstopped, hpool]
  exact h

theorem FlowControl.get {pkt : ℕ} (h : FlowControl s) (hget : s.vlcGetTxBuffer = .ok (pkt, t)) : FlowControl t := by
  unfold vlcGetTxBuffer at hget
  split at hget
  case h_1 => cases hget
  case h_2 first hpool =>
    have hrunning : ¬ s.stopped = true := fun hs => by
      rw [h.mp hs] at hpool
      cases hpool
    obtain ⟨rfl, rfl⟩ := Prod.mk.inj (Except.ok.inj hget)
    split
    · next hnone => exact iff_of_true rfl hnone
    · next hsome => exact iff_of_false hrunning hsome

theorem FlowControl.release (h : FlowControl s) (pkt : ℕ) : FlowControl (s.vlcReleaseBuffer pkt) := by
  have hsome : (some pkt : Option ℕ) ≠ none := fun he => by cases he
  unfold vlcReleaseBuffer
  simp only [Function.update_self]
  split
  · exact iff_of_false Bool.false_ne_true hsome
  · next hnot => exact iff_of_false (fun hs => hnot ⟨hs, h.mp hs, rfl⟩) hsome

theorem FlowControl.timer (h : FlowControl s) : FlowControl (s.timerStep rs) := by
  unfold timerStep vlcDequeuePkt
  cases s.timer with
  | idle =>
    dsimp only
    split
    · cases s.txQueue with
      | none => exact h.congr rfl rfl
      | some pkt => exact h.congr rfl rfl
    · exact h.congr rfl rfl
  | write => exact h.congr rfl rfl
  | release => exact (h.release s.txPkt).congr rfl rfl
  | publish =>
    dsimp only
    split
    · exact h.congr rfl rfl
    · exact h.congr rfl rfl

theorem FlowControl.vlcTx {skb : List UInt8} (h : FlowControl s) (hstep : s.vlcTxStep skb = some t) :
    FlowControl t := by
  unfold vlcTxStep at hstep
  generalize s.tx = pc at hstep
  cases pc with
  | idle =>
    obtain ⟨⟨pkt, u⟩, hget, hstep⟩ := Option.bind_eq_some_iff.mp hstep
    cases hstep
    exact (h.get (toOption_eq_some.mp hget)).congr rfl rfl
  | fill pkt skb' =>
    cases hstep
    exact h.congr rfl rfl
  | enqueue pkt =>
    obtain ⟨u, henqueue, hstep⟩ := Option.bind_eq_some_iff.mp hstep
    cases hstep
    unfold vlcEnqueuePkt at henqueue
    split at henqueue
    · cases henqueue
      exact h.congr rfl rfl
    · obtain ⟨last, _, henqueue⟩ := Option.bind_eq_some_iff.mp henqueue
      cases henqueue
      exact h.congr rfl rfl

theorem FlowControl.step {a : PoolAction} (h : FlowControl s) (hgood : OpensWithBuffer s a)
    (hstep : poolStep rs s a = some t) : FlowControl t := by
  cases a with
  | vlcOpen =>
    cases hstep
    exact iff_of_false Bool.false_ne_true hgood
  | vlcRelease =>
    cases hstep
    exact h
  | vlcTx skb => exact h.vlcTx hstep
  | timer =>
    cases hstep
    exact h.timer
  | firmware pru =>
    cases hstep
    exact h.congr rfl rfl

/-- Opening the interface restarts the queue, whatever the free list holds. -/
theorem not_findsBuffer_of_open {a : PoolAction} (hbad : ¬ OpensWithBuffer s a)
    (hstep : poolStep rs s a = some t) : ¬ FindsBuffer t := by
  cases a with
  | vlcOpen =>
    cases hstep
    exact fun h => hbad (h rfl)
  | vlcRelease => exact absurd trivial hbad
  | vlcTx skb => exact absurd trivial hbad
  | timer => exact absurd trivial hbad
  | firmware pru => exact absurd trivial hbad

end

/-- The only buffer is in use when the interface is taken down and up again. -/
def reopenedRun : List PoolAction :=
  [.vlcOpen, .vlcTx [1], .vlcTx [1], .vlcTx [1], .vlcRelease, .vlcOpen]

/-- The next call of `vlc_tx` follows a null pointer. -/
theorem reopened_without_buffer :
    let rs : ReedSolomon := ⟨fun _ par => par, fun _ block _ => (block, 0)⟩
    ∃ t, Run (poolStep rs) (vlcInit 1 (fun _ _ => 0) fun _ => 0) reopenedRun t ∧
      t.stopped = false ∧ t.vlcGetTxBuffer = .error .nullPointer := by
  intro rs
  exact ⟨_, run_of_exec rfl, rfl, rfl⟩

/-- As long as no `vlc_open` finds the free list empty, no call of `vlc_tx` does. -/
theorem calls_get_buffer (rs : ReedSolomon) (poolSize : ℕ) (memory : ℕ → PacketData) (pru : Memory)
    (as : List PoolAction) (hpos : 1 ≤ poolSize)
    (hopens : EveryStep (poolStep rs) (vlcInit poolSize memory pru) as OpensWithBuffer) :
    EveryStep (poolStep rs) (vlcInit poolSize memory pru) as fun s a =>
      ∀ skb, a = .vlcTx skb → s.tx = .idle → s.stopped = false → ∃ got, s.vlcGetTxBuffer = .ok got := by
  intro bs a s hbs hrun skb _ _ hrunning
  have hflow : FlowControl s := hrun.invariant_of_everyStep (flowControl_init hpos memory pru)
    (fun _ _ _ h hgood hstep => h.step hgood hstep) (hopens.mono ((List.prefix_append bs [a]).trans hbs))
  obtain ⟨pkt, hpkt⟩ := Option.ne_none_iff_exists'.mp (hflow.findsBuffer hrunning)
  rw [vlcGetTxBuffer, hpkt]
  exact ⟨_, rfl⟩

/-- **When every call finds a buffer.** All along a run of the driver, the queue accepts calls only while the
free list holds a buffer, exactly when the interface is never opened while the free list is empty. -/
theorem findsBuffer_iff (rs : ReedSolomon) (poolSize : ℕ) (memory : ℕ → PacketData) (pru : Memory)
    (as : List PoolAction) (t : PoolDriver) (hpos : 1 ≤ poolSize)
    (hrun : Run (poolStep rs) (vlcInit poolSize memory pru) as t) :
    Always (poolStep rs) (vlcInit poolSize memory pru) as FindsBuffer ↔
      EveryStep (poolStep rs) (vlcInit poolSize memory pru) as OpensWithBuffer :=
  always_iff_everyStep (I := FlowControl) hrun (flowControl_init hpos memory pru)
    (fun _ h => h.findsBuffer) (fun _ _ _ h hgood hstep => h.step hgood hstep)
    (fun _ _ _ _ hbad hstep => not_findsBuffer_of_open hbad hstep)

/-- The interface is opened once, before the only buffer is in use. -/
theorem findsBuffer_iff_opened_once :
    let rs : ReedSolomon := ⟨fun _ par => par, fun _ block _ => (block, 0)⟩
    let s := vlcInit 1 (fun _ _ => 0) fun _ => 0
    Always (poolStep rs) s [.vlcOpen, .vlcTx [1], .vlcTx [1], .vlcTx [1], .timer] FindsBuffer ↔
      EveryStep (poolStep rs) s [.vlcOpen, .vlcTx [1], .vlcTx [1], .vlcTx [1], .timer] OpensWithBuffer := by
  intro rs s
  exact findsBuffer_iff rs 1 _ _ _ _ le_rfl (run_of_exec rfl)

end CiotVlc.Kernel
