import CiotVlc.Gateway.RfPath
import CiotVlc.Node.Packet

/-! # One queue in three programs

`packet_queue.c` is the same text in the gateway and in the node, whose cells hold another kind of packet;
the VLC transmitter has it under other names, with `prev` for `next`. `queue_refines_fifo`: in all three,
after any operations, the replies are those of a bounded queue, and the cells between `head` and `tail`
are its items, although `pop` leaves `tail` and the popped cell's link behind.
-/
namespace CiotVlc.Links
open Foundations.Checked Foundations.LinkedQueue CiotVlc.Gateway CiotVlc.Node
set_option autoImplicit false

/-! ## The code -/

/-- The cells of a heap: the packet in each, and the link to the next one. -/
structure Cells (δ : Type) where
  data : ℕ → δ
  link : ℕ → Option ℕ

section
variable {δ : Type}

def Cells.setLink (cells : Cells δ) (a : ℕ) (link : Option ℕ) : Cells δ :=
  { cells with link := Function.update cells.link a link }

/-- The text of `push` and `Enqueue`. -/
def pushCell (cells : Cells δ) (q : PacketQueue) (item : ℕ) : Except Fault (Bool × Cells δ × PacketQueue) :=
  if q.size ≥ q.limit then .ok (false, cells, q)
  else
    let cells := cells.setLink item none
    if q.size = 0 then
      .ok (true, cells, { q with head := some item, tail := some item, size := q.size + 1 })
    else
      match q.tail with
      | none => .error .nullPointer
      | some last =>
        .ok (true, cells.setLink last (some item), { q with tail := some item, size := q.size + 1 })

/-- The text of `pop` and `Dequeue`. -/
def popCell (cells : Cells δ) (q : PacketQueue) : Except Fault (Option ℕ × PacketQueue) :=
  if q.isEmpty then .ok (none, q)
  else
    match q.head with
    | none => .error .nullPointer
    | some item => .ok (some item, { q with head := cells.link item, size := q.size - 1 })

end

end CiotVlc.Links

/-! ### The names in the node and in the transmitter -/

namespace CiotVlc.Node
open Foundations.Checked CiotVlc.Gateway CiotVlc.Links
set_option autoImplicit false

protected def constructQueue (limit : ℤ) : PacketQueue := Gateway.constructQueue limit

protected def push : Cells NodePacket → PacketQueue → ℕ → Except Fault (Bool × Cells NodePacket × PacketQueue) :=
  pushCell

protected def pop : Cells NodePacket → PacketQueue → Except Fault (Option ℕ × PacketQueue) := popCell

end CiotVlc.Node

namespace CiotVlc.VlcTx
open Foundations.Checked CiotVlc.Gateway CiotVlc.Links
set_option autoImplicit false

protected def constructQueue (limit : ℤ) : PacketQueue := Gateway.constructQueue limit

protected def enqueue :
    Cells GatewayPacket → PacketQueue → ℕ → Except Fault (Bool × Cells GatewayPacket × PacketQueue) := pushCell

protected def dequeue : Cells GatewayPacket → PacketQueue → Except Fault (Option ℕ × PacketQueue) := popCell

end CiotVlc.VlcTx

namespace CiotVlc.Links
open Foundations.Checked Foundations.LinkedQueue CiotVlc.Gateway CiotVlc.Node
set_option autoImplicit false

/-! ## Operations -/

/-- The queue functions of one program, and where its cells keep their links. -/
structure QueueCode where
  Memory : Type
  link : Memory → ℕ → Option ℕ
  construct : ℤ → PacketQueue
  push : Memory → PacketQueue → ℕ → Except Fault (Bool × Memory × PacketQueue)
  pop : Memory → PacketQueue → Except Fault (Option ℕ × PacketQueue)

inductive Program
  | gateway
  | node
  | vlcTx

def Program.queueCode : Program → QueueCode
  | .gateway => ⟨Heap, Heap.next, constructQueue, push, pop⟩
  | .node => ⟨Cells NodePacket, Cells.link, Node.constructQueue, Node.push, Node.pop⟩
  | .vlcTx => ⟨Cells GatewayPacket, Cells.link, VlcTx.constructQueue, VlcTx.enqueue, VlcTx.dequeue⟩

/-- One operation, and what it returns. -/
def QueueCode.step (code : QueueCode) (s : code.Memory × PacketQueue) :
    Fifo.Op ℕ → Except Fault (Fifo.Reply ℕ × code.Memory × PacketQueue)
  | .push item => do
    let (done, memory, q) ← code.push s.1 s.2 item
    return (.pushed done, memory, q)
  | .pop => do
    let (item, q) ← code.pop s.1 s.2
    return (.popped item, s.1, q)

def QueueCode.run (code : QueueCode) :
    code.Memory × PacketQueue → List (Fifo.Op ℕ) → Except Fault (List (Fifo.Reply ℕ) × code.Memory × PacketQueue)
  | s, [] => .ok ([], s)
  | s, op :: ops => do
    let (reply, s) ← code.step s op
    let (replies, s) ← code.run s ops
    return (reply :: replies, s)

/-! ## The laws of one operation -/

/-- The queue holds the cells `ns`, in this order, and accepts `limit` of them. -/
structure QueueCode.Represents (code : QueueCode) (limit : ℕ) (s : code.Memory × PacketQueue) (ns : List ℕ) :
    Prop where
  holds : QueueHolds (code.link s.1) s.2 ns
  limit_eq : s.2.limit = limit

structure QueueCode.Lawful (code : QueueCode) : Prop where
  construct : ∀ limit, code.construct limit = constructQueue limit
  push_full : ∀ {memory q ns item}, QueueHolds (code.link memory) q ns → q.limit ≤ ns.length →
    code.push memory q item = .ok (false, memory, q)
  push_ok : ∀ {memory q ns item}, QueueHolds (code.link memory) q ns → (ns.length : ℤ) < q.limit → item ∉ ns →
    ∃ memory' q', code.push memory q item = .ok (true, memory', q') ∧ q'.limit = q.limit ∧
      QueueHolds (code.link memory') q' (ns ++ [item])
  pop_nil : ∀ {memory q}, QueueHolds (code.link memory) q [] → code.pop memory q = .ok (none, q)
  pop_cons : ∀ {memory q a ns}, QueueHolds (code.link memory) q (a :: ns) →
    ∃ q', code.pop memory q = .ok (some a, q') ∧ q'.limit = q.limit ∧ QueueHolds (code.link memory) q' ns

theorem gateway_lawful : Program.gateway.queueCode.Lawful where
  construct := fun _ => rfl
  push_full := push_full
  push_ok := by
    intro memory q ns item h hroom hitem
    obtain ⟨heap, q', hpush, hlimit, -, -, hq, -⟩ := push_ok h hroom hitem
    exact ⟨heap, q', hpush, hlimit, hq⟩
  pop_nil := pop_nil
  pop_cons := pop_cons

/-- The gateway's heap with the same links. -/
def Cells.heap {δ : Type} (cells : Cells δ) : Heap where
  data := fun _ => ⟨0, 0, 0, 0, []⟩
  next := cells.link
  fresh := 0

/-- The packets in the cells play no part. -/
theorem pushCell_eq {δ : Type} (cells : Cells δ) (q : PacketQueue) (item : ℕ) :
    pushCell cells q item =
      (push cells.heap q item).map fun r => (r.1, { cells with link := r.2.1.next }, r.2.2) := by
  unfold pushCell push
  by_cases hfull : q.size ≥ q.limit
  · rw [if_pos hfull, if_pos hfull]
    rfl
  · rw [if_neg hfull, if_neg hfull]
    by_cases hzero : q.size = 0
    · simp only [if_pos hzero]
      rfl
    · simp only [if_neg hzero]
      cases q.tail <;> rfl

theorem popCell_eq {δ : Type} (cells : Cells δ) (q : PacketQueue) : popCell cells q = pop cells.heap q := rfl

theorem cells_lawful (δ : Type) :
    (⟨Cells δ, Cells.link, constructQueue, pushCell, popCell⟩ : QueueCode).Lawful where
  construct := fun _ => rfl
  push_full := by
    intro cells q ns item h hfull
    have hpush : push cells.heap q item = _ := push_full h hfull
    change pushCell cells q item = _
    rw [pushCell_eq, hpush]
    rfl
  push_ok := by
    intro cells q ns item h hroom hitem
    obtain ⟨heap, q', hpush, hlimit, -, -, hq, -⟩ := @push_ok cells.heap q ns item h hroom hitem
    refine ⟨{ cells with link := heap.next }, q', ?_, hlimit, hq⟩
    change pushCell cells q item = _
    rw [pushCell_eq, hpush]
    rfl
  pop_nil := by
    intro cells q h
    exact (popCell_eq cells q).trans (pop_nil h)
  pop_cons := by
    intro cells q a ns h
    obtain ⟨q', hpop, hlimit, hq⟩ := @pop_cons cells.heap q a ns h
    exact ⟨q', (popCell_eq cells q).trans hpop, hlimit, hq⟩

theorem queueCode_lawful (p : Program) : p.queueCode.Lawful := by
  cases p with
  | gateway => exact gateway_lawful
  | node => exact cells_lawful NodePacket
  | vlcTx => exact cells_lawful GatewayPacket

/-! ## Any sequence of operations -/

section
variable {code : QueueCode} (hlaw : code.Lawful)
include hlaw

theorem represents_construct (limit : ℤ) (memory : code.Memory) :
    code.Represents (capacity limit) (memory, code.construct limit) [] := by
  rw [hlaw.construct]
  refine ⟨queueHolds_construct _ _, ?_⟩
  rw [capacity, constructQueue]
  dsimp only
  split <;> omega

/-- **One operation gives the reply of the abstract queue**, and afterwards represents its items. -/
theorem step_represents {limit : ℕ} {s : code.Memory × PacketQueue} {ns : List ℕ} {op : Fifo.Op ℕ}
    (h : code.Represents limit s ns) (hfresh : ∀ item, op = .push item → item ∉ ns) :
    ∃ t, code.step s op = .ok ((Fifo.step limit ns op).1, t) ∧ code.Represents limit t (Fifo.step limit ns op).2 := by
  cases op with
  | push item =>
    by_cases hroom : ns.length < limit
    · obtain ⟨memory, q, hpush, hlimit, hq⟩ :=
        hlaw.push_ok h.holds (by rw [h.limit_eq]; exact_mod_cast hroom) (hfresh item rfl)
      refine ⟨(memory, q), ?_, ?_⟩
      · simp only [QueueCode.step, hpush, ok_bind, pure_eq_ok, Fifo.step, hroom, decide_true]
      · rw [Fifo.step, Fifo.push_of_lt item hroom]
        exact ⟨hq, hlimit.trans h.limit_eq⟩
    · have hpush : code.push s.1 s.2 item = .ok (false, s.1, s.2) :=
        hlaw.push_full h.holds (by rw [h.limit_eq]; exact_mod_cast not_lt.mp hroom)
      refine ⟨s, ?_, ?_⟩
      · simp only [QueueCode.step, hpush, ok_bind, pure_eq_ok, Fifo.step, hroom, decide_false]
      · rw [Fifo.step, Fifo.push_of_le item (not_lt.mp hroom)]
        exact h
  | pop =>
    cases ns with
    | nil =>
      refine ⟨s, ?_, h⟩
      simp only [QueueCode.step, hlaw.pop_nil h.holds, ok_bind, pure_eq_ok]
      rfl
    | cons a ns =>
      obtain ⟨q, hpop, hlimit, hq⟩ := hlaw.pop_cons h.holds
      refine ⟨(s.1, q), ?_, hq, hlimit.trans h.limit_eq⟩
      simp only [QueueCode.step, hpop, ok_bind, pure_eq_ok]
      rfl

theorem run_represents {limit : ℕ} {s : code.Memory × PacketQueue} {ns : List ℕ} {ops : List (Fifo.Op ℕ)}
    (h : code.Represents limit s ns) (hfresh : Fifo.Fresh limit ns ops) :
    ∃ t, code.run s ops = .ok ((Fifo.run limit ns ops).1, t) ∧ code.Represents limit t (Fifo.run limit ns ops).2 := by
  induction ops generalizing s ns with
  | nil => exact ⟨s, rfl, h⟩
  | cons op ops ih =>
    obtain ⟨t, hstep, ht⟩ := step_represents hlaw h hfresh.1
    obtain ⟨u, hrun, hu⟩ := ih ht hfresh.2
    refine ⟨u, ?_, hu⟩
    rw [QueueCode.run, hstep, ok_bind]
    dsimp only
    rw [hrun]
    rfl

end

/-- **The pointer queue is a bounded queue.** For every limit and all operations that push no cell that is
in the queue, the replies are those of the abstract queue; `size` is the number of its items, `cells`
finds them in order from `head`, the last one is `tail`, and a push onto the full queue changes nothing.
A limit that is not positive is replaced by 65535. -/
theorem queue_refines_fifo (p : Program) (limit : ℤ) (memory : p.queueCode.Memory) (ops : List (Fifo.Op ℕ))
    (hfresh : Fifo.Fresh (if limit ≤ 0 then 65535 else limit.toNat) [] ops) :
    ∃ memory' q replies ns,
      Fifo.run (if limit ≤ 0 then 65535 else limit.toNat) [] ops = (replies, ns) ∧
      p.queueCode.run (memory, p.queueCode.construct limit) ops = .ok (replies, memory', q) ∧
      q.size = ns.length ∧ q.cells (p.queueCode.link memory') = ns ∧
      (ns ≠ [] → q.tail = ns.getLast?) ∧ Linked (p.queueCode.link memory') ns ∧
      ∀ item, (if limit ≤ 0 then 65535 else limit.toNat) ≤ ns.length →
        p.queueCode.push memory' q item = .ok (false, memory', q) := by
  have hcap : capacity limit = if limit ≤ 0 then 65535 else limit.toNat := by
    rw [capacity, constructQueue]
    split <;> rfl
  rw [← hcap] at hfresh ⊢
  have hlaw := queueCode_lawful p
  obtain ⟨⟨memory', q⟩, hrun, h⟩ := run_represents hlaw (represents_construct hlaw limit memory) hfresh
  refine ⟨memory', q, _, _, rfl, hrun, h.holds.size, h.holds.cells_eq, h.holds.tail, h.holds.linked, ?_⟩
  intro item hfull
  exact hlaw.push_full h.holds (by rw [h.limit_eq]; exact_mod_cast hfull)

/-- A cell that is pushed again after it was popped. -/
theorem queue_refines_fifo_reused :
    ∃ memory' q replies ns,
      Fifo.run 2 [] [.push 3, .pop, .push 3, .push 5, .push 8, .pop] = (replies, ns) ∧
      Program.vlcTx.queueCode.run ((⟨fun _ => ⟨0, 0, 0, 0, []⟩, fun _ => none⟩ : Cells GatewayPacket),
        Program.vlcTx.queueCode.construct 2) [.push 3, .pop, .push 3, .push 5, .push 8, .pop] =
        .ok (replies, memory', q) ∧
      q.size = ns.length ∧ q.cells (Program.vlcTx.queueCode.link memory') = ns ∧
      (ns ≠ [] → q.tail = ns.getLast?) ∧ Linked (Program.vlcTx.queueCode.link memory') ns ∧
      ∀ item, 2 ≤ ns.length → Program.vlcTx.queueCode.push memory' q item = .ok (false, memory', q) :=
  queue_refines_fifo .vlcTx 2 _ [.push 3, .pop, .push 3, .push 5, .push 8, .pop] (by
    simp [Fifo.Fresh, Fifo.step, Fifo.push])

/-- A queue constructed with limit 0 accepts a packet. -/
theorem construct_zero_accepts :
    (∃ memory q, Program.gateway.queueCode.run ((⟨fun _ => ⟨0, 0, 0, 0, []⟩, fun _ => none, 1⟩ : Heap),
      Program.gateway.queueCode.construct 0) [.push 0] = .ok ([.pushed true], memory, q)) ∧
    (Fifo.run 0 [] [.push 0]).1 = [.pushed false] :=
  ⟨⟨_, _, rfl⟩, by simp [Fifo.run, Fifo.step]⟩

end CiotVlc.Links
