import CiotVlc.Foundations.Checked
import CiotVlc.Foundations.LinkedQueue

/-! # The packet queue of the gateway

`packet_queue.c` on an explicit heap of list cells. `QueueHolds` is the representation invariant, and
`push`, `pop` and `is_empty` are shown to be the operations of the abstract bounded queue.
-/
namespace CiotVlc.Gateway
open Foundations.Checked Foundations.LinkedQueue
set_option autoImplicit false

structure GatewayPacket where
  nodeId : UInt16
  vlcId : UInt16
  payloadLen : UInt16
  seqNumber : UInt32
  data : List UInt8
  deriving DecidableEq, Repr

/-- The list cells: what each address holds, and the first address `malloc` has not handed out. -/
structure Heap where
  data : ℕ → GatewayPacket
  next : ℕ → Option ℕ
  fresh : ℕ

def Heap.setNext (heap : Heap) (a : ℕ) (link : Option ℕ) : Heap :=
  { heap with next := Function.update heap.next a link }

/-- `malloc(sizeof(NODE))`, with the packet stored in it. -/
def Heap.alloc (heap : Heap) (packet : GatewayPacket) : ℕ × Heap :=
  (heap.fresh, { heap with data := Function.update heap.data heap.fresh packet, fresh := heap.fresh + 1 })

structure PacketQueue where
  head : Option ℕ
  tail : Option ℕ
  size : ℤ
  limit : ℤ

def constructQueue (limit : ℤ) : PacketQueue :=
  { head := none, tail := none, size := 0, limit := if limit ≤ 0 then 65535 else limit }

def PacketQueue.isEmpty (q : PacketQueue) : Bool := q.size = 0

/-- The result flag, and the cells and the queue afterwards. -/
def push (heap : Heap) (q : PacketQueue) (item : ℕ) : Except Fault (Bool × Heap × PacketQueue) :=
  if q.size ≥ q.limit then .ok (false, heap, q)
  else
    let heap := heap.setNext item none
    if q.size = 0 then
      .ok (true, heap, { q with head := some item, tail := some item, size := q.size + 1 })
    else
      match q.tail with
      | none => .error .nullPointer
      | some last =>
        .ok (true, heap.setNext last (some item), { q with tail := some item, size := q.size + 1 })

/-- The popped cell, or `none` for `NULL`. -/
def pop (heap : Heap) (q : PacketQueue) : Except Fault (Option ℕ × PacketQueue) :=
  if q.isEmpty then .ok (none, q)
  else
    match q.head with
    | none => .error .nullPointer
    | some item => .ok (some item, { q with head := heap.next item, size := q.size - 1 })

/-! ## Representation -/

structure QueueHolds (next : ℕ → Option ℕ) (q : PacketQueue) (ns : List ℕ) : Prop where
  size : q.size = ns.length
  head : ns ≠ [] → q.head = ns.head?
  tail : ns ≠ [] → q.tail = ns.getLast?
  linked : Linked next ns
  nodup : ns.Nodup

theorem queueHolds_construct (next : ℕ → Option ℕ) (limit : ℤ) :
    QueueHolds next (constructQueue limit) [] where
  size := rfl
  head := fun h => absurd rfl h
  tail := fun h => absurd rfl h
  linked := trivial
  nodup := List.nodup_nil

theorem QueueHolds.congr {next next' : ℕ → Option ℕ} {q : PacketQueue} {ns : List ℕ}
    (h : QueueHolds next q ns) (heq : ∀ a ∈ ns, next' a = next a) : QueueHolds next' q ns :=
  { h with linked := h.linked.congr heq }

/-- The cells of a queue: as many as it counts, along the links from its head. -/
def PacketQueue.cells (next : ℕ → Option ℕ) (q : PacketQueue) : List ℕ := walk next q.size.toNat q.head

theorem QueueHolds.cells_eq {next : ℕ → Option ℕ} {q : PacketQueue} {ns : List ℕ} (h : QueueHolds next q ns) :
    q.cells next = ns := by
  rw [PacketQueue.cells, h.size, Int.toNat_natCast]
  cases ns with
  | nil => rfl
  | cons a ns => exact Chain.walk_eq ⟨h.head (List.cons_ne_nil a ns), h.linked⟩

theorem QueueHolds.isEmpty_iff {next : ℕ → Option ℕ} {q : PacketQueue} {ns : List ℕ}
    (h : QueueHolds next q ns) : q.isEmpty = true ↔ ns = [] := by
  rw [PacketQueue.isEmpty, decide_eq_true_iff, h.size]
  exact_mod_cast List.length_eq_zero_iff

theorem pop_nil {heap : Heap} {q : PacketQueue} (h : QueueHolds heap.next q []) :
    pop heap q = .ok (none, q) := by
  rw [pop, if_pos (h.isEmpty_iff.mpr rfl)]

theorem pop_cons {heap : Heap} {q : PacketQueue} {a : ℕ} {ns : List ℕ}
    (h : QueueHolds heap.next q (a :: ns)) :
    ∃ q', pop heap q = .ok (some a, q') ∧ q'.limit = q.limit ∧ QueueHolds heap.next q' ns := by
  have hsize := h.size
  rw [List.length_cons] at hsize
  have hempty : ¬ q.isEmpty = true := fun he => List.cons_ne_nil a ns (h.isEmpty_iff.mp he)
  have hhead : q.head = some a := h.head (List.cons_ne_nil a ns)
  refine ⟨{ q with head := heap.next a, size := q.size - 1 }, ?_, rfl, ?_⟩
  · rw [pop, if_neg hempty, hhead]
  · refine ⟨?_, fun _ => h.linked.1, fun hne => ?_, h.linked.tail, (List.nodup_cons.mp h.nodup).2⟩
    · change q.size - 1 = _
      rw [hsize]
      push_cast
      omega
    · change q.tail = _
      rw [h.tail (List.cons_ne_nil a ns), List.getLast?_cons_of_ne_nil hne]

/-- **A push that finds room appends the cell**, and touches no link outside the queue. -/
theorem push_ok {heap : Heap} {q : PacketQueue} {ns : List ℕ} {item : ℕ} (h : QueueHolds heap.next q ns)
    (hroom : (ns.length : ℤ) < q.limit) (hitem : item ∉ ns) :
    ∃ heap' q', push heap q item = .ok (true, heap', q') ∧ q'.limit = q.limit ∧
      heap'.data = heap.data ∧ heap'.fresh = heap.fresh ∧
      QueueHolds heap'.next q' (ns ++ [item]) ∧
      ∀ a, a ≠ item → a ∉ ns → heap'.next a = heap.next a := by
  have hsize := h.size
  have hfull : ¬ q.size ≥ q.limit := by omega
  rcases List.eq_nil_or_concat' ns with rfl | ⟨init, last, rfl⟩
  · refine ⟨heap.setNext item none, { q with head := some item, tail := some item, size := q.size + 1 },
      ?_, rfl, rfl, rfl, ?_, fun a ha _ => Function.update_of_ne ha _ _⟩
    · rw [push, if_neg hfull]
      exact if_pos hsize
    · exact ⟨by simp [hsize], fun _ => rfl, fun _ => rfl,
        linked_singleton (Function.update_self _ _ _), List.nodup_singleton item⟩
  · have hlast : item ≠ last := fun he => hitem (by simp [he])
    have htail : q.tail = some last := by rw [h.tail (by simp)]; simp
    have hpos : ¬ q.size = 0 := by
      rw [hsize, List.length_append, List.length_singleton]
      omega
    have hnone : Function.update heap.next item none item = none := Function.update_self _ _ _
    have hlinked := (h.linked.update hitem none).append hnone hlast h.nodup
    refine ⟨(heap.setNext item none).setNext last (some item),
      { q with tail := some item, size := q.size + 1 }, ?_, rfl, rfl, rfl, ?_, fun a ha hns => ?_⟩
    · rw [push, if_neg hfull]
      simp only [if_neg hpos, htail]
    · refine ⟨?_, fun _ => ?_, fun _ => ?_, hlinked, ?_⟩
      · change q.size + 1 = _
        rw [hsize, @List.length_append _ _ [item]]
        rfl
      · change q.head = _
        rw [h.head (by simp)]
        simp
      · change some item = _
        simp
      · rw [List.nodup_append]
        exact ⟨h.nodup, List.nodup_singleton item, by
          intro a ha b hb
          rw [List.mem_singleton.mp hb]
          exact fun he => hitem (he ▸ ha)⟩
    · have hal : a ≠ last := fun he => hns (by simp [he])
      change Function.update (Function.update heap.next item none) last (some item) a = _
      rw [Function.update_of_ne hal, Function.update_of_ne ha]

/-- What every push leaves alone, whatever the queue holds: it writes the links of the item and of the
queue's last cell, and afterwards the item is the last cell or the push was refused. -/
theorem push_frame {heap : Heap} {q : PacketQueue} (item : ℕ) (htail : q.size ≠ 0 → ∃ t, q.tail = some t) :
    ∃ b heap' q', push heap q item = .ok (b, heap', q') ∧ heap'.data = heap.data ∧
      heap'.fresh = heap.fresh ∧ (q' = q ∨ q'.tail = some item) ∧
      ∀ a, a ≠ item → (q.size ≠ 0 → q.tail ≠ some a) → heap'.next a = heap.next a := by
  by_cases hfull : q.size ≥ q.limit
  · exact ⟨false, heap, q, by rw [push, if_pos hfull], rfl, rfl, Or.inl rfl, fun _ _ _ => rfl⟩
  by_cases hzero : q.size = 0
  · refine ⟨true, heap.setNext item none,
      { q with head := some item, tail := some item, size := q.size + 1 }, ?_, rfl, rfl, Or.inr rfl,
      fun a ha _ => Function.update_of_ne ha _ _⟩
    rw [push, if_neg hfull]
    exact if_pos hzero
  · obtain ⟨last, hlast⟩ := htail hzero
    refine ⟨true, (heap.setNext item none).setNext last (some item),
      { q with tail := some item, size := q.size + 1 }, ?_, rfl, rfl, Or.inr rfl, fun a ha hnot => ?_⟩
    · rw [push, if_neg hfull]
      simp only [if_neg hzero, hlast]
    · have hal : a ≠ last := fun he => hnot hzero (by rw [hlast, he])
      change Function.update (Function.update heap.next item none) last (some item) a = _
      rw [Function.update_of_ne hal, Function.update_of_ne ha]

/-- A push on a full queue is refused. -/
theorem push_full {heap : Heap} {q : PacketQueue} {ns : List ℕ} {item : ℕ} (h : QueueHolds heap.next q ns)
    (hfull : q.limit ≤ ns.length) : push heap q item = .ok (false, heap, q) := by
  rw [push, if_pos (by rw [h.size]; exact hfull)]

end CiotVlc.Gateway
