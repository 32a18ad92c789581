import Mathlib.Data.List.Nodup
import Mathlib.Logic.Function.Basic

/-! # Singly linked queues

`Linked next ns` says that following `next` from the head of `ns` visits exactly the cells `ns` and
then ends, and `Chain next head ns` that `head` points to its first cell; `walk` reads the cells back.
Linking a fresh cell behind the last one appends it; a store at a cell outside the list changes nothing.
`Fifo` is the abstract queue: `Fifo.push` refuses an item when it is full, and `Fifo.run` gives the
replies to a sequence of operations.
-/
namespace Foundations.LinkedQueue
set_option autoImplicit false

variable {α β : Type}

/-! ## Linked cells -/

def Linked (next : α → Option α) : List α → Prop
  | [] => True
  | a :: ns => next a = ns.head? ∧ Linked next ns

theorem Linked.tail {next : α → Option α} {a : α} {ns : List α} (h : Linked next (a :: ns)) :
    Linked next ns := h.2

theorem Linked.congr {next next' : α → Option α} {ns : List α} (h : Linked next ns)
    (heq : ∀ a ∈ ns, next' a = next a) : Linked next' ns := by
  induction ns with
  | nil => trivial
  | cons a ns ih =>
    refine ⟨?_, ih h.2 fun b hb => heq b (List.mem_cons_of_mem _ hb)⟩
    rw [heq a List.mem_cons_self, h.1]

theorem linked_singleton {next : α → Option α} {a : α} (h : next a = none) : Linked next [a] :=
  ⟨h, trivial⟩

structure Chain (next : α → Option α) (head : Option α) (ns : List α) : Prop where
  head_eq : head = ns.head?
  linked : Linked next ns

theorem chain_nil (next : α → Option α) : Chain next none [] := ⟨rfl, trivial⟩

theorem Chain.eq_nil {next : α → Option α} {ns : List α} (h : Chain next none ns) : ns = [] :=
  List.head?_eq_none_iff.mp h.head_eq.symm

theorem Chain.cases {next : α → Option α} {a : α} {ns : List α} (h : Chain next (some a) ns) :
    ∃ rest, ns = a :: rest ∧ Chain next (next a) rest := by
  obtain ⟨rest, rfl⟩ := List.head?_eq_some_iff.mp h.head_eq.symm
  exact ⟨rest, rfl, h.linked.1, h.linked.2⟩

/-- Follow the links to the last cell; `none` when the walk takes more than `fuel` cells. -/
def lastFrom (next : α → Option α) : (fuel : ℕ) → (a : α) → Option α
  | 0, _ => none
  | fuel + 1, a =>
    match next a with
    | none => some a
    | some b => lastFrom next fuel b

theorem lastFrom_of_linked {next : α → Option α} {fuel : ℕ} {a last : α} {ns : List α}
    (h : Linked next (a :: ns)) (hlast : (a :: ns).getLast? = some last) (hfuel : ns.length < fuel) :
    lastFrom next fuel a = some last := by
  induction ns generalizing a fuel with
  | nil =>
    obtain ⟨fuel, rfl⟩ : ∃ n, fuel = n + 1 := ⟨fuel - 1, by omega⟩
    rw [lastFrom, h.1]
    exact hlast
  | cons b ns ih =>
    obtain ⟨fuel, rfl⟩ : ∃ n, fuel = n + 1 := ⟨fuel - 1, by omega⟩
    rw [List.length_cons] at hfuel
    rw [lastFrom, h.1]
    exact ih h.2 (by rwa [List.getLast?_cons_cons] at hlast) (by omega)

/-- The first `n` cells along the links. -/
def walk (next : α → Option α) : (n : ℕ) → (head : Option α) → List α
  | 0, _ => []
  | _ + 1, none => []
  | n + 1, some a => a :: walk next n (next a)

theorem Chain.walk_eq {next : α → Option α} {head : Option α} {ns : List α} (h : Chain next head ns) :
    walk next ns.length head = ns := by
  induction ns generalizing head with
  | nil => rfl
  | cons a ns ih =>
    obtain ⟨rfl, hnext, hrest⟩ := h
    rw [List.length_cons, List.head?_cons, walk, ih ⟨hnext, hrest⟩]

variable [DecidableEq α]

theorem Linked.update {next : α → Option α} {ns : List α} (h : Linked next ns) {a : α} (ha : a ∉ ns)
    (link : Option α) : Linked (Function.update next a link) ns :=
  h.congr fun _ hb => Function.update_of_ne (ne_of_mem_of_not_mem hb ha) _ _

theorem Chain.update {next : α → Option α} {head : Option α} {ns : List α} (h : Chain next head ns) {a : α}
    (ha : a ∉ ns) (link : Option α) : Chain (Function.update next a link) head ns :=
  ⟨h.head_eq, h.linked.update ha link⟩

theorem Chain.push {next : α → Option α} {head : Option α} {ns : List α} (h : Chain next head ns) {a : α}
    (ha : a ∉ ns) : Chain (Function.update next a head) (some a) (a :: ns) :=
  ⟨rfl, by rw [Function.update_self, h.head_eq], h.linked.update ha head⟩

/-- Linking a cell that ends behind the last one appends it. -/
theorem Linked.append {next : α → Option α} {ns : List α} {last item : α}
    (h : Linked next (ns ++ [last])) (hitem : next item = none) (hne : item ≠ last)
    (hnodup : (ns ++ [last]).Nodup) :
    Linked (Function.update next last (some item)) (ns ++ [last] ++ [item]) := by
  induction ns with
  | nil =>
    refine ⟨by simp, linked_singleton ?_⟩
    rw [Function.update_of_ne hne, hitem]
  | cons a ns ih =>
    rw [List.cons_append, List.nodup_cons] at hnodup
    have ha : a ≠ last := fun he => hnodup.1 (by simp [he])
    refine ⟨?_, ih h.2 hnodup.2⟩
    rw [Function.update_of_ne ha, h.1]
    cases ns <;> rfl

/-- Walking to the end of a chain and linking a fresh cell there appends it. -/
theorem Chain.append {next : α → Option α} {a item : α} {ns : List α} {fuel : ℕ} (h : Chain next (some a) ns)
    (hnodup : ns.Nodup) (hitem : next item = none) (hnew : item ∉ ns) (hfuel : ns.length ≤ fuel) :
    ∃ last ∈ ns, lastFrom next fuel a = some last ∧
      Chain (Function.update next last (some item)) (some a) (ns ++ [item]) := by
  obtain ⟨rest, rfl, _⟩ := h.cases
  obtain ⟨init, last, hinit⟩ := (List.eq_nil_or_concat' (a :: rest)).resolve_left (List.cons_ne_nil _ _)
  have hmem : last ∈ a :: rest := by rw [hinit]; simp
  have hlinked := h.linked
  rw [hinit] at hlinked hnodup
  refine ⟨last, hmem, ?_, rfl, ?_⟩
  · rw [List.length_cons] at hfuel
    exact lastFrom_of_linked h.linked (by rw [hinit]; simp) hfuel
  · rw [hinit]
    exact hlinked.append hitem (fun he => hnew (he ▸ hmem)) hnodup

/-! ## The abstract queue -/

/-- Append an item, unless the queue holds `limit` items. -/
def Fifo.push (limit : ℕ) (q : List β) (x : β) : List β := if q.length < limit then q ++ [x] else q

theorem Fifo.push_of_lt {limit : ℕ} {q : List β} (x : β) (h : q.length < limit) :
    Fifo.push limit q x = q ++ [x] := if_pos h

theorem Fifo.push_of_le {limit : ℕ} {q : List β} (x : β) (h : limit ≤ q.length) :
    Fifo.push limit q x = q := if_neg (by omega)

theorem Fifo.mem_of_mem_push {limit : ℕ} {q : List β} {x y : β} (h : y ∈ Fifo.push limit q x) :
    y ∈ q ∨ y = x := by
  unfold Fifo.push at h
  split at h
  · rwa [List.mem_append, List.mem_singleton] at h
  · exact Or.inl h

theorem Fifo.foldl_push {limit : ℕ} (q xs : List β) :
    xs.foldl (Fifo.push limit) q = q ++ xs.take (limit - q.length) := by
  induction xs generalizing q with
  | nil => simp
  | cons x xs ih =>
    rw [List.foldl_cons, ih]
    by_cases hroom : q.length < limit
    · obtain ⟨n, hn⟩ : ∃ n, limit - q.length = n + 1 := ⟨limit - q.length - 1, by omega⟩
      rw [Fifo.push_of_lt x hroom, List.length_append, List.length_singleton, ← Nat.sub_sub, hn,
        List.take_succ_cons, Nat.add_sub_cancel, List.append_assoc, List.singleton_append]
    · rw [Fifo.push_of_le x (by omega), Nat.sub_eq_zero_of_le (by omega), List.take_zero, List.take_zero]

theorem Fifo.length_foldl_push {limit : ℕ} {q xs : List β} :
    (xs.foldl (Fifo.push limit) q).length = q.length + xs.length ↔ xs.length ≤ limit - q.length := by
  rw [Fifo.foldl_push, List.length_append, List.length_take]
  omega

/-! ## Operations and their results -/

inductive Fifo.Op (β : Type)
  | push (item : β)
  | pop

/-- Whether a push was accepted, or what was popped. -/
inductive Fifo.Reply (β : Type)
  | pushed (done : Bool)
  | popped (item : Option β)
  deriving DecidableEq

def Fifo.step (limit : ℕ) (q : List β) : Fifo.Op β → Fifo.Reply β × List β
  | .push item => (.pushed (q.length < limit), Fifo.push limit q item)
  | .pop => (.popped q.head?, q.tail)

def Fifo.run (limit : ℕ) : List β → List (Fifo.Op β) → List (Fifo.Reply β) × List β
  | q, [] => ([], q)
  | q, op :: ops => ((Fifo.step limit q op).1 :: (Fifo.run limit (Fifo.step limit q op).2 ops).1,
      (Fifo.run limit (Fifo.step limit q op).2 ops).2)

/-- No item is pushed while it is in the queue. -/
def Fifo.Fresh (limit : ℕ) : List β → List (Fifo.Op β) → Prop
  | _, [] => True
  | q, op :: ops => (∀ item, op = .push item → item ∉ q) ∧ Fifo.Fresh limit (Fifo.step limit q op).2 ops

end Foundations.LinkedQueue
