import CiotVlc.Gateway.Dispatch

/-! # One packet for several transmitters

The VLC branch of `schedule_packet` should queue one copy of the packet for each of its targets. It has no
copies: `vlc_temp` is the popped cell itself, and each further push links this cell to itself and
overwrites the `vlc_id` it had. `vlcCopies_iff`: the queue is as it should be exactly for at most one
target.
-/
namespace CiotVlc.Gateway
open Foundations.Checked Foundations.LinkedQueue
set_option autoImplicit false

/-- In `g'`, the VLC queue has one more entry for each target, in order, which differs from the packet in
the cell `temp` in the `vlc_id`; the entries it had are what they were, and the departures of exactly the
targets are counted. -/
structure QueuesCopies {cfg : Config} (g g' : Globals) (ns : List ℕ) (temp : ℕ) (txs : List (Fin cfg.nVlc)) :
    Prop where
  entries : ∃ copies : List ℕ,
    copies.map g'.heap.data = txs.map (fun tx => { g.heap.data temp with vlcId := UInt16.ofNat tx }) ∧
    QueueHolds g'.heap.next g'.vlcQueue (ns ++ copies)
  others : ∀ a ∈ ns, g'.heap.data a = g.heap.data a
  departures : ∀ k, g'.dVlc k = g.dVlc k + if k ∈ txs.map Fin.val then 1 else 0

/-! ## One push -/

theorem linked_getLast? {next : ℕ → Option ℕ} {ns : List ℕ} {a : ℕ} (h : Linked next ns)
    (ha : ns.getLast? = some a) : next a = none := by
  induction ns with
  | nil => cases ha
  | cons b ns ih =>
    cases ns with
    | nil =>
      cases ha
      exact h.1
    | cons c ns => exact ih h.tail (by rwa [List.getLast?_cons_cons] at ha)

/-- A tail cell that points to itself is not the end of a list. -/
theorem not_queueHolds_of_selfLinked {next : ℕ → Option ℕ} {q : PacketQueue} {ns : List ℕ} {a : ℕ}
    (htail : q.tail = some a) (hself : next a = some a) (hne : ns ≠ []) : ¬ QueueHolds next q ns := by
  intro h
  have hlast := linked_getLast? h.linked ((h.tail hne).symm.trans htail)
  rw [hself] at hlast
  cases hlast

/-- Pushing the tail cell once more links it to itself. -/
theorem push_tail {heap : Heap} {q : PacketQueue} {item : ℕ} (htail : q.tail = some item) (hpos : 0 < q.size)
    (hroom : q.size < q.limit) :
    ∃ heap', push heap q item = .ok (true, heap', { q with tail := some item, size := q.size + 1 }) ∧
      heap'.next item = some item := by
  refine ⟨(heap.setNext item none).setNext item (some item), ?_, Function.update_self _ _ _⟩
  rw [push, if_neg (by omega)]
  simp only [if_neg (show ¬ q.size = 0 by omega), htail]

/-- One pass of the loop, for a cell that is not queued yet. -/
theorem pushVlc_single {cfg : Config} {g : Globals} {ns : List ℕ} {temp : ℕ} (tx : Fin cfg.nVlc)
    (hq : QueueHolds g.heap.next g.vlcQueue ns) (htemp : temp ∉ ns)
    (hroom : (ns.length : ℤ) < g.vlcQueue.limit) :
    ∃ g', (∀ txs, pushVlc temp (tx :: txs) g = pushVlc temp txs g') ∧ QueuesCopies g g' ns temp [tx] ∧
      g'.vlcQueue.tail = some temp ∧ g'.vlcQueue.size = ns.length + 1 ∧
      g'.vlcQueue.limit = g.vlcQueue.limit := by
  have hq' : QueueHolds (g.heap.setVlcId temp (UInt16.ofNat tx)).next g.vlcQueue ns := hq
  obtain ⟨heap, q, hpush, hlimit, hdata, -, hholds, -⟩ := push_ok hq' hroom htemp
  refine ⟨{ g with heap, vlcQueue := q, dVlc := Function.update g.dVlc tx (g.dVlc tx + 1) }, ?_, ?_, ?_, ?_, hlimit⟩
  · intro txs
    simp only [pushVlc, hpush, ok_bind]
  · refine ⟨⟨[temp], ?_, hholds⟩, ?_, ?_⟩
    · simp [hdata, Heap.setVlcId]
    · intro a ha
      change heap.data a = _
      rw [hdata]
      exact Function.update_of_ne (ne_of_mem_of_not_mem ha htemp) _ _
    · intro k
      by_cases hk : k = tx
      · simp [hk]
      · simp [hk]
  · rw [hholds.tail (by simp), List.getLast?_concat]
  · rw [hholds.size, List.length_append]
    rfl

/-- One pass of the loop, for the cell that is the tail already. -/
theorem pushVlc_again {cfg : Config} {g : Globals} {temp : ℕ} (tx : Fin cfg.nVlc)
    (htail : g.vlcQueue.tail = some temp) (hpos : 0 < g.vlcQueue.size)
    (hroom : g.vlcQueue.size < g.vlcQueue.limit) :
    ∃ g', (∀ txs, pushVlc temp (tx :: txs) g = pushVlc temp txs g') ∧ g'.vlcQueue.tail = some temp ∧
      g'.vlcQueue.size = g.vlcQueue.size + 1 ∧ g'.vlcQueue.limit = g.vlcQueue.limit ∧
      g'.heap.next temp = some temp := by
  obtain ⟨heap, hpush, hself⟩ :=
    @push_tail (g.heap.setVlcId temp (UInt16.ofNat tx)) _ _ htail hpos hroom
  refine ⟨{ g with
    heap
    vlcQueue := { g.vlcQueue with tail := some temp, size := g.vlcQueue.size + 1 }
    dVlc := Function.update g.dVlc tx (g.dVlc tx + 1) }, ?_, rfl, rfl, rfl, hself⟩
  intro txs
  rw [pushVlc, hpush, ok_bind]

/-! ## The loop over the targets -/

/-- Once the cell is linked to itself, it stays so. -/
theorem pushVlc_keeps_selfLinked {cfg : Config} {temp : ℕ} {txs : List (Fin cfg.nVlc)} {g : Globals}
    (htail : g.vlcQueue.tail = some temp) (hpos : 0 < g.vlcQueue.size)
    (hself : g.heap.next temp = some temp) (hroom : g.vlcQueue.size + txs.length ≤ g.vlcQueue.limit) :
    ∃ g', pushVlc temp txs g = .ok g' ∧ g'.vlcQueue.tail = some temp ∧ g'.heap.next temp = some temp := by
  induction txs generalizing g with
  | nil => exact ⟨g, rfl, htail, hself⟩
  | cons tx txs ih =>
    rw [List.length_cons] at hroom
    push_cast at hroom
    obtain ⟨g₁, hagain, htail, hsize, hlimit, hself⟩ := pushVlc_again tx htail hpos (by omega)
    rw [hagain]
    exact ih htail (by omega) hself (by omega)

/-- **The second target links the cell to itself.** -/
theorem pushVlc_selfLinked {cfg : Config} {temp : ℕ} {tx : Fin cfg.nVlc} {txs : List (Fin cfg.nVlc)}
    {g : Globals} (htail : g.vlcQueue.tail = some temp) (hpos : 0 < g.vlcQueue.size)
    (hroom : g.vlcQueue.size + (txs.length + 1) ≤ g.vlcQueue.limit) :
    ∃ g', pushVlc temp (tx :: txs) g = .ok g' ∧ g'.vlcQueue.tail = some temp ∧
      g'.heap.next temp = some temp := by
  obtain ⟨g₁, hagain, htail, hsize, hlimit, hself⟩ := pushVlc_again tx htail hpos (by omega)
  rw [hagain]
  exact pushVlc_keeps_selfLinked htail (by omega) hself (by omega)

theorem not_queuesCopies_of_selfLinked {cfg : Config} {g g' : Globals} {ns : List ℕ} {temp : ℕ}
    {txs : List (Fin cfg.nVlc)} (htail : g'.vlcQueue.tail = some temp)
    (hself : g'.heap.next temp = some temp) (hne : txs ≠ []) : ¬ QueuesCopies g g' ns temp txs := by
  intro h
  obtain ⟨copies, hmap, hholds⟩ := h.entries
  refine not_queueHolds_of_selfLinked htail hself ?_ hholds
  intro hnil
  have hcopies : copies = [] := (List.append_eq_nil_iff.mp hnil).2
  rw [hcopies] at hmap
  exact hne (List.map_eq_nil_iff.mp hmap.symm)

/-- **The packet is queued once for each target exactly when there is at most one.** -/
theorem vlcCopies_iff {cfg : Config} {g : Globals} {ns : List ℕ} {temp : ℕ} {txs : List (Fin cfg.nVlc)}
    (hq : QueueHolds g.heap.next g.vlcQueue ns) (htemp : temp ∉ ns)
    (hroom : (ns.length : ℤ) + txs.length ≤ g.vlcQueue.limit) :
    (∃ g', pushVlc temp txs g = .ok g' ∧ QueuesCopies g g' ns temp txs) ↔ txs.length ≤ 1 := by
  cases txs with
  | nil =>
    refine iff_of_true ⟨g, rfl, ⟨[], rfl, by rwa [List.append_nil]⟩, fun _ _ => rfl, ?_⟩ (Nat.zero_le 1)
    simp
  | cons tx txs =>
    rw [List.length_cons] at hroom
    push_cast at hroom
    obtain ⟨g₁, hfirst, hcopy, htail, hsize, hlimit⟩ := pushVlc_single tx hq htemp (by omega)
    rw [hfirst]
    cases txs with
    | nil => exact iff_of_true ⟨g₁, rfl, hcopy⟩ (Nat.le_refl 1)
    | cons tx' txs =>
      rw [List.length_cons] at hroom
      push_cast at hroom
      obtain ⟨g', hrest, htail', hself⟩ :=
        @pushVlc_selfLinked cfg temp tx' txs g₁ htail (by omega) (by omega)
      rw [hrest]
      refine iff_of_false ?_ (by simp)
      rintro ⟨u, hu, hcopies⟩
      cases hu
      exact not_queuesCopies_of_selfLinked htail' hself (by simp) hcopies

def twoVlc : Config := { shipped with nVlc := 2, nVlc_le := by decide }

def secondTarget : List (Fin twoVlc.nVlc) := [(1 : Fin 2)]

def bothTargets : List (Fin twoVlc.nVlc) := [(0 : Fin 2), (1 : Fin 2)]

theorem vlcCopies_secondTarget :
    ∃ g', pushVlc 0 secondTarget (initialGlobals twoVlc) = .ok g' ∧
      QueuesCopies (initialGlobals twoVlc) g' [] 0 secondTarget :=
  (vlcCopies_iff (queueHolds_construct _ _) List.not_mem_nil (by decide)).mpr (by decide)

/-- Both transmitters: two entries by its count, but one cell, linked to itself, that names the second one. -/
theorem vlcCopies_bothTargets :
    (∃ g', pushVlc 0 bothTargets (initialGlobals twoVlc) = .ok g' ∧
      g'.vlcQueue.size = 2 ∧ g'.heap.next 0 = some 0 ∧ (g'.heap.data 0).vlcId = 1) ∧
    ¬ ∃ g', pushVlc 0 bothTargets (initialGlobals twoVlc) = .ok g' ∧
      QueuesCopies (initialGlobals twoVlc) g' [] 0 bothTargets := by
  constructor
  · exact ⟨_, rfl, rfl, rfl, rfl⟩
  · rintro ⟨g', hpush, hcopies⟩
    refine not_queuesCopies_of_selfLinked ?_ ?_ (List.cons_ne_nil _ _) hcopies
    · cases hpush
      rfl
    · cases hpush
      rfl

end CiotVlc.Gateway
