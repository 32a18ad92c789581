import CiotVlc.Codec.Control
import CiotVlc.Foundations.Blocks
import CiotVlc.Foundations.Checked
import CiotVlc.Foundations.Runs
import Mathlib.Algebra.BigOperators.Group.Multiset.Basic
import Mathlib.Data.List.Perm.Basic

/-! # The list of control structures

`init_rs` hands out a control structure that is already in `rslist` when the arguments are the same, and counts
its users; `free_rs` gives the structure and its arrays back with the last user. Whatever the allocator answers,
callers that free only what they hold never meet a structure that is gone, share one exactly when their arguments
agree, and leave nothing behind.
-/
namespace CiotVlc.Codec
open Foundations.Blocks Foundations.Checked Foundations.Runs
set_option autoImplicit false

/-! ## The code -/

/-- The arguments of `init_rs`. -/
structure CodecArgs where
  symsize : ℤ
  gfpoly : ℕ
  fcr : ℤ
  prim : ℤ
  nroots : ℤ
  deriving DecidableEq

/-- A control structure in `rslist`: its address, those of its three arrays, what they hold, and its users. -/
structure RsEntry (α : Type) where
  rs : α
  alphaTo : α
  indexOf : α
  genpoly : α
  control : RsControl
  users : ℤ

/-- `handles` is a history: what the callers hold, and what they asked for. -/
structure RsList (α : Type) where
  blocks : Finset α
  rslist : List (RsEntry α)
  handles : List (α × CodecArgs)

def initialRsList (α : Type) : RsList α := ⟨∅, [], []⟩

/-- Why a call does not return: memory that is not allocated is used or freed, `kmalloc` breaks its promise,
`gffunc` is `NULL`, the search for `iprim` has no end, or `users` overflows. -/
inductive RsStop
  | badMemory
  | allocator
  | nullCall
  | endless
  | overflow
  deriving DecidableEq

def CodecArgs.init (args : CodecArgs) (mem : Allocated) : Except InitFailure RsControl :=
  rsInit args.symsize.toNat args.gfpoly args.fcr.toNat args.prim.toNat args.nroots.toNat mem

section
variable {α : Type} [DecidableEq α]

/-- `rs_init` with its calls of `kmalloc`, which answers `got`, and `kfree`. -/
def rsInitBlocks (b : Finset α) (args : CodecArgs) (mem : Allocated) (got : Fin 4 → Option α) :
    Except RsStop (Option (RsEntry α) × Finset α) :=
  match got 0 with
  | none => .ok (none, b)
  | some rs => do
    let b ← orStop .allocator (alloc b rs)
    match got 1 with
    | none => return (none, ← orStop .badMemory (freeAll b [rs]))
    | some alphaTo =>
      let b ← orStop .allocator (alloc b alphaTo)
      match got 2 with
      | none => return (none, ← orStop .badMemory (freeAll b [alphaTo, rs]))
      | some indexOf =>
        let b ← orStop .allocator (alloc b indexOf)
        match got 3 with
        | none => return (none, ← orStop .badMemory (freeAll b [indexOf, alphaTo, rs]))
        | some genpoly =>
          let b ← orStop .allocator (alloc b genpoly)
          if args.gfpoly = 0 then throw .nullCall
          match args.init mem with
          | .error .noInverse => throw .endless
          | .error .notPrimitive => return (none, ← orStop .badMemory (freeAll b [genpoly, indexOf, alphaTo, rs]))
          | .ok control => return (some ⟨rs, alphaTo, indexOf, genpoly, control, 1⟩, b)

/-- The sanity checks of `init_rs_internal`. -/
def CodecArgs.sane (args : CodecArgs) : Bool :=
  if args.symsize < 1 then false
  else if args.fcr < 0 ∨ args.fcr ≥ 2 ^ args.symsize.toNat then false
  else if args.prim ≤ 0 ∨ args.prim ≥ 2 ^ args.symsize.toNat then false
  else if args.nroots < 0 ∨ args.nroots ≥ 2 ^ args.symsize.toNat then false
  else true

/-- The comparisons with an entry of `rslist`; `gffunc` is `NULL` on both sides. -/
def RsEntry.isFor (rs : RsEntry α) (args : CodecArgs) : Bool :=
  args.symsize = rs.control.mm ∧ args.gfpoly = rs.control.gfpoly ∧ args.fcr = rs.control.fcr ∧
    args.prim = rs.control.prim ∧ args.nroots = rs.control.nroots

def setUsers (rslist : List (RsEntry α)) (rs : α) (users : ℤ) : List (RsEntry α) :=
  rslist.map fun e => if e.rs = rs then { e with users } else e

def maxUsers : ℤ := 2 ^ 31 - 1

/-- `init_rs`: what it returns, and the state. -/
def initRsInternal (s : RsList α) (args : CodecArgs) (mem : Allocated) (got : Fin 4 → Option α) :
    Except RsStop (Option α × RsList α) :=
  if args.sane = false then .ok (none, s)
  else
    match s.rslist.find? (·.isFor args) with
    | some rs =>
      if rs.users + 1 > maxUsers then .error .overflow
      else .ok (some rs.rs, { s with rslist := setUsers s.rslist rs.rs (rs.users + 1) })
    | none => do
      let (result, blocks) ← rsInitBlocks s.blocks args mem got
      match result with
      | none => return (none, { s with blocks })
      | some rs => return (some rs.rs, { s with blocks, rslist := rs :: s.rslist })

/-- `free_rs` of the structure at `rs`. -/
def freeRs (s : RsList α) (rs : α) : Except RsStop (RsList α) :=
  match s.rslist.find? (·.rs = rs) with
  | none => .error .badMemory
  | some e => do
    let users := e.users - 1
    if users = 0 then
      let blocks ← orStop .badMemory (freeAll s.blocks [e.alphaTo, e.indexOf, e.genpoly, e.rs])
      return { s with blocks, rslist := s.rslist.filter (·.rs ≠ rs) }
    else return { s with rslist := setUsers s.rslist rs users }

inductive RsAction (α : Type)
  | initRs (args : CodecArgs) (mem : Allocated) (got : Fin 4 → Option α)
  | freeRs (handle : α × CodecArgs)

/-- A call that does not return has no successor. -/
def rsListStep (s : RsList α) : RsAction α → Except RsStop (RsList α)
  | .initRs args mem got => do
    let (result, s) ← initRsInternal s args mem got
    return { s with handles := result.toList.map (·, args) ++ s.handles }
  | .freeRs handle => do
    let s ← freeRs s handle.1
    return { s with handles := s.handles.erase handle }

/-! ## What `rs_init` allocates -/

/-- The four blocks of a control structure. -/
def RsEntry.blocks (e : RsEntry α) : Multiset α := ↑[e.alphaTo, e.indexOf, e.genpoly, e.rs]

/-- No memory is misused; without a control structure nothing stays allocated, and with one its four blocks do. -/
def InitSound (m : Multiset α) (args : CodecArgs) (mem : Allocated) :
    Except RsStop (Option (RsEntry α) × Finset α) → Prop
  | .error stop => stop ≠ .badMemory
  | .ok (none, b) => Owns b m
  | .ok (some e, b) => Owns b (e.blocks + m) ∧ e.users = 1 ∧ args.init mem = .ok e.control

theorem initSound_alloc {b : Finset α} {m : Multiset α} {args : CodecArgs} {mem : Allocated} {as : List α} {a : α}
    {f : Finset α → Except RsStop (Option (RsEntry α) × Finset α)} (h : Owns b (as + m))
    (hf : ∀ b', Owns b' ((↑(a :: as) : Multiset α) + m) → InitSound m args mem (f b')) :
    InitSound m args mem (orStop .allocator (alloc b a) >>= f) := by
  cases hb : alloc b a with
  | none => exact nofun
  | some b' => exact hf b' ((h.alloc hb).congr (cons_list_add a as m).symm)

theorem initSound_free {b : Finset α} {m : Multiset α} {args : CodecArgs} {mem : Allocated} {as : List α}
    (h : Owns b (as + m)) : InitSound m args mem
      (orStop .badMemory (freeAll b as) >>= fun b => Except.ok ((none : Option (RsEntry α)), b)) := by
  obtain ⟨b', hb', howns⟩ := h.freeAll
  rw [hb']
  exact howns

theorem rsInitBlocks_sound {b : Finset α} {m : Multiset α} (h : Owns b m) (args : CodecArgs) (mem : Allocated)
    (got : Fin 4 → Option α) : InitSound m args mem (rsInitBlocks b args mem got) := by
  unfold rsInitBlocks
  cases got 0 with
  | none => exact h
  | some rs =>
    have hnone : Owns b ((↑([] : List α) : Multiset α) + m) := h.congr (zero_add m).symm
    refine initSound_alloc hnone fun b₁ h₁ => ?_
    cases got 1 with
    | none => exact initSound_free h₁
    | some alphaTo =>
      refine initSound_alloc h₁ fun b₂ h₂ => ?_
      cases got 2 with
      | none => exact initSound_free h₂
      | some indexOf =>
        refine initSound_alloc h₂ fun b₃ h₃ => ?_
        cases got 3 with
        | none => exact initSound_free h₃
        | some genpoly =>
          refine initSound_alloc h₃ fun b₄ h₄ => ?_
          dsimp only
          split
          · exact nofun
          · cases hinit : args.init mem with
            | error failure =>
              cases failure with
              | noInverse => exact nofun
              | notPrimitive => exact initSound_free h₄
            | ok control =>
              refine ⟨h₄.congr ?_, rfl, hinit⟩
              have hperm : [genpoly, indexOf, alphaTo, rs].Perm [alphaTo, indexOf, genpoly, rs] := by
                exact (List.Perm.swap _ _ _).trans (((List.Perm.swap _ _ _).cons _).trans (List.Perm.swap _ _ _))
              rw [RsEntry.blocks, Multiset.coe_eq_coe.mpr hperm]

end

/-! ## What the list holds -/

section
variable {α : Type}

/-- What an entry was made for. -/
def RsEntry.args (e : RsEntry α) : CodecArgs :=
  ⟨e.control.mm, e.control.gfpoly, e.control.fcr, e.control.prim, e.control.nroots⟩

theorem isFor_iff {e : RsEntry α} {args : CodecArgs} : e.isFor args = true ↔ e.args = args := by
  obtain ⟨symsize, gfpoly, fcr, prim, nroots⟩ := args
  simp only [RsEntry.isFor, RsEntry.args, decide_eq_true_eq, CodecArgs.mk.injEq]
  constructor
  · rintro ⟨h₁, h₂, h₃, h₄, h₅⟩
    exact ⟨h₁.symm, h₂.symm, h₃.symm, h₄.symm, h₅.symm⟩
  · rintro ⟨h₁, h₂, h₃, h₄, h₅⟩
    exact ⟨h₁.symm, h₂.symm, h₃.symm, h₄.symm, h₅.symm⟩

theorem rsInit_fields {symsize gfpoly fcr prim nroots : ℕ} {mem : Allocated} {rs : RsControl}
    (h : rsInit symsize gfpoly fcr prim nroots mem = .ok rs) :
    rs.mm = symsize ∧ rs.gfpoly = gfpoly ∧ rs.fcr = fcr ∧ rs.prim = prim ∧ rs.nroots = nroots := by
  rw [rsInit] at h
  dsimp only at h
  split at h
  · cases h
  · split at h
    · cases h
    · cases h
      exact ⟨rfl, rfl, rfl, rfl, rfl⟩

/-- A new structure is for the arguments of the call. -/
theorem args_of_init {e : RsEntry α} {args : CodecArgs} {mem : Allocated} (hsane : args.sane = true)
    (h : args.init mem = .ok e.control) : e.args = args := by
  obtain ⟨hmm, hpoly, hfcr, hprim, hroots⟩ := rsInit_fields h
  obtain ⟨symsize, gfpoly, fcr, prim, nroots⟩ := args
  have hsigns : 0 ≤ symsize ∧ 0 ≤ fcr ∧ 0 ≤ prim ∧ 0 ≤ nroots := by
    unfold CodecArgs.sane at hsane
    split at hsane
    · cases hsane
    · split at hsane
      · cases hsane
      · split at hsane
        · cases hsane
        · split at hsane
          · cases hsane
          · simp only at *
            omega
  obtain ⟨h₁, h₂, h₃, h₄⟩ := hsigns
  simp only [RsEntry.args, hmm, hpoly, hfcr, hprim, hroots, Int.toNat_of_nonneg h₁, Int.toNat_of_nonneg h₂,
    Int.toNat_of_nonneg h₃, Int.toNat_of_nonneg h₄]

def ownedBy (rslist : List (RsEntry α)) : Multiset α := (rslist.map RsEntry.blocks).sum

theorem ownedBy_cons (e : RsEntry α) (l : List (RsEntry α)) : ownedBy (e :: l) = e.blocks + ownedBy l := by
  rw [ownedBy, List.map_cons, List.sum_cons]
  rfl

theorem rs_mem_blocks (e : RsEntry α) : e.rs ∈ e.blocks := by
  simp [RsEntry.blocks]

theorem rs_mem_ownedBy {e : RsEntry α} {l : List (RsEntry α)} (he : e ∈ l) : e.rs ∈ ownedBy l := by
  induction l with
  | nil => cases he
  | cons x l ih =>
    rw [ownedBy_cons, Multiset.mem_add]
    cases he with
    | head => exact Or.inl (rs_mem_blocks e)
    | tail _ he => exact Or.inr (ih he)

/-- No two entries are at one address. -/
theorem rs_nodup {l : List (RsEntry α)} (h : (ownedBy l).Nodup) : (l.map RsEntry.rs).Nodup := by
  induction l with
  | nil => exact List.nodup_nil
  | cons e l ih =>
    rw [ownedBy_cons, Multiset.nodup_add] at h
    obtain ⟨-, hrest, hdisjoint⟩ := h
    rw [List.map_cons, List.nodup_cons]
    refine ⟨?_, ih hrest⟩
    rw [List.mem_map]
    rintro ⟨x, hx, heq⟩
    apply Multiset.disjoint_left.mp hdisjoint (rs_mem_blocks e)
    rw [← heq]
    exact rs_mem_ownedBy hx

theorem ownedBy_card (l : List (RsEntry α)) : (ownedBy l).card = 4 * l.length := by
  induction l with
  | nil => rfl
  | cons e l ih =>
    rw [ownedBy_cons, Multiset.card_add, ih, List.length_cons]
    simp only [RsEntry.blocks, Multiset.coe_card, List.length_cons, List.length_nil]
    omega

end

section
variable {α : Type} [DecidableEq α]

/-- Taking the entry at one address out of the list. -/
theorem ownedBy_filter {l : List (RsEntry α)} {e : RsEntry α} (hnodup : (l.map RsEntry.rs).Nodup) (he : e ∈ l) :
    ownedBy l = e.blocks + ownedBy (l.filter (·.rs ≠ e.rs)) := by
  induction l with
  | nil => cases he
  | cons x l ih =>
    rw [List.map_cons, List.nodup_cons] at hnodup
    obtain ⟨hx, hnodup⟩ := hnodup
    cases he with
    | head =>
      have hrest : l.filter (·.rs ≠ e.rs) = l := by
        apply List.filter_eq_self.mpr
        intro y hy
        have hne : y.rs ≠ e.rs := fun heq => hx (List.mem_map.mpr ⟨y, hy, heq⟩)
        simpa using hne
      rw [ownedBy_cons, List.filter_cons_of_neg (by simp), hrest]
    | tail _ he =>
      have hne : x.rs ≠ e.rs := fun heq => hx (List.mem_map.mpr ⟨e, he, heq.symm⟩)
      rw [ownedBy_cons, List.filter_cons_of_pos (by simpa using hne), ownedBy_cons, ih hnodup he]
      exact add_left_comm _ _ _

/-! ## Changing a count -/

/-- What does not read the count stays. -/
theorem map_setUsers {β : Type} (f : RsEntry α → β) (hf : ∀ e users, f { e with users } = f e)
    (l : List (RsEntry α)) (rs : α) (users : ℤ) : (setUsers l rs users).map f = l.map f := by
  rw [setUsers, List.map_map]
  apply List.map_congr_left
  intro e _
  rw [Function.comp_apply]
  split
  · exact hf e users
  · rfl

theorem mem_setUsers {l : List (RsEntry α)} {rs : α} {users : ℤ} {e : RsEntry α} (he : e ∈ setUsers l rs users) :
    ∃ x ∈ l, x.rs = e.rs ∧ x.control = e.control ∧ e.users = if x.rs = rs then users else x.users := by
  obtain ⟨x, hx, rfl⟩ := List.mem_map.mp he
  refine ⟨x, hx, ?_⟩
  split
  · exact ⟨rfl, rfl, rfl⟩
  · exact ⟨rfl, rfl, rfl⟩

theorem setUsers_mem {l : List (RsEntry α)} {rs : α} {users : ℤ} {x : RsEntry α} (hx : x ∈ l) :
    ∃ e ∈ setUsers l rs users, e.rs = x.rs ∧ e.args = x.args := by
  refine ⟨_, List.mem_map_of_mem hx, ?_⟩
  split
  · exact ⟨rfl, rfl⟩
  · exact ⟨rfl, rfl⟩

/-! ## The invariant -/

structure ListInv (s : RsList α) : Prop where
  owns : Owns s.blocks (ownedBy s.rslist)
  args_nodup : (s.rslist.map RsEntry.args).Nodup
  users : ∀ e ∈ s.rslist, e.users = (s.handles.map Prod.fst).count e.rs ∧ 0 < e.users
  held : ∀ h ∈ s.handles, ∃ e ∈ s.rslist, e.rs = h.1 ∧ e.args = h.2
  made : ∀ e ∈ s.rslist, ∃ mem, e.args.init mem = .ok e.control

theorem listInv_initial : ListInv (initialRsList α) :=
  ⟨owns_empty, List.nodup_nil, nofun, nofun, nofun⟩

section
variable {s : RsList α}

theorem ListInv.setUsers (h : ListInv s) {rs : α} {users : ℤ} {handles : List (α × CodecArgs)} (hpos : 0 < users)
    (hcount : users = (handles.map Prod.fst).count rs)
    (hother : ∀ a ≠ rs, (handles.map Prod.fst).count a = (s.handles.map Prod.fst).count a)
    (hheld : ∀ h ∈ handles, ∃ e ∈ s.rslist, e.rs = h.1 ∧ e.args = h.2) :
    ListInv { s with rslist := Codec.setUsers s.rslist rs users, handles } := by
  refine ⟨?_, ?_, ?_, ?_, ?_⟩
  · refine h.owns.congr ?_
    rw [ownedBy, ownedBy, map_setUsers RsEntry.blocks fun _ _ => rfl]
  · rw [map_setUsers RsEntry.args fun _ _ => rfl]
    exact h.args_nodup
  · intro e he
    obtain ⟨x, hx, hrs, -, husers⟩ := mem_setUsers he
    rw [← hrs, husers]
    by_cases heq : x.rs = rs
    · rw [if_pos heq, heq]
      exact ⟨hcount, hpos⟩
    · rw [if_neg heq, hother x.rs heq]
      exact h.users x hx
  · intro handle hhandle
    obtain ⟨x, hx, hrs, hargs⟩ := hheld handle hhandle
    obtain ⟨e, he, hers, heargs⟩ := @setUsers_mem _ _ s.rslist rs users x hx
    exact ⟨e, he, hers.trans hrs, heargs.trans hargs⟩
  · intro e he
    obtain ⟨x, hx, -, hcontrol, -⟩ := mem_setUsers he
    obtain ⟨mem, hmem⟩ := h.made x hx
    refine ⟨mem, ?_⟩
    rw [RsEntry.args, ← hcontrol]
    exact hmem

/-- The result of a call: no memory is misused, and the invariant holds. -/
def StepSound : Except RsStop (RsList α) → Prop
  | .error stop => stop ≠ .badMemory
  | .ok t => ListInv t

theorem ListInv.initRs (h : ListInv s) (args : CodecArgs) (mem : Allocated) (got : Fin 4 → Option α) :
    StepSound (rsListStep s (.initRs args mem got)) := by
  rw [rsListStep, initRsInternal]
  split
  · exact h
  · next hsane =>
    have hsane : args.sane = true := by simpa using hsane
    cases hfind : s.rslist.find? (·.isFor args) with
    | some e =>
      have he := List.mem_of_find?_eq_some hfind
      have hmatch := List.find?_some hfind
      have hargs : e.args = args := isFor_iff.mp hmatch
      dsimp only
      split
      · exact nofun
      · obtain ⟨husers, hpos⟩ := h.users e he
        refine h.setUsers (by omega) ?_ ?_ ?_
        · simp only [Option.toList_some, List.map_cons, List.map_nil, List.cons_append, List.nil_append,
            List.count_cons_self, husers]
          push_cast
          rfl
        · intro a hne
          exact List.count_cons_of_ne (Ne.symm hne)
        · intro handle hhandle
          cases hhandle with
          | head => exact ⟨e, he, rfl, hargs⟩
          | tail _ hhandle => exact h.held handle hhandle
    | none =>
      have hnew : ∀ e ∈ s.rslist, e.args ≠ args := fun e he heq =>
        List.find?_eq_none.mp hfind e he (isFor_iff.mpr heq)
      have hsound := rsInitBlocks_sound h.owns args mem got
      dsimp only
      cases hinit : rsInitBlocks s.blocks args mem got with
      | error stop =>
        rw [hinit] at hsound
        exact hsound
      | ok result =>
        obtain ⟨result, blocks⟩ := result
        rw [hinit] at hsound
        cases result with
        | none => exact ⟨hsound, h.args_nodup, h.users, h.held, h.made⟩
        | some e =>
          obtain ⟨howns, hone, hcontrol⟩ := hsound
          have hargs := args_of_init hsane hcontrol
          have howns : Owns blocks (ownedBy (e :: s.rslist)) := howns.congr (ownedBy_cons e _).symm
          have hrs := rs_nodup howns.nodup
          rw [List.map_cons, List.nodup_cons] at hrs
          -- no handle is at the new address
          have hfresh : (s.handles.map Prod.fst).count e.rs = 0 := by
            rw [List.count_eq_zero, List.mem_map]
            rintro ⟨handle, hhandle, heq⟩
            obtain ⟨x, hx, hxrs, -⟩ := h.held handle hhandle
            exact hrs.1 (List.mem_map.mpr ⟨x, hx, hxrs.trans heq⟩)
          refine ⟨howns, ?_, ?_, ?_, ?_⟩
          · rw [List.map_cons, List.nodup_cons]
            refine ⟨?_, h.args_nodup⟩
            rw [List.mem_map]
            rintro ⟨x, hx, heq⟩
            exact hnew x hx (heq.trans hargs)
          · intro x hx
            cases hx with
            | head =>
              refine ⟨?_, by rw [hone]; exact one_pos⟩
              change e.users = ((e.rs :: s.handles.map Prod.fst).count e.rs : ℕ)
              rw [hone, List.count_cons_self, hfresh]
              rfl
            | tail _ hx =>
              have hne : e.rs ≠ x.rs := fun heq => hrs.1 (List.mem_map.mpr ⟨x, hx, heq.symm⟩)
              change x.users = ((e.rs :: s.handles.map Prod.fst).count x.rs : ℕ) ∧ 0 < x.users
              rw [List.count_cons_of_ne hne]
              exact h.users x hx
          · intro handle hhandle
            cases hhandle with
            | head => exact ⟨e, List.mem_cons_self, rfl, hargs⟩
            | tail _ hhandle =>
              obtain ⟨x, hx, hxs⟩ := h.held handle hhandle
              exact ⟨x, List.mem_cons_of_mem _ hx, hxs⟩
          · intro x hx
            cases hx with
            | head => exact ⟨mem, by rw [hargs]; exact hcontrol⟩
            | tail _ hx => exact h.made x hx

/-- How often each address is held when one handle has been given back. -/
theorem count_erase_handle {handles : List (α × CodecArgs)} {handle : α × CodecArgs} (h : handle ∈ handles) (a : α) :
    (handles.map Prod.fst).count a =
      ((handles.erase handle).map Prod.fst).count a + if handle.1 = a then 1 else 0 := by
  have hperm := (List.perm_cons_erase h).map Prod.fst
  rw [hperm.count_eq, List.map_cons, List.count_cons]
  simp

theorem ListInv.freeRs (h : ListInv s) {handle : α × CodecArgs} (hheld : handle ∈ s.handles) :
    ∃ t, rsListStep s (.freeRs handle) = .ok t ∧ ListInv t := by
  have hnodup := rs_nodup h.owns.nodup
  obtain ⟨x, hx, hxrs, -⟩ := h.held handle hheld
  obtain ⟨e, hfind⟩ : ∃ e, s.rslist.find? (·.rs = handle.1) = some e := by
    rw [← Option.isSome_iff_exists, List.find?_isSome]
    exact ⟨x, hx, by simpa using hxrs⟩
  have he := List.mem_of_find?_eq_some hfind
  have hers : e.rs = handle.1 := by simpa using List.find?_some hfind
  obtain ⟨husers, hpos⟩ := h.users e he
  have hcount := fun a => count_erase_handle hheld a
  have hself := hcount handle.1
  rw [if_pos rfl] at hself
  rw [hers] at husers
  simp only [rsListStep, Codec.freeRs, hfind]
  by_cases hlast : e.users - 1 = 0
  · have hgone : ((s.handles.erase handle).map Prod.fst).count handle.1 = 0 := by omega
    have howns := h.owns.congr (ownedBy_filter hnodup he)
    obtain ⟨blocks, hblocks, howns⟩ := howns.freeAll
    simp only [if_pos hlast, hblocks]
    refine ⟨_, rfl, ?_⟩
    rw [← hers] at *
    refine ⟨howns, ?_, ?_, ?_, ?_⟩
    · exact h.args_nodup.sublist (List.filter_sublist.map _)
    · intro y hy
      obtain ⟨hy, hne⟩ := List.mem_filter.mp hy
      have hne : e.rs ≠ y.rs := Ne.symm (of_decide_eq_true hne)
      have hsame := hcount y.rs
      rw [if_neg (by rw [← hers]; exact hne), Nat.add_zero] at hsame
      rw [← hsame]
      exact h.users y hy
    · intro handle' hhandle'
      obtain ⟨y, hy, hyrs, hyargs⟩ := h.held handle' (List.mem_of_mem_erase hhandle')
      refine ⟨y, List.mem_filter.mpr ⟨hy, ?_⟩, hyrs, hyargs⟩
      have hne : y.rs ≠ e.rs := by
        intro heq
        apply List.count_eq_zero.mp hgone
        rw [← heq, hyrs]
        exact List.mem_map_of_mem hhandle'
      simpa using hne
    · intro y hy
      exact h.made y (List.mem_filter.mp hy).1
  · have hleft : e.users - 1 = ((s.handles.erase handle).map Prod.fst).count handle.1 := by omega
    simp only [if_neg hlast]
    refine ⟨_, rfl, h.setUsers (by omega) hleft ?_ ?_⟩
    · intro a hne
      have hsame := hcount a
      rw [if_neg (Ne.symm hne), Nat.add_zero] at hsame
      exact hsame.symm
    · intro handle' hhandle'
      exact h.held handle' (List.mem_of_mem_erase hhandle')

end

/-! ## Runs -/

/-- Callers free only what they hold. -/
def FreesHeld (s : RsList α) : RsAction α → Prop
  | .initRs _ _ _ => True
  | .freeRs handle => handle ∈ s.handles

theorem ListInv.step {s : RsList α} (h : ListInv s) {a : RsAction α} (hheld : FreesHeld s a) :
    StepSound (rsListStep s a) := by
  cases a with
  | initRs args mem got => exact h.initRs args mem got
  | freeRs handle =>
    obtain ⟨t, ht, hinv⟩ := h.freeRs hheld
    rw [ht]
    exact hinv

/-- Two holders of one structure asked for the same code and the other way round, every holder's structure is what
`rs_init` makes of its arguments, four blocks are allocated for each code that is held and no others, and neither
call meets memory that is gone. -/
structure ControlsShared (s : RsList α) : Prop where
  contents : ∀ h ∈ s.handles, ∃ e ∈ s.rslist, e.rs = h.1 ∧ ∃ mem, h.2.init mem = .ok e.control
  shared : ∀ h ∈ s.handles, ∀ h' ∈ s.handles, h.1 = h'.1 ↔ h.2 = h'.2
  blocks : s.blocks.card = 4 * (s.handles.map Prod.snd).toFinset.card
  safe : ∀ a, FreesHeld s a → rsListStep s a ≠ .error .badMemory
  returned : ∀ h ∈ s.handles, ∃ t, rsListStep s (.freeRs h) = .ok t

theorem ListInv.controlsShared {s : RsList α} (h : ListInv s) : ControlsShared s := by
  have hnodup := rs_nodup h.owns.nodup
  have hsame : ∀ e ∈ s.rslist, ∀ e' ∈ s.rslist, e.rs = e'.rs ↔ e.args = e'.args := by
    intro e he e' he'
    constructor
    · intro heq
      rw [List.inj_on_of_nodup_map hnodup he he' heq]
    · intro heq
      rw [List.inj_on_of_nodup_map h.args_nodup he he' heq]
  refine ⟨?_, ?_, ?_, ?_, ?_⟩
  · intro handle hhandle
    obtain ⟨e, he, hrs, hargs⟩ := h.held handle hhandle
    obtain ⟨mem, hmem⟩ := h.made e he
    exact ⟨e, he, hrs, mem, by rw [← hargs]; exact hmem⟩
  · intro handle hhandle handle' hhandle'
    obtain ⟨e, he, hrs, hargs⟩ := h.held handle hhandle
    obtain ⟨e', he', hrs', hargs'⟩ := h.held handle' hhandle'
    rw [← hrs, ← hrs', ← hargs, ← hargs']
    exact hsame e he e' he'
  · -- the codes that are held are those of the entries
    have hset : (s.handles.map Prod.snd).toFinset = (s.rslist.map RsEntry.args).toFinset := by
      ext args
      rw [List.mem_toFinset, List.mem_toFinset, List.mem_map, List.mem_map]
      constructor
      · rintro ⟨handle, hhandle, rfl⟩
        obtain ⟨e, he, -, hargs⟩ := h.held handle hhandle
        exact ⟨e, he, hargs⟩
      · rintro ⟨e, he, rfl⟩
        obtain ⟨husers, hpos⟩ := h.users e he
        have hcount : 0 < (s.handles.map Prod.fst).count e.rs := by omega
        obtain ⟨handle, hhandle, hrs⟩ := List.mem_map.mp (List.count_pos_iff.mp hcount)
        obtain ⟨e', he', hrs', hargs'⟩ := h.held handle hhandle
        refine ⟨handle, hhandle, ?_⟩
        rw [← hargs']
        exact (hsame e' he' e he).mp (hrs'.trans hrs)
    rw [h.owns.card, ownedBy_card, hset, List.toFinset_card_of_nodup h.args_nodup, List.length_map]
  · intro a hheld heq
    have hsound := h.step hheld
    rw [heq] at hsound
    exact hsound rfl
  · intro handle hhandle
    obtain ⟨t, ht, -⟩ := h.freeRs hhandle
    exact ⟨t, ht⟩

/-- **Control structures are shared and given back.** In every run whose callers free only what they hold. -/
theorem controls_shared (as : List (RsAction α)) (t : RsList α)
    (hrun : Run (fun s a => (rsListStep s a).toOption) (initialRsList α) as t)
    (hheld : EveryStep (fun s a => (rsListStep s a).toOption) (initialRsList α) as FreesHeld) : ControlsShared t := by
  have h : ListInv t := by
    refine hrun.invariant_of_everyStep listInv_initial ?_ hheld
    intro s a u h hgood hstep
    have hsound := h.step hgood
    rw [toOption_eq_some.mp hstep] at hsound
    exact hsound
  exact h.controlsShared

end

/-- Two drivers ask for one code, and one of them is done with it. -/
def twoDrivers : List (RsAction ℕ) :=
  [.initRs ⟨3, 11, 0, 1, 2⟩ smallMemory (fun i => some i), .initRs ⟨3, 11, 0, 1, 2⟩ smallMemory (fun _ => none),
    .freeRs (0, ⟨3, 11, 0, 1, 2⟩)]

theorem controls_shared_two_drivers :
    ∃ t, Run (fun s a => (rsListStep s a).toOption) (initialRsList ℕ) twoDrivers t ∧ t.handles.length = 1 ∧
      ControlsShared t := by
  obtain ⟨t, ht⟩ := Option.isSome_iff_exists.mp (show (exec (fun s a => (rsListStep s a).toOption) (initialRsList ℕ)
    twoDrivers).isSome = true by decide +kernel)
  have hleft : (exec (fun s a => (rsListStep s a).toOption) (initialRsList ℕ) twoDrivers).map (·.handles.length) =
      some 1 := by decide +kernel
  rw [ht] at hleft
  have hrun := run_of_exec ht
  refine ⟨t, hrun, Option.some.inj hleft, controls_shared twoDrivers t hrun ?_⟩
  refine (everyStep_cons rfl).mpr ⟨trivial, ?_⟩
  refine (everyStep_cons rfl).mpr ⟨trivial, ?_⟩
  exact (everyStep_snoc Run.refl).mpr ⟨everyStep_nil _ _ _, List.mem_cons_self⟩

end CiotVlc.Codec
