import CiotVlc.Gateway.VlcPath

/-! # What a timeout pass resends

`checkUnacked_progress` says what one pass of `check_unacked` does: of each scanned packet that is due, the
first table entry moves to `rf_queue`. The scan runs from `unacked_seq` up to `unsched_seq` without wrapping, so
nothing is scanned once the window has wrapped around.
-/
namespace CiotVlc.Gateway
open Foundations.Checked Foundations.LinkedQueue Foundations.SwapRemove Foundations.Bytes
set_option autoImplicit false

namespace VlcPath

/-! ## What a pass should do -/

/-- What tells the packets of the table apart: `node_id` and `seq_number`. -/
def key (p : Parcel) : ℕ × ℕ := (p.packet.nodeId.toNat, p.packet.seqNumber.toNat)

/-- Packet `j` of node `i` has been scheduled to VLC and has timed out. -/
def TimedOut (s : VlcPath) (now : Timespec) (i j : ℕ) : Prop :=
  s.pktState i j = .vlcUnacked ∧ expired (s.expireTime i j) now = true

/-- `j` lies between `unacked_seq` and `unsched_seq`, cyclically. -/
def Outstanding (s : VlcPath) (i j : ℕ) : Prop :=
  j < maxSeqNumber ∧ (j - s.unackedSeq i) % maxSeqNumber < (s.unschedSeq i - s.unackedSeq i) % maxSeqNumber

/-- The packet of key `k` has to be resent. -/
def Due (cfg : Config) (s : VlcPath) (now : Timespec) (k : ℕ × ℕ) : Prop :=
  1 ≤ k.1 ∧ k.1 ≤ cfg.nNode ∧ s.Outstanding (k.1 - 1) k.2 ∧ s.TimedOut now (k.1 - 1) k.2

instance (s : VlcPath) (now : Timespec) (i j : ℕ) : Decidable (s.TimedOut now i j) :=
  inferInstanceAs (Decidable (_ ∧ _))

instance (cfg : Config) (s : VlcPath) (now : Timespec) (k : ℕ × ℕ) : Decidable (Due cfg s now k) :=
  inferInstanceAs (Decidable (_ ∧ _ ∧ (_ ∧ _) ∧ _))

/-- The table entries that have to be resent. -/
def dueEntries (cfg : Config) (s : VlcPath) (now : Timespec) : List Parcel :=
  s.unacked.filter fun p => Due cfg s now (key p)

/-- Every due entry has moved to `rf_queue`, once, and everything else is as it was. -/
structure AllResent (cfg : Config) (now : Timespec) (before after : VlcPath) : Prop where
  queued : ∃ moved : List Parcel, moved.Perm (dueEntries cfg before now) ∧
    after.rfQueue = before.rfQueue ++ moved ∧ after.r = before.r + moved.length
  table : after.unacked.Perm (before.unacked.filter fun p => ¬ Due cfg before now (key p))
  state : ∀ i j, after.pktState i j =
    if ∃ p ∈ dueEntries cfg before now, key p = (i + 1, j) then .rf else before.pktState i j
  nodeQueues : after.nodeQueues = before.nodeQueues
  vlcQueue : after.vlcQueue = before.vlcQueue

/-! ## What a pass does -/

def scannedKeys (s : VlcPath) (i : ℕ) : List (ℕ × ℕ) := (s.scanned i).map fun j => (i + 1, j.toNat)

/-- Of the scanned packets, those that move: they have timed out and are in the table. -/
def hits (s : VlcPath) (now : Timespec) (ks : List (ℕ × ℕ)) : List (ℕ × ℕ) :=
  ks.filter fun k => s.TimedOut now (k.1 - 1) k.2 ∧ ∃ p ∈ s.unacked, key p = k

/-- After the packets `ks` have been scanned: `moved` has one table entry for each hit. -/
structure Progress (cfg : Config) (now : Timespec) (before after : VlcPath) (ks : List (ℕ × ℕ))
    (moved : List Parcel) : Prop where
  nodup : ks.Nodup
  keys : moved.map key = before.hits now ks
  table : before.unacked.Perm (moved ++ after.unacked)
  rfQueue : after.rfQueue = moved.foldl (Fifo.push (capacity cfg.rfQueueSize)) before.rfQueue
  r : after.r = before.r + moved.length
  state : ∀ i j, after.pktState i j = if (i + 1, j) ∈ before.hits now ks then .rf else before.pktState i j
  unackedSeq : after.unackedSeq = before.unackedSeq
  unschedSeq : after.unschedSeq = before.unschedSeq
  expireTime : after.expireTime = before.expireTime
  nodeQueues : after.nodeQueues = before.nodeQueues
  vlcQueue : after.vlcQueue = before.vlcQueue

section
variable {cfg : Config} {now : Timespec} {s t : VlcPath} {ks : List (ℕ × ℕ)} {moved : List Parcel}

theorem Progress.refl (cfg : Config) (now : Timespec) (s : VlcPath) : Progress cfg now s s [] [] :=
  ⟨List.nodup_nil, rfl, .refl _, rfl, by simp, fun _ _ => rfl, rfl, rfl, rfl, rfl, rfl⟩

theorem isEntryOf_iff {i : ℕ} {j : ℕ} (hj : j < maxSeqNumber) (p : Parcel) :
    isEntryOf i j p.packet = true ↔ key p = (i + 1, j) := by
  have hmod : ofInt32 (j : ℤ) = j := by
    simp only [ofInt32, maxSeqNumber] at hj ⊢
    omega
  rw [isEntryOf, hmod, Bool.and_eq_true, decide_eq_true_iff, decide_eq_true_iff, key, Prod.mk.injEq]
  exact and_congr_left fun _ => by omega

theorem hits_snoc (s : VlcPath) (now : Timespec) (ks : List (ℕ × ℕ)) (k : ℕ × ℕ) :
    s.hits now (ks ++ [k]) =
      s.hits now ks ++ if s.TimedOut now (k.1 - 1) k.2 ∧ ∃ p ∈ s.unacked, key p = k then [k] else [] := by
  rw [hits, List.filter_append, ← hits]
  congr 1
  by_cases hk : s.TimedOut now (k.1 - 1) k.2 ∧ ∃ p ∈ s.unacked, key p = k
  · simp [hk]
  · simp [hk]

theorem mem_hits {k : ℕ × ℕ} : k ∈ s.hits now ks ↔
    k ∈ ks ∧ s.TimedOut now (k.1 - 1) k.2 ∧ ∃ p ∈ s.unacked, key p = k := by
  rw [hits, List.mem_filter, decide_eq_true_iff]

theorem Progress.skip (h : Progress cfg now s t ks moved) {k : ℕ × ℕ} (hnew : k ∉ ks)
    (hmiss : ¬ (s.TimedOut now (k.1 - 1) k.2 ∧ ∃ p ∈ s.unacked, key p = k)) :
    Progress cfg now s t (ks ++ [k]) moved := by
  have hsame : s.hits now (ks ++ [k]) = s.hits now ks := by rw [hits_snoc, if_neg hmiss, List.append_nil]
  exact { h with
    nodup := List.concat_eq_append ▸ h.nodup.concat hnew
    keys := by rw [hsame, h.keys]
    state := by rw [hsame]; exact h.state }

/-- The first table entry of a packet that has timed out goes to `rf_queue`. -/
theorem Progress.resend (h : Progress cfg now s t ks moved) {i j : ℕ} {entry : Parcel} (hj : j < maxSeqNumber)
    (hnew : (i + 1, j) ∉ ks) (hdue : s.TimedOut now i j)
    (hfind : t.unacked.find? (fun p => isEntryOf i j p.packet) = some entry) :
    ∃ u, VlcPath.resend cfg t i j entry = .ok u ∧
      Progress cfg now s u (ks ++ [(i + 1, j)]) (moved ++ [entry]) := by
  have hentry : isEntryOf i j entry.packet = true :=
    List.find?_some (p := fun q : Parcel => isEntryOf i j q.packet) hfind
  have hkey : key entry = (i + 1, j) := (isEntryOf_iff hj entry).mp hentry
  have htable := h.table.trans ((perm_swapRemove hfind).append_left moved)
  have hin : entry ∈ s.unacked := htable.mem_iff.mpr (by simp)
  have hhit : s.hits now (ks ++ [(i + 1, j)]) = s.hits now ks ++ [(i + 1, j)] := by
    rw [hits_snoc, if_pos ⟨hdue, entry, hin, hkey⟩]
  simp only [VlcPath.resend, writeCell_ok _ _ hj, ok_bind, pure_eq_ok]
  refine ⟨_, rfl, { h with
    nodup := List.concat_eq_append ▸ h.nodup.concat hnew, keys := ?_, table := ?_, rfQueue := ?_, r := ?_,
    state := ?_ }⟩
  · rw [hhit, List.map_append, h.keys, List.map_singleton, hkey]
  · rw [List.append_assoc]
    exact htable
  · rw [List.foldl_append, ← h.rfQueue]
    rfl
  · rw [List.length_append, List.length_singleton]
    simp only [h.r]
    push_cast
    ring
  · intro i' j'
    rw [hhit]
    by_cases hij : (i' + 1, j') = (i + 1, j)
    · obtain ⟨hi, rfl⟩ := Prod.mk.injEq .. ▸ hij
      obtain rfl : i' = i := by omega
      rw [if_pos (by simp)]
      simp
    · have hmem : (i' + 1, j') ∈ s.hits now ks ++ [(i + 1, j)] ↔ (i' + 1, j') ∈ s.hits now ks := by
        rw [List.mem_append, List.mem_singleton, or_iff_left hij]
      simp only [hmem, ← h.state]
      by_cases hi : i' = i
      · subst hi
        rw [Function.update_self, Function.update_of_ne fun he => hij (by rw [he])]
      · rw [Function.update_of_ne hi]

theorem Progress.checkPacket (h : Progress cfg now s t ks moved) {i j : ℕ} (hj : j < maxSeqNumber)
    (hnew : (i + 1, j) ∉ ks) :
    ∃ u, VlcPath.checkPacket cfg now i t j = .ok u ∧
      ∃ moved', Progress cfg now s u (ks ++ [(i + 1, j)]) moved' := by
  have hstate : t.pktState i j = s.pktState i j := by
    rw [h.state, if_neg fun hmem => hnew (mem_hits.mp hmem).1]
  simp only [VlcPath.checkPacket, readCell_ok _ hj, ok_bind, hstate, h.expireTime, pure_eq_ok]
  by_cases hdue : s.pktState i j = .vlcUnacked ∧ expired (s.expireTime i j) now = true
  · rw [if_pos hdue]
    rcases hfind : t.unacked.find? (fun p => isEntryOf i j p.packet) with _ | entry
    · -- no entry is left, so there was none: those that moved have other keys
      refine ⟨t, by rw [hfind], moved, h.skip hnew ?_⟩
      rintro ⟨_, p, hp, hkey⟩
      rcases List.mem_append.mp (h.table.mem_iff.mp hp) with hp | hp
      · have hmem : key p ∈ s.hits now ks := h.keys ▸ List.mem_map_of_mem hp
        exact hnew (hkey ▸ (mem_hits.mp hmem).1)
      · have hnone := List.find?_eq_none.mp hfind p hp
        exact hnone ((isEntryOf_iff hj p).mpr hkey)
    · obtain ⟨u, hu, hmoved⟩ := h.resend hj hnew hdue hfind
      exact ⟨u, by rw [hfind, ← hu], moved ++ [entry], hmoved⟩
  · rw [if_neg hdue]
    exact ⟨t, rfl, moved, h.skip hnew fun hhit => hdue hhit.1⟩

/-! ## The two loops -/

/-- Both ends of every node's window are sequence numbers. -/
def WindowsInRange (cfg : Config) (s : VlcPath) : Prop :=
  ∀ i < cfg.nNode, (0 ≤ s.unackedSeq i ∧ s.unackedSeq i < maxSeqNumber) ∧
    0 ≤ s.unschedSeq i ∧ s.unschedSeq i < maxSeqNumber

theorem mem_scanned {i : ℕ} {x : ℤ} : x ∈ s.scanned i ↔ s.unackedSeq i ≤ x ∧ x < s.unschedSeq i := by
  simp only [scanned, List.mem_map, List.mem_range]
  constructor
  · rintro ⟨k, hk, rfl⟩
    omega
  · rintro ⟨hge, hlt⟩
    exact ⟨(x - s.unackedSeq i).toNat, by omega, by omega⟩

theorem not_mem_done {α : Type} {xs done rest : List α} {x : α} (h : xs.Nodup) (hsplit : xs = done ++ x :: rest) :
    x ∉ done := by
  rw [hsplit] at h
  exact fun hmem => List.disjoint_of_nodup_append h hmem List.mem_cons_self

theorem nodup_scanned (s : VlcPath) (i : ℕ) : (s.scanned i).Nodup :=
  List.nodup_range.map fun a b hab => by simpa using hab

theorem mem_scannedKeys {i : ℕ} (hpos : 0 ≤ s.unackedSeq i) {k : ℕ × ℕ} : k ∈ s.scannedKeys i ↔
    k.1 = i + 1 ∧ s.unackedSeq i ≤ k.2 ∧ k.2 < s.unschedSeq i := by
  simp only [scannedKeys, List.mem_map, mem_scanned]
  constructor
  · rintro ⟨x, ⟨hge, hlt⟩, rfl⟩
    exact ⟨rfl, by omega, by omega⟩
  · rintro ⟨hk, hge, hlt⟩
    exact ⟨k.2, ⟨hge, hlt⟩, by rw [Int.toNat_natCast, ← hk]⟩

theorem Progress.checkNode (h : Progress cfg now s t ks moved) (hwin : WindowsInRange cfg s) {i : ℕ}
    (hi : i < cfg.nNode) (hnew : ∀ k ∈ ks, k.1 ≠ i + 1) :
    ∃ u, VlcPath.checkNode cfg now t i = .ok u ∧
      ∃ moved', Progress cfg now s u (ks ++ s.scannedKeys i) moved' := by
  obtain ⟨⟨hpos, _⟩, _, hmax⟩ := hwin i hi
  have hscan : t.scanned i = s.scanned i := by rw [scanned, h.unackedSeq, h.unschedSeq, scanned]
  rw [VlcPath.checkNode, hscan]
  refine foldlM_returns (I := fun done u =>
    ∃ moved', Progress cfg now s u (ks ++ done.map fun (j : ℤ) => (i + 1, j.toNat)) moved')
    ⟨moved, by simpa using h⟩ ?_
  rintro done x rest u hsplit ⟨moved', hu⟩
  obtain ⟨hge, hlt⟩ := mem_scanned.mp (show x ∈ s.scanned i by simp [hsplit])
  obtain ⟨j, rfl⟩ := Int.eq_ofNat_of_zero_le (hpos.trans hge)
  have hfresh : (j : ℤ) ∉ done := not_mem_done (nodup_scanned s i) hsplit
  obtain ⟨v, hv, moved'', hv'⟩ := hu.checkPacket (i := i) (j := j) (by exact_mod_cast hlt.trans hmax) (by
    rw [List.mem_append, not_or]
    refine ⟨fun hmem => hnew _ hmem rfl, fun hmem => ?_⟩
    obtain ⟨x, hx, heq⟩ := List.mem_map.mp hmem
    have hx0 := (mem_scanned.mp (show x ∈ s.scanned i by simp [hsplit, hx])).1
    simp only [Prod.mk.injEq, true_and] at heq
    exact hfresh ((show x = j by omega) ▸ hx))
  exact ⟨v, hv, moved'', by simpa using hv'⟩

variable (now) in
/-- **One pass of `check_unacked`** returns, and moves one entry for each hit of the scan. -/
theorem checkUnacked_progress (hwin : WindowsInRange cfg s) :
    ∃ t, s.checkUnacked cfg now = .ok t ∧
      ∃ moved, Progress cfg now s t ((List.range cfg.nNode).flatMap s.scannedKeys) moved := by
  refine foldlM_returns (I := fun done u => ∃ moved, Progress cfg now s u (done.flatMap s.scannedKeys) moved)
    ⟨[], .refl cfg now s⟩ ?_
  rintro done i rest u hsplit ⟨moved, hu⟩
  have hfresh : i ∉ done := not_mem_done List.nodup_range hsplit
  have hlt : ∀ n ∈ done ++ i :: rest, n < cfg.nNode := fun n hn => List.mem_range.mp (hsplit ▸ hn)
  obtain ⟨v, hv, moved', hv'⟩ := hu.checkNode hwin (hlt i (by simp)) (by
    intro k hk hki
    obtain ⟨n, hn, hkn⟩ := List.mem_flatMap.mp hk
    have hn0 := (hwin n (hlt n (by simp [hn]))).1.1
    have := ((mem_scannedKeys hn0).mp hkn).1
    exact hfresh ((show n = i by omega) ▸ hn))
  exact ⟨v, hv, moved', by simpa using hv'⟩

/-! ## When a pass resends everything that is due -/

theorem mem_hits_all (hwin : WindowsInRange cfg s) {k : ℕ × ℕ} :
    k ∈ s.hits now ((List.range cfg.nNode).flatMap s.scannedKeys) ↔
      Due cfg s now k ∧ s.unackedSeq (k.1 - 1) ≤ s.unschedSeq (k.1 - 1) ∧ ∃ p ∈ s.unacked, key p = k := by
  rw [mem_hits, List.mem_flatMap]
  constructor
  · rintro ⟨⟨i, hi, hk⟩, htimeout, hentry⟩
    have hi := List.mem_range.mp hi
    obtain ⟨⟨hpos, _⟩, _, hmax⟩ := hwin i hi
    obtain ⟨hki, hge, hlt⟩ := (mem_scannedKeys hpos).mp hk
    obtain rfl : k.1 - 1 = i := by omega
    refine ⟨⟨by omega, by omega, ⟨?_, ?_⟩, htimeout⟩, by omega, hentry⟩
    · exact_mod_cast hlt.trans hmax
    · rw [Int.emod_eq_of_lt (by omega) (by omega), Int.emod_eq_of_lt (by omega) (by omega)]
      omega
  · rintro ⟨⟨hpos, hle, ⟨hj, hout⟩, htimeout⟩, hwrap, hentry⟩
    obtain ⟨⟨ha, ha'⟩, hb, hb'⟩ := hwin (k.1 - 1) (by omega)
    refine ⟨⟨k.1 - 1, List.mem_range.mpr (by omega), (mem_scannedKeys ha).mpr ⟨by omega, ?_⟩⟩, htimeout, hentry⟩
    simp only [maxSeqNumber] at hj hout ha' hb'
    omega

/-- What has to be resent is scanned, found, and finds room. -/
structure ResendsAll (cfg : Config) (now : Timespec) (s : VlcPath) : Prop where
  noWrap : ∀ p ∈ dueEntries cfg s now, s.unackedSeq ((key p).1 - 1) ≤ s.unschedSeq ((key p).1 - 1)
  distinct : ((dueEntries cfg s now).map key).Nodup
  room : (dueEntries cfg s now).length ≤ capacity cfg.rfQueueSize - s.rfQueue.length

theorem mem_dueEntries {p : Parcel} : p ∈ dueEntries cfg s now ↔ p ∈ s.unacked ∧ Due cfg s now (key p) := by
  rw [dueEntries, List.mem_filter, decide_eq_true_iff]

theorem Progress.due_of_moved (hwin : WindowsInRange cfg s)
    (h : Progress cfg now s t ((List.range cfg.nNode).flatMap s.scannedKeys) moved) {p : Parcel} (hp : p ∈ moved) :
    Due cfg s now (key p) ∧ s.unackedSeq ((key p).1 - 1) ≤ s.unschedSeq ((key p).1 - 1) := by
  have hmem := (mem_hits_all hwin).mp (h.keys ▸ List.mem_map_of_mem hp)
  exact ⟨hmem.1, hmem.2.1⟩

/-- With distinct due packets in windows that have not wrapped around, nothing that is due stays behind. -/
theorem Progress.not_due_of_left (hwin : WindowsInRange cfg s)
    (h : Progress cfg now s t ((List.range cfg.nNode).flatMap s.scannedKeys) moved)
    (hgood : ResendsAll cfg now s) {p : Parcel} (hp : p ∈ t.unacked) : ¬ Due cfg s now (key p) := by
  intro hdue
  have hin : p ∈ s.unacked := h.table.mem_iff.mpr (List.mem_append_right _ hp)
  have hhit := (mem_hits_all hwin).mpr ⟨hdue, hgood.noWrap p (mem_dueEntries.mpr ⟨hin, hdue⟩), p, hin, rfl⟩
  rw [← h.keys] at hhit
  obtain ⟨q, hq, hkey⟩ := List.mem_map.mp hhit
  -- both `q`, which moved, and `p` would be due entries of one packet
  have hnodup := hgood.distinct
  rw [dueEntries, ((h.table.filter _).map key).nodup_iff, List.filter_append, List.map_append] at hnodup
  have hqdue := (h.due_of_moved hwin hq).1
  exact List.disjoint_of_nodup_append hnodup
    (List.mem_map_of_mem (List.mem_filter.mpr ⟨hq, decide_eq_true hqdue⟩))
    (hkey ▸ List.mem_map_of_mem (List.mem_filter.mpr ⟨hp, decide_eq_true hdue⟩))

theorem perm_due_append (cfg : Config) (now : Timespec) (s : VlcPath) :
    (dueEntries cfg s now ++ s.unacked.filter fun p => ¬ Due cfg s now (key p)).Perm s.unacked := by
  have h := List.filter_append_perm (fun p => decide (Due cfg s now (key p))) s.unacked
  simpa only [dueEntries, decide_not] using h

theorem Progress.allResent (hwin : WindowsInRange cfg s)
    (h : Progress cfg now s t ((List.range cfg.nNode).flatMap s.scannedKeys) moved)
    (hgood : ResendsAll cfg now s) : AllResent cfg now s t := by
  have hmoved : moved.filter (fun p => Due cfg s now (key p)) = moved :=
    List.filter_eq_self.mpr fun p hp => decide_eq_true (h.due_of_moved hwin hp).1
  have hleft : t.unacked.filter (fun p => Due cfg s now (key p)) = [] :=
    List.filter_eq_nil_iff.mpr fun p hp => by simpa using h.not_due_of_left hwin hgood hp
  have hdue : (dueEntries cfg s now).Perm moved := by
    have hperm := h.table.filter fun p => Due cfg s now (key p)
    rwa [List.filter_append, hmoved, hleft, List.append_nil] at hperm
  refine ⟨⟨moved, hdue.symm, ?_, h.r⟩, ?_, fun i j => ?_, h.nodeQueues, h.vlcQueue⟩
  · rw [h.rfQueue, Fifo.foldl_push, List.take_of_length_le (hdue.length_eq ▸ hgood.room)]
  · have hparts := (perm_due_append cfg now s).trans h.table
    exact ((List.perm_append_left_iff moved).mp ((hdue.symm.append_right _).trans hparts)).symm
  · rw [h.state]
    refine if_congr ?_ rfl rfl
    rw [mem_hits_all hwin]
    constructor
    · rintro ⟨hd, _, p, hp, hkey⟩
      exact ⟨p, mem_dueEntries.mpr ⟨hp, by rwa [hkey]⟩, hkey⟩
    · rintro ⟨p, hp, hkey⟩
      have hwrap := hgood.noWrap p hp
      obtain ⟨hin, hd⟩ := mem_dueEntries.mp hp
      rw [hkey] at hd hwrap
      exact ⟨hd, hwrap, p, hin, hkey⟩

theorem Progress.resendsAll (hwin : WindowsInRange cfg s)
    (h : Progress cfg now s t ((List.range cfg.nNode).flatMap s.scannedKeys) moved)
    (hall : AllResent cfg now s t) : ResendsAll cfg now s := by
  have hdue : (dueEntries cfg s now).Perm moved := by
    have hparts := (perm_due_append cfg now s).trans h.table
    exact (List.perm_append_right_iff t.unacked).mp ((hall.table.append_left _).trans hparts)
  refine ⟨fun p hp => (h.due_of_moved hwin (hdue.mem_iff.mp hp)).2, ?_, ?_⟩
  · rw [(hdue.map key).nodup_iff, h.keys]
    exact h.nodup.filter _
  · obtain ⟨moved', hperm, hqueue, _⟩ := hall.queued
    have hlen := congrArg List.length h.rfQueue
    rw [hqueue, List.length_append, hperm.length_eq, hdue.length_eq] at hlen
    rw [hdue.length_eq]
    exact Fifo.length_foldl_push.mp hlen.symm

end

end VlcPath

open VlcPath

/-- Packet `j` of node 1 waits in the table since time 0; its window is `[unackedSeq, unschedSeq)`. -/
def waitingSince0 (unackedSeq unschedSeq : ℤ) (j : ℕ) : VlcPath :=
  { initialVlcPath with
    unackedSeq := fun _ => unackedSeq
    unschedSeq := fun _ => unschedSeq
    pktState := fun _ j' => if j' = j then .vlcUnacked else .unset
    unacked := [⟨0, j, ⟨1, 0, 74, UInt32.ofNat j, []⟩⟩] }

/-- A window that has wrapped around, with packet 0 in it: nothing is resent. -/
theorem wrapped_window_not_resent :
    WindowsInRange shipped (waitingSince0 499999 1 0) ∧
      ¬ ∃ t, (waitingSince0 499999 1 0).checkUnacked shipped ⟨9, 0⟩ = .ok t ∧
        AllResent shipped ⟨9, 0⟩ (waitingSince0 499999 1 0) t := by
  have hwin : WindowsInRange shipped (waitingSince0 499999 1 0) :=
    fun _ _ => by simp [waitingSince0, maxSeqNumber]
  refine ⟨hwin, ?_⟩
  rintro ⟨t, ht, hall⟩
  obtain ⟨u, hu, moved, hprogress⟩ := checkUnacked_progress ⟨9, 0⟩ hwin
  rw [hu] at ht
  cases ht
  have hwrap := (hprogress.resendsAll hwin hall).noWrap _ (mem_dueEntries.mpr ⟨List.mem_cons_self, by decide⟩)
  exact absurd hwrap (by decide)

/-- **When a timeout pass resends everything.** No packet that is due belongs to a node whose window has
wrapped around, the due packets are distinct, and `rf_queue` has room for all of them. -/
theorem allResent_iff (cfg : Config) (now : Timespec) (s : VlcPath) (hwin : WindowsInRange cfg s) :
    (∃ t, s.checkUnacked cfg now = .ok t ∧ AllResent cfg now s t) ↔ ResendsAll cfg now s := by
  obtain ⟨u, hu, moved, hprogress⟩ := checkUnacked_progress now hwin
  constructor
  · rintro ⟨t, ht, hall⟩
    rw [hu] at ht
    cases ht
    exact hprogress.resendsAll hwin hall
  · exact fun hgood => ⟨u, hu, hprogress.allResent hwin hgood⟩

/-- Packets 0, 1 and 2 of node 1 wait in the table; the timer of packet 1 runs until second 20. -/
def threeWaiting : VlcPath :=
  let entry j : Parcel := ⟨0, j, ⟨1, 0, 74, UInt32.ofNat j, []⟩⟩
  { initialVlcPath with
    unschedSeq := fun _ => 3
    pktState := fun _ j => if j < 3 then .vlcUnacked else .unset
    expireTime := fun _ j => if j = 1 then ⟨20, 0⟩ else ⟨0, 0⟩
    unacked := [entry 0, entry 1, entry 2] }

/-- A pass at second 9 resends packets 0 and 2, and leaves packet 1 in the table. -/
theorem allResent_iff_three_waiting :
    ∃ t, threeWaiting.checkUnacked shipped ⟨9, 0⟩ = .ok t ∧ AllResent shipped ⟨9, 0⟩ threeWaiting t ∧
      (dueEntries shipped threeWaiting ⟨9, 0⟩).map key = [(1, 0), (1, 2)] := by
  have hwin : WindowsInRange shipped threeWaiting :=
    fun _ _ => by simp [threeWaiting, initialVlcPath, maxSeqNumber]
  obtain ⟨t, ht, hall⟩ := (allResent_iff shipped ⟨9, 0⟩ threeWaiting hwin).mpr
    ⟨by decide, by decide, by decide⟩
  exact ⟨t, ht, hall, by decide⟩

end CiotVlc.Gateway
