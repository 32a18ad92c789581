import Mathlib.Algebra.Order.Floor.Ring
import Mathlib.Data.Rat.Floor
import Mathlib.Tactic.Linarith
import CiotVlc.Foundations.Runs
import CiotVlc.Gateway.ReceiveReport
import CiotVlc.Node.ReceiveVlc

/-! # Link quality

The node smooths, for each transmitter, whether a frame came from it in the last period; a report carries
the result in one byte, and the gateway takes the complement as the error probability. The loop of
`vlc_quality_measurement` clears the flags of all transmitters in its first turn, so a frame from any but
the first one is forgotten (`linkQuality_exact_iff`). The values stay in range in any case.
-/
namespace CiotVlc.Links
open Foundations.Checked Foundations.Runs CiotVlc.Gateway CiotVlc.Node CiotVlc.Report
set_option autoImplicit false

/-! ## The node, for any number of transmitters -/

/-- `Frame_Rx[vlc_id - 1] = 1`, for the id of one of `n` transmitters. -/
def markFrameOf (n : ℕ) (frameRx : ℕ → ℤ) (vlcId : UInt16) : Except Fault (ℕ → ℤ) :=
  if 0 < vlcId ∧ vlcId.toNat ≤ n then writeCell n frameRx (vlcId.toNat - 1 : ℕ) 1 else .ok frameRx

/-- What `receive_vlc` does to `Frame_Rx` for a packet of an accepted length. -/
def recordFrameOf (n : ℕ) (frameRx : ℕ → ℤ) (arrived : NodePacket) : Except Fault (ℕ → ℤ) :=
  if arrived.nodeId = selfId ∨ arrived.nodeId = dummyPacketNodeId ∨ arrived.nodeId = rsErrorId then
    markFrameOf n frameRx arrived.vlcId
  else .ok frameRx

theorem markFrame_eq (frameRx : ℕ → ℤ) (vlcId : UInt16) :
    markFrame frameRx vlcId = markFrameOf Node.nVlc frameRx vlcId := rfl

/-- The whole receiver does this to `Frame_Rx`. -/
theorem acceptPacket_frameRx {receiver receiver' : VlcReceiver} {arrived : NodePacket} {packet : Option NodePacket}
    (h : acceptPacket receiver arrived = .ok (packet, receiver')) :
    recordFrameOf Node.nVlc receiver.frameRx arrived = .ok receiver'.frameRx := by
  unfold acceptPacket at h
  unfold recordFrameOf
  split at h
  · next hid =>
    obtain ⟨frameRx, hmark, h⟩ := bind_eq_ok.mp h
    rw [if_pos hid, ← markFrame_eq, hmark]
    dsimp only at h
    split at h
    · obtain ⟨⟨queued, counted⟩, hcount, h⟩ := bind_eq_ok.mp h
      cases h
      unfold countErrors at hcount
      split at hcount
      · obtain ⟨bytes, -, hcount⟩ := bind_eq_ok.mp hcount
        cases hcount
        dsimp only
        split <;> rfl
      · cases hcount
        rfl
    · cases h
      rfl
  · next hid =>
    rw [if_neg hid]
    cases h
    rfl

/-- One turn of the loop: `memset` clears all flags. -/
def measureTurn (alpha : ℚ) (s : (ℕ → ℤ) × (ℕ → ℚ)) (i : ℕ) : (ℕ → ℤ) × (ℕ → ℚ) :=
  (fun _ => 0, Function.update s.2 i ((1 - alpha) * s.2 i + alpha * s.1 i))

/-- One pass of `vlc_quality_measurement` over `Frame_Rx` and `VLC_LQ`. -/
def measureQuality (n : ℕ) (alpha : ℚ) (frameRx : ℕ → ℤ) (vlcLq : ℕ → ℚ) : (ℕ → ℤ) × (ℕ → ℚ) :=
  (List.range n).foldl (measureTurn alpha) (frameRx, vlcLq)

/-- The conversion of a `double` to an `int`: towards zero. -/
def truncate (x : ℚ) : ℤ := if 0 ≤ x then ⌊x⌋ else ⌈x⌉

/-- `in_255_range` -/
def in255Range (vlcLq : ℚ) : ℤ := truncate (vlcLq * 255)

/-- The byte that `send_report` writes. -/
def qualityByte (vlcLq : ℚ) : UInt8 := UInt8.ofInt (in255Range vlcLq)

/-! ## The gateway -/

/-- What `receive_report` makes of the byte. -/
def errorOf (quality : UInt8) : ℚ := 1 - ((quality.toNat : ℤ) : ℚ) / 255

theorem applyLinkQuality_single {cfg : Config} {node k : ℕ} (hk : k < cfg.nVlc) (quality : UInt8)
    (e : ℕ → ℕ → ℚ) :
    applyLinkQuality cfg node [⟨k + 1, quality.toNat⟩] e =
      .ok (Function.update e k (Function.update (e k) node (errorOf quality))) := by
  have hidx : ((k : ℤ) + 1 - 1) = (k : ℤ) := by omega
  simp only [applyLinkQuality, hidx, readCell_ok e hk, ok_bind, writeCell_ok e _ hk]
  rfl

/-! ## One pass -/

theorem measureQuality_eq (n : ℕ) (alpha : ℚ) (frameRx : ℕ → ℤ) (vlcLq : ℕ → ℚ) :
    measureQuality n alpha frameRx vlcLq = (if n = 0 then frameRx else fun _ => 0, fun k =>
      if k < n then (1 - alpha) * vlcLq k + alpha * (if k = 0 then (frameRx 0 : ℚ) else 0) else vlcLq k) := by
  induction n with
  | zero => simp [measureQuality]
  | succ n ih =>
    rw [measureQuality, List.range_succ, List.foldl_append, ← measureQuality, ih, List.foldl_cons, List.foldl_nil,
      measureTurn, if_neg (Nat.succ_ne_zero n)]
    congr 1
    funext k
    by_cases hk : k = n
    · subst hk
      rw [Function.update_self]
      dsimp only
      rw [if_neg (lt_irrefl k), if_pos (Nat.lt_succ_self k)]
      by_cases h0 : k = 0
      · subst h0
        simp
      · simp [h0]
    · rw [Function.update_of_ne hk]
      dsimp only
      by_cases hlt : k < n
      · have hlt' : k < n + 1 := by omega
        rw [if_pos hlt, if_pos hlt']
      · rw [if_neg hlt, if_neg (by omega)]

/-! ## Values in range -/

theorem in255Range_eq {x : ℚ} (h0 : 0 ≤ x) : in255Range x = ⌊x * 255⌋ := by
  rw [in255Range, truncate, if_pos (by linarith)]

theorem in255Range_bounds {x : ℚ} (h0 : 0 ≤ x) (h1 : x ≤ 1) : 0 ≤ in255Range x ∧ in255Range x ≤ 255 := by
  rw [in255Range_eq h0]
  constructor
  · apply Int.floor_nonneg.mpr
    linarith
  · apply Int.floor_le_iff.mpr
    push_cast
    linarith

/-- The byte is the value itself: nothing is cut off. -/
theorem qualityByte_toNat {x : ℚ} (h0 : 0 ≤ x) (h1 : x ≤ 1) : ((qualityByte x).toNat : ℤ) = in255Range x := by
  obtain ⟨hnonneg, hle⟩ := in255Range_bounds h0 h1
  rw [qualityByte, UInt8.ofInt, UInt8.toNat_ofNat']
  omega

theorem errorOf_qualityByte {x : ℚ} (h0 : 0 ≤ x) (h1 : x ≤ 1) :
    0 ≤ errorOf (qualityByte x) ∧ errorOf (qualityByte x) ≤ 1 ∧
      |errorOf (qualityByte x) - (1 - x)| ≤ 1 / 255 := by
  obtain ⟨hnonneg, hle⟩ := in255Range_bounds h0 h1
  rw [errorOf, qualityByte_toNat h0 h1]
  have hlow : (0 : ℚ) ≤ (in255Range x : ℚ) := by exact_mod_cast hnonneg
  have hhigh : (in255Range x : ℚ) ≤ 255 := by exact_mod_cast hle
  have hfloor : (in255Range x : ℚ) ≤ x * 255 := by
    rw [in255Range_eq h0]
    exact Int.floor_le _
  have hnear : x * 255 < (in255Range x : ℚ) + 1 := by
    rw [in255Range_eq h0]
    exact Int.lt_floor_add_one _
  refine ⟨by linarith, by linarith, ?_⟩
  rw [abs_le]
  constructor <;> linarith

/-- A weighted mean of two values in [0, 1] is one. -/
theorem smoothed_mem {alpha x f : ℚ} (h0 : 0 ≤ alpha) (h1 : alpha ≤ 1) (hx : 0 ≤ x ∧ x ≤ 1)
    (hf : 0 ≤ f ∧ f ≤ 1) : 0 ≤ (1 - alpha) * x + alpha * f ∧ (1 - alpha) * x + alpha * f ≤ 1 := by
  constructor
  · nlinarith [mul_nonneg (sub_nonneg.mpr h1) hx.1, mul_nonneg h0 hf.1]
  · nlinarith [mul_nonneg (sub_nonneg.mpr h1) (sub_nonneg.mpr hx.2), mul_nonneg h0 (sub_nonneg.mpr hf.2)]

/-! ## Receptions and passes -/

/-- `recorded k` is a history: whether a frame from transmitter `k + 1` was recorded since the last pass. -/
structure QualitySystem where
  frameRx : ℕ → ℤ
  vlcLq : ℕ → ℚ
  recorded : ℕ → Bool

def initialQuality : QualitySystem where
  frameRx := fun _ => 0
  vlcLq := fun _ => 0
  recorded := fun _ => false

inductive QualityAction
  | receive (arrived : NodePacket)
  | measure

/-- Whether the packet counts as a frame from transmitter `k + 1`. -/
def recordsFrom (n : ℕ) (arrived : NodePacket) (k : ℕ) : Bool :=
  (arrived.nodeId = selfId ∨ arrived.nodeId = dummyPacketNodeId ∨ arrived.nodeId = rsErrorId) ∧
    arrived.vlcId.toNat = k + 1 ∧ k < n

def qualityStep (n : ℕ) (alpha : ℚ) (s : QualitySystem) : QualityAction → Option QualitySystem
  | .receive arrived =>
    match recordFrameOf n s.frameRx arrived with
    | .ok frameRx => some { s with frameRx, recorded := fun k => s.recorded k || recordsFrom n arrived k }
    | .error _ => none
  | .measure =>
    let measured := measureQuality n alpha s.frameRx s.vlcLq
    some { frameRx := measured.1, vlcLq := measured.2, recorded := fun _ => false }

/-- The flags say which frames were recorded, and the qualities are in [0, 1]. -/
structure QualityInv (n : ℕ) (s : QualitySystem) : Prop where
  flag : ∀ k < n, s.frameRx k = if s.recorded k then 1 else 0
  unit : ∀ k < n, 0 ≤ s.vlcLq k ∧ s.vlcLq k ≤ 1

theorem qualityInv_initial (n : ℕ) : QualityInv n initialQuality where
  flag := fun _ _ => rfl
  unit := fun _ _ => ⟨le_rfl, zero_le_one⟩

section
variable {n : ℕ} {alpha : ℚ} {s t : QualitySystem}

theorem recordFrameOf_eq (frameRx : ℕ → ℤ) (arrived : NodePacket) :
    recordFrameOf n frameRx arrived = .ok fun k => if recordsFrom n arrived k then 1 else frameRx k := by
  unfold recordFrameOf markFrameOf
  by_cases hid : arrived.nodeId = selfId ∨ arrived.nodeId = dummyPacketNodeId ∨ arrived.nodeId = rsErrorId
  · rw [if_pos hid]
    by_cases hvlc : 0 < arrived.vlcId ∧ arrived.vlcId.toNat ≤ n
    · have hpos : 0 < arrived.vlcId.toNat := UInt16.lt_iff_toNat_lt.mp hvlc.1
      rw [if_pos hvlc, writeCell_ok _ _ (by omega)]
      congr 1
      funext k
      by_cases hk : k = arrived.vlcId.toNat - 1
      · rw [hk, Function.update_self, if_pos]
        simp only [recordsFrom, decide_eq_true_eq]
        exact ⟨hid, by omega, by omega⟩
      · rw [Function.update_of_ne hk, if_neg]
        simp only [recordsFrom, decide_eq_true_eq]
        rintro ⟨-, hsame, -⟩
        omega
    · rw [if_neg hvlc]
      congr 1
      funext k
      rw [if_neg]
      simp only [recordsFrom, decide_eq_true_eq]
      rintro ⟨-, hsame, hk⟩
      exact hvlc ⟨UInt16.lt_iff_toNat_lt.mpr (by simp; omega), by omega⟩
  · rw [if_neg hid]
    congr 1
    funext k
    rw [if_neg]
    simp only [recordsFrom, decide_eq_true_eq]
    exact fun h => hid h.1

/-- What a pass sets, in terms of what was recorded. -/
theorem measure_vlcLq (h : QualityInv n s) (hstep : qualityStep n alpha s .measure = some t) {k : ℕ} (hk : k < n) :
    t.vlcLq k = (1 - alpha) * s.vlcLq k + alpha * if k = 0 ∧ s.recorded k = true then 1 else 0 := by
  cases hstep
  rw [measureQuality_eq]
  dsimp only
  rw [if_pos hk]
  by_cases h0 : k = 0
  · subst h0
    rw [if_pos rfl, h.flag 0 hk]
    by_cases hrec : s.recorded 0 = true
    · simp [hrec]
    · simp [hrec]
  · rw [if_neg h0, if_neg fun hboth => h0 hboth.1]

theorem qualityInv_step {a : QualityAction} (h0 : 0 ≤ alpha) (h1 : alpha ≤ 1) (h : QualityInv n s)
    (hstep : qualityStep n alpha s a = some t) : QualityInv n t := by
  cases a with
  | receive arrived =>
    simp only [qualityStep, recordFrameOf_eq] at hstep
    cases hstep
    refine ⟨fun k hk => ?_, h.unit⟩
    dsimp only
    rw [h.flag k hk]
    by_cases hrec : recordsFrom n arrived k = true
    · simp [hrec]
    · simp [hrec]
  | measure =>
    constructor
    · intro k hk
      cases hstep
      rw [measureQuality_eq]
      dsimp only
      rw [if_neg (by omega)]
      rfl
    · intro k hk
      rw [measure_vlcLq h hstep hk]
      apply smoothed_mem h0 h1 (h.unit k hk)
      split
      · exact ⟨zero_le_one, le_rfl⟩
      · exact ⟨le_rfl, zero_le_one⟩

end

/-! ## When the passes are exact -/

/-- A pass sets every quality to its smoothed value. -/
def PassExact (n : ℕ) (alpha : ℚ) (s : QualitySystem) : QualityAction → Prop
  | .measure => ∀ t, qualityStep n alpha s .measure = some t → ∀ k < n,
      t.vlcLq k = (1 - alpha) * s.vlcLq k + alpha * if s.recorded k then 1 else 0
  | .receive _ => True

/-- A pass comes when no frame was recorded but those of the first transmitter; or frames do not matter. -/
def OnlyFirstHeard (n : ℕ) (alpha : ℚ) (s : QualitySystem) : QualityAction → Prop
  | .measure => alpha = 0 ∨ ∀ k < n, 0 < k → s.recorded k = false
  | .receive _ => True

/-- The qualities, their bytes, and what the gateway makes of them. -/
def QualityInRange (n : ℕ) (s : QualitySystem) : Prop :=
  ∀ k < n, 0 ≤ s.vlcLq k ∧ s.vlcLq k ≤ 1 ∧ in255Range (s.vlcLq k) ≤ 255 ∧
    0 ≤ errorOf (qualityByte (s.vlcLq k)) ∧ errorOf (qualityByte (s.vlcLq k)) ≤ 1 ∧
    |errorOf (qualityByte (s.vlcLq k)) - (1 - s.vlcLq k)| ≤ 1 / 255

theorem passExact_iff {n : ℕ} {alpha : ℚ} {s : QualitySystem} (h : QualityInv n s) (a : QualityAction) :
    PassExact n alpha s a ↔ OnlyFirstHeard n alpha s a := by
  cases a with
  | receive arrived => exact Iff.rfl
  | measure =>
    obtain ⟨t, ht⟩ : ∃ t, qualityStep n alpha s .measure = some t := ⟨_, rfl⟩
    constructor
    · intro hexact
      by_cases hzero : alpha = 0
      · exact Or.inl hzero
      · refine Or.inr fun k hk hpos => ?_
        have hset := (measure_vlcLq h ht hk).symm.trans (hexact t ht k hk)
        rw [if_neg fun hboth => hpos.ne' hboth.1] at hset
        by_contra hrec
        rw [Bool.not_eq_false] at hrec
        rw [hrec, if_pos rfl] at hset
        apply hzero
        linarith
    · rintro hheard u hu k hk
      rw [measure_vlcLq h hu hk]
      obtain rfl | hfirst := hheard
      · rw [zero_mul, zero_mul]
      · by_cases h0 : k = 0
        · simp [h0]
        · rw [hfirst k hk (Nat.pos_of_ne_zero h0)]
          simp

theorem QualityInv.inRange {n : ℕ} {s : QualitySystem} (h : QualityInv n s) : QualityInRange n s := by
  intro k hk
  obtain ⟨h0, h1⟩ := h.unit k hk
  exact ⟨h0, h1, (in255Range_bounds h0 h1).2, errorOf_qualityByte h0 h1⟩

/-- **Every pass of a run is exact if and only if each comes when only the first transmitter was heard**; that
the values are in range holds in any case. -/
theorem linkQuality_exact_iff (n : ℕ) {alpha : ℚ} (h0 : 0 ≤ alpha) (h1 : alpha ≤ 1) (as : List QualityAction) :
    (EveryStep (qualityStep n alpha) initialQuality as (PassExact n alpha) ↔
      EveryStep (qualityStep n alpha) initialQuality as (OnlyFirstHeard n alpha)) ∧
    Always (qualityStep n alpha) initialQuality as (QualityInRange n) := by
  have hkeep : ∀ s a u, QualityInv n s → qualityStep n alpha s a = some u → QualityInv n u :=
    fun s a u h hstep => qualityInv_step h0 h1 h hstep
  constructor
  · apply everyStep_congr (qualityInv_initial n)
    · intro s a u h _ hstep
      exact hkeep s a u h hstep
    · intro s a h
      exact passExact_iff h a
  · intro bs s _ hs
    exact (hs.invariant (qualityInv_initial n) hkeep).inRange

def frameFrom (vlcId : UInt16) : NodePacket where
  nodeId := selfId
  vlcId
  payloadLen := 0
  seqNumber := 0
  data := []

theorem linkQuality_exact_first :
    let as := [.receive (frameFrom 1), .measure]
    (EveryStep (qualityStep 2 (1 / 20)) initialQuality as (PassExact 2 (1 / 20)) ↔
      EveryStep (qualityStep 2 (1 / 20)) initialQuality as (OnlyFirstHeard 2 (1 / 20))) ∧
    Always (qualityStep 2 (1 / 20)) initialQuality as (QualityInRange 2) :=
  linkQuality_exact_iff 2 (by norm_num) (by norm_num) _

/-- A frame from the second of two transmitters leaves its quality at 0. -/
theorem linkQuality_second_forgotten :
    (∃ t, Run (qualityStep 2 (1 / 20)) initialQuality [.receive (frameFrom 2), .measure] t ∧ t.vlcLq 1 = 0) ∧
    ¬ EveryStep (qualityStep 2 (1 / 20)) initialQuality [.receive (frameFrom 2), .measure]
      (PassExact 2 (1 / 20)) := by
  obtain ⟨s, hs⟩ : ∃ s, qualityStep 2 (1 / 20) initialQuality (.receive (frameFrom 2)) = some s := ⟨_, rfl⟩
  obtain ⟨t, ht⟩ : ∃ t, qualityStep 2 (1 / 20) s .measure = some t := ⟨_, rfl⟩
  have hinv : QualityInv 2 s := qualityInv_step (by norm_num) (by norm_num) (qualityInv_initial 2) hs
  have hrecorded : s.recorded 1 = true := by
    cases hs
    decide
  have hlq : t.vlcLq 1 = 0 := by
    rw [measure_vlcLq hinv ht (by decide)]
    cases hs
    simp [initialQuality]
  have hrun : Run (qualityStep 2 (1 / 20)) initialQuality [.receive (frameFrom 2)] s := Run.single hs
  refine ⟨⟨t, hrun.snoc ht, hlq⟩, fun h => ?_⟩
  have hexact := h [.receive (frameFrom 2)] .measure s List.prefix_rfl hrun
  obtain h0 | hfirst := (passExact_iff hinv .measure).mp hexact
  · norm_num at h0
  · exact absurd (hfirst 1 (by decide) Nat.one_pos) (by rw [hrecorded]; decide)

end CiotVlc.Links
