import Mathlib.Data.List.Dedup
import CiotVlc.Foundations.Checked

/-! # The set of scheduled transmitters as a bit mask

`generate_m` sets one bit for each transmitter, `is_k_in_sn` tests one, and the loop of the program in
`m_value_generation` lists them. All work on an `int`, and the two readers test its sign, so the ids stay
below 32. The loop writes into an array of `max_vlc` cells: it is right for as many distinct ids, and
leaves the array with one more.
-/
namespace CiotVlc.Gateway
open Foundations.Checked
set_option autoImplicit false

/-! ## The code -/

def generateM (vlcIds : List ℕ) : BitVec 32 :=
  vlcIds.foldl (fun retval vlcId => retval ||| 1#32 <<< (vlcId - 1)) 0#32

def isKInSn (vlcId : ℕ) (sn : BitVec 32) : ℤ :=
  if sn.toInt ≤ 0 then 0
  else if (1#32 <<< (vlcId - 1) &&& sn).toInt > 0 then 1 else 0

/-- `max_vlc` -/
def maxVlc : ℕ := 4

/-- `k[n_k] = temp_id` in an array of `size` cells, of which `k` lists the first `n_k`. -/
def addId (size : ℕ) (k : List ℕ) (tempId : ℕ) : Except Fault (List ℕ) :=
  if k.length < size then .ok (k ++ [tempId]) else .error (.outOfBounds k.length)

/-- At most `fuel` turns of `while (sn > 0)`; `none` when they were not enough. -/
def decodeLoop (size : ℕ) : (fuel : ℕ) → (sn : BitVec 32) → (tempId : ℕ) → (k : List ℕ) →
    Option (Except Fault (List ℕ))
  | 0, _, _, _ => none
  | fuel + 1, sn, tempId, k =>
    if sn.toInt > 0 then
      match if (sn &&& 1#32).toInt > 0 then addId size k tempId else .ok k with
      | .error f => some (.error f)
      | .ok k => decodeLoop size fuel (sn.sshiftRight 1) (tempId + 1) k
    else some (.ok k)

/-! ## Bits and signs -/

theorem toInt_pos_iff {x : BitVec 32} (hsign : x.msb = false) :
    x.toInt > 0 ↔ ∃ j < 32, x.getLsbD j = true := by
  rw [BitVec.toInt_eq_toNat_of_msb hsign]
  constructor
  · intro hpos
    by_contra hnone
    have hzero : x = 0#32 := by
      apply BitVec.eq_of_getLsbD_eq
      intro j hj
      simpa using fun hbit => hnone ⟨j, hj, hbit⟩
    subst hzero
    simp at hpos
  · rintro ⟨j, -, hbit⟩
    by_contra hle
    have hzero : x = 0#32 := by
      apply BitVec.eq_of_toNat_eq
      simp only [BitVec.toNat_ofNat]
      omega
    subst hzero
    simp at hbit

theorem getLsbD_foldl (vlcIds : List ℕ) (retval : BitVec 32) {j : ℕ} (hj : j < 32) :
    (vlcIds.foldl (fun retval vlcId => retval ||| 1#32 <<< (vlcId - 1)) retval).getLsbD j = true ↔
      retval.getLsbD j = true ∨ ∃ vlcId ∈ vlcIds, vlcId - 1 = j := by
  induction vlcIds generalizing retval with
  | nil => simp
  | cons vlcId vlcIds ih =>
    have hone : (1#32 <<< (vlcId - 1)).getLsbD j = true ↔ vlcId - 1 = j := by
      simp [hj]
      omega
    rw [List.foldl_cons, ih, BitVec.getLsbD_or, Bool.or_eq_true, hone]
    simp [or_assoc]

/-- Bit `j` is that of transmitter `j + 1`. -/
theorem getLsbD_generateM {vlcIds : List ℕ} (hids : ∀ vlcId ∈ vlcIds, 1 ≤ vlcId ∧ vlcId ≤ 31) {j : ℕ} :
    (generateM vlcIds).getLsbD j = true ↔ j + 1 ∈ vlcIds := by
  by_cases hj : j < 32
  · rw [generateM, getLsbD_foldl vlcIds _ hj]
    constructor
    · rintro (h | ⟨vlcId, hmem, heq⟩)
      · simp at h
      · have hpos := (hids vlcId hmem).1
        rwa [← heq, Nat.sub_add_cancel hpos]
    · intro hmem
      exact Or.inr ⟨j + 1, hmem, rfl⟩
  · rw [BitVec.getLsbD_of_ge _ _ (by omega)]
    refine iff_of_false (by simp) fun hmem => ?_
    have hle := (hids (j + 1) hmem).2
    omega

theorem msb_generateM {vlcIds : List ℕ} (hids : ∀ vlcId ∈ vlcIds, 1 ≤ vlcId ∧ vlcId ≤ 31) :
    (generateM vlcIds).msb = false := by
  rw [BitVec.msb_eq_getLsbD_last, ← Bool.not_eq_true, getLsbD_generateM hids]
  intro hmem
  have hle := (hids _ hmem).2
  omega

/-! ## Membership -/

theorem isKInSn_eq_one_iff {sn : BitVec 32} (hsign : sn.msb = false) {k : ℕ} (hk : 1 ≤ k ∧ k ≤ 31) :
    isKInSn k sn = 1 ↔ sn.getLsbD (k - 1) = true := by
  have hbits : ∀ j < 32, (1#32 <<< (k - 1) &&& sn).getLsbD j = true ↔ k - 1 = j ∧ sn.getLsbD j = true := by
    intro j hj
    simp [hj]
    omega
  have hpos : (1#32 <<< (k - 1) &&& sn).toInt > 0 ↔ sn.getLsbD (k - 1) = true := by
    rw [toInt_pos_iff (by simp [BitVec.msb_and, hsign])]
    constructor
    · rintro ⟨j, hj, hbit⟩
      obtain ⟨rfl, hsn⟩ := (hbits j hj).mp hbit
      exact hsn
    · intro hbit
      exact ⟨k - 1, by omega, (hbits _ (by omega)).mpr ⟨rfl, hbit⟩⟩
  unfold isKInSn
  by_cases hsn : sn.toInt ≤ 0
  · rw [if_pos hsn]
    refine iff_of_false (by decide) fun hbit => ?_
    have := (toInt_pos_iff hsign).mpr ⟨k - 1, by omega, hbit⟩
    omega
  · rw [if_neg hsn]
    by_cases hin : (1#32 <<< (k - 1) &&& sn).toInt > 0
    · rw [if_pos hin]
      exact iff_of_true rfl (hpos.mp hin)
    · rw [if_neg hin]
      exact iff_of_false (by decide) fun hbit => hin (hpos.mpr hbit)

/-! ## Decoding -/

/-- The ids of the first `n` bits that are set, if bit 0 is that of `tempId`. -/
def setIds (sn : BitVec 32) (tempId n : ℕ) : List ℕ :=
  ((List.range n).filter fun j => sn.getLsbD j).map (tempId + ·)

theorem getLsbD_halved {sn : BitVec 32} (hsign : sn.msb = false) (j : ℕ) :
    (sn.sshiftRight 1).getLsbD j = sn.getLsbD (j + 1) := by
  rw [BitVec.getLsbD_sshiftRight, hsign, Nat.add_comm]
  by_cases hj : j + 1 < 32
  · simp [hj]
    omega
  · simp [hj, BitVec.getLsbD_of_ge _ _ (not_lt.mp hj)]

theorem setIds_succ {sn : BitVec 32} (hsign : sn.msb = false) (tempId n : ℕ) :
    setIds sn tempId (n + 1) =
      (if sn.getLsbD 0 = true then [tempId] else []) ++ setIds (sn.sshiftRight 1) (tempId + 1) n := by
  have hrest : ((List.range n).map Nat.succ).filter (fun j => sn.getLsbD j) =
      ((List.range n).filter fun j => (sn.sshiftRight 1).getLsbD j).map Nat.succ := by
    rw [List.filter_map]
    congr 1
    apply List.filter_congr
    intro j _
    exact (getLsbD_halved hsign j).symm
  have hshift : (fun j => tempId + j) ∘ Nat.succ = fun j => tempId + 1 + j := by
    funext j
    simp only [Function.comp_apply]
    omega
  rw [setIds, List.range_succ_eq_map, List.filter_cons, hrest]
  split
  · rw [List.map_cons, List.map_map, hshift]
    rfl
  · rw [List.map_map, hshift]
    rfl

theorem setIds_eq_nil {sn : BitVec 32} (hnone : ∀ j < 32, ¬ sn.getLsbD j = true) (tempId n : ℕ) :
    setIds sn tempId n = [] := by
  rw [setIds, List.map_eq_nil_iff, List.filter_eq_nil_iff]
  intro j _ hbit
  by_cases hj : j < 32
  · exact hnone j hj hbit
  · rw [BitVec.getLsbD_of_ge _ _ (not_lt.mp hj)] at hbit
    cases hbit

/-- **The loop ends after as many turns as there are bits**, with the ids in their order, or where the
array ends. -/
theorem decodeLoop_eq (size : ℕ) {fuel n : ℕ} {sn : BitVec 32} {tempId : ℕ} {k : List ℕ} (hfuel : n < fuel)
    (hsign : sn.msb = false) (hhigh : ∀ j, n ≤ j → sn.getLsbD j = false) (hk : k.length ≤ size) :
    decodeLoop size fuel sn tempId k =
      some (if k.length + (setIds sn tempId n).length ≤ size then .ok (k ++ setIds sn tempId n)
        else .error (.outOfBounds size)) := by
  induction fuel generalizing n sn tempId k with
  | zero => exact absurd hfuel (Nat.not_lt_zero n)
  | succ fuel ih =>
    rw [decodeLoop]
    by_cases hpos : sn.toInt > 0
    · rw [if_pos hpos]
      obtain ⟨j, -, hbit⟩ := (toInt_pos_iff hsign).mp hpos
      obtain ⟨n, rfl⟩ : ∃ m, n = m + 1 := by
        cases n with
        | zero => exact absurd hbit (by simp [hhigh j (Nat.zero_le j)])
        | succ m => exact ⟨m, rfl⟩
      have hlow : (sn &&& 1#32).toInt > 0 ↔ sn.getLsbD 0 = true := by
        rw [toInt_pos_iff (by simp [BitVec.msb_and, hsign])]
        constructor
        · rintro ⟨i, hi, hand⟩
          simp at hand
          obtain ⟨hsn, rfl⟩ := hand
          exact hsn
        · intro h0
          exact ⟨0, by decide, by simpa using h0⟩
      have hsign' : (sn.sshiftRight 1).msb = false := by
        rw [BitVec.msb_eq_getLsbD_last, getLsbD_halved hsign]
        exact BitVec.getLsbD_of_ge _ _ (by decide)
      have hhigh' : ∀ i, n ≤ i → (sn.sshiftRight 1).getLsbD i = false := by
        intro i hi
        rw [getLsbD_halved hsign]
        exact hhigh (i + 1) (by omega)
      rw [setIds_succ hsign]
      by_cases h0 : sn.getLsbD 0 = true
      · rw [if_pos (hlow.mpr h0), if_pos h0, addId]
        by_cases hroom : k.length < size
        · rw [if_pos hroom]
          dsimp only
          rw [ih (by omega) hsign' hhigh' (by rw [List.length_append]; exact hroom), List.append_assoc]
          rw [List.length_append, List.length_append, Nat.add_assoc]
        · rw [if_neg hroom, if_neg (by simp; omega)]
          have hfull : k.length = size := by omega
          rw [hfull]
      · rw [if_neg (fun h => h0 (hlow.mp h)), if_neg h0]
        dsimp only
        rw [ih (by omega) hsign' hhigh' hk]
        rfl
    · have hnone : ∀ j < 32, ¬ sn.getLsbD j = true := fun j hj hbit => hpos ((toInt_pos_iff hsign).mpr ⟨j, hj, hbit⟩)
      rw [if_neg hpos, setIds_eq_nil hnone, List.length_nil, Nat.add_zero, if_pos hk, List.append_nil]

theorem mem_setIds {sn : BitVec 32} {n i : ℕ} : i ∈ setIds sn 1 n ↔ ∃ j < n, sn.getLsbD j = true ∧ 1 + j = i := by
  simp [setIds, and_assoc]

theorem setIds_increasing (sn : BitVec 32) (tempId n : ℕ) : (setIds sn tempId n).Pairwise (· < ·) := by
  rw [setIds, List.pairwise_map]
  apply (List.pairwise_lt_range.filter _).imp
  intro a b hab
  omega

/-- Listed in increasing order, the ids of a mask are those it was made of. -/
theorem mem_setIds_generateM {vlcIds : List ℕ} (hids : ∀ vlcId ∈ vlcIds, 1 ≤ vlcId ∧ vlcId ≤ 31) {i : ℕ} :
    i ∈ setIds (generateM vlcIds) 1 31 ↔ i ∈ vlcIds := by
  rw [mem_setIds]
  constructor
  · rintro ⟨j, -, hbit, rfl⟩
    rw [Nat.add_comm]
    exact (getLsbD_generateM hids).mp hbit
  · intro hmem
    obtain ⟨h1, h31⟩ := hids i hmem
    refine ⟨i - 1, by omega, ?_, by omega⟩
    rw [getLsbD_generateM hids, Nat.sub_add_cancel h1]
    exact hmem

theorem length_of_increasing {r vlcIds : List ℕ} (hr : r.Pairwise (· < ·)) (hmem : ∀ i, i ∈ r ↔ i ∈ vlcIds) :
    r.length = vlcIds.dedup.length := by
  have hnodup : r.Nodup := hr.imp fun h => h.ne
  apply List.Perm.length_eq
  apply (List.perm_ext_iff_of_nodup hnodup vlcIds.nodup_dedup).mpr
  intro i
  rw [hmem, List.mem_dedup]

/-- **The mask tells which ids it was made of, and the loop lists them**, each once and in increasing order,
if its array has room for the distinct ones. -/
theorem targetMask_roundTrip (vlcIds : List ℕ) (hids : ∀ vlcId ∈ vlcIds, 1 ≤ vlcId ∧ vlcId ≤ 31) :
    (∀ k, 1 ≤ k → k ≤ 31 → (isKInSn k (generateM vlcIds) = 1 ↔ k ∈ vlcIds)) ∧
    ∃ r, r.Pairwise (· < ·) ∧ (∀ i, i ∈ r ↔ i ∈ vlcIds) ∧
      decodeLoop maxVlc 32 (generateM vlcIds) 1 [] =
        some (if vlcIds.dedup.length ≤ maxVlc then .ok r else .error (.outOfBounds maxVlc)) := by
  have hsign := msb_generateM hids
  constructor
  · intro k h1 h31
    rw [isKInSn_eq_one_iff hsign ⟨h1, h31⟩, getLsbD_generateM hids, Nat.sub_add_cancel h1]
  · have hsorted := setIds_increasing (generateM vlcIds) 1 31
    have hmem : ∀ i, i ∈ setIds (generateM vlcIds) 1 31 ↔ i ∈ vlcIds := fun i => mem_setIds_generateM hids
    have hhigh : ∀ j, 31 ≤ j → (generateM vlcIds).getLsbD j = false := by
      intro j hj
      rw [← Bool.not_eq_true, getLsbD_generateM hids]
      intro hin
      have hle := (hids _ hin).2
      omega
    refine ⟨setIds (generateM vlcIds) 1 31, hsorted, hmem, ?_⟩
    rw [decodeLoop_eq maxVlc (by decide) hsign hhigh (Nat.zero_le _), List.length_nil, Nat.zero_add,
      length_of_increasing hsorted hmem, List.nil_append]

theorem targetMask_roundTrip_repeated :
    (∀ k, 1 ≤ k → k ≤ 31 → (isKInSn k (generateM [31, 2, 31]) = 1 ↔ k ∈ [31, 2, 31])) ∧
    ∃ r, r.Pairwise (· < ·) ∧ (∀ i, i ∈ r ↔ i ∈ [31, 2, 31]) ∧
      decodeLoop maxVlc 32 (generateM [31, 2, 31]) 1 [] =
        some (if [31, 2, 31].dedup.length ≤ maxVlc then .ok r else .error (.outOfBounds maxVlc)) :=
  targetMask_roundTrip [31, 2, 31] (by simp)

theorem decodeLoop_five_ids :
    decodeLoop maxVlc 32 (generateM [1, 2, 3, 4, 5]) 1 [] = some (.error (.outOfBounds 4)) := by
  decide +kernel

end CiotVlc.Gateway
