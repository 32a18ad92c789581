import CiotVlc.Codec.Locator

/-! # The roots of the error locator

The search tries the powers of the generator in turn. Each register holds one term of the polynomial at the
current power, and the location goes along: for each root it is the place of the symbol that is wrong.
-/
namespace CiotVlc.Codec
open Foundations.ShiftField Polynomial
set_option autoImplicit false

variable {rs : RsControl} {w : ShiftRegister} {p : (Symbol w)[X]}

/-! ## The degree -/

theorem degLambda_spec (hs : Sound rs w) {lambda : List ℕ} (hlog : LogForm w rs.nroots lambda p)
    (hone : p.coeff 0 = 1) (hdegree : p.natDegree ≤ rs.nroots) : degLambda rs lambda = p.natDegree := by
  have hzero : ∀ i ≤ rs.nroots, lambda.getD i 0 ≠ rs.nn ↔ p.coeff i ≠ 0 := by
    intro i hi
    rw [← (hlog.2 i hi).2, hs.nn_eq, Ne, Ne, ofLog_eq_zero_iff]
  -- After `k` coefficients it is the last one of them that is not zero.
  have hloop : ∀ k ≤ rs.nroots + 1, ∀ deg,
      (List.range k).foldl (fun deg i => if lambda.getD i 0 ≠ rs.nn then i else deg) 0 = deg →
      p.coeff deg ≠ 0 ∧ ∀ i < k, deg < i → p.coeff i = 0 := by
    intro k hk
    induction k with
    | zero =>
      rintro deg rfl
      refine ⟨?_, fun i hi => absurd hi (Nat.not_lt_zero i)⟩
      change p.coeff 0 ≠ 0
      rw [hone]
      exact one_ne_zero
    | succ k ih =>
      rintro deg rfl
      obtain ⟨hne, hrest⟩ := ih (by omega) _ rfl
      rw [List.range_succ, List.foldl_append, List.foldl_cons, List.foldl_nil]
      split
      · next h => exact ⟨(hzero k (by omega)).mp h, fun i hi hlt => absurd hi (by omega)⟩
      · next h =>
        refine ⟨hne, fun i hi hlt => ?_⟩
        by_cases hik : i = k
        · rw [hik]
          exact not_not.mp (mt (hzero k (by omega)).mpr h)
        · exact hrest i (by omega) hlt
  obtain ⟨hne, hrest⟩ := hloop (rs.nroots + 1) le_rfl _ rfl
  symm
  apply natDegree_eq_of_le_of_coeff_ne_zero _ hne
  apply natDegree_le_iff_coeff_eq_zero.mpr
  intro i hi
  by_cases hin : i < rs.nroots + 1
  · exact hrest i hin hi
  · exact coeff_eq_zero_of_natDegree_lt (by omega)

/-! ## The registers -/

/-- Register `j` holds the logarithm of the term of degree `j` at the power `i`. -/
def RegAt (rs : RsControl) (w : ShiftRegister) (p : (Symbol w)[X]) (reg : List ℕ) (i : ℕ) : Prop :=
  reg.length = rs.nroots + 1 ∧ ∀ j, 1 ≤ j → j ≤ p.natDegree →
    reg.getD j 0 ≤ w.order ∧ ofLog w (reg.getD j 0) = p.coeff j * (Symbol.alpha w ^ i) ^ j

theorem regAt_zero {lambda : List ℕ} (hlog : LogForm w rs.nroots lambda p) (hdegree : p.natDegree ≤ rs.nroots) :
    RegAt rs w p lambda 0 := by
  refine ⟨hlog.1, fun j _ hj => ?_⟩
  rw [pow_zero, one_pow, mul_one]
  exact hlog.2 j (by omega)

section
variable (hs : Sound rs w)
include hs

theorem chienAdvance_spec {reg : List ℕ} {i : ℕ} (hdegree : p.natDegree ≤ rs.nroots) (h : RegAt rs w p reg i) :
    RegAt rs w p (chienAdvance rs p.natDegree reg) (i + 1) := by
  obtain ⟨hlen, hterm⟩ := h
  refine ⟨by rw [chienAdvance, List.length_mapIdx, hlen], fun j h1 hj => ?_⟩
  obtain ⟨hle, hlog⟩ := hterm j h1 hj
  have hnext : p.coeff j * (Symbol.alpha w ^ (i + 1)) ^ j = ofLog w (reg.getD j 0) * Symbol.alpha w ^ j := by
    rw [hlog, pow_succ, mul_pow, mul_assoc]
  rw [chienAdvance, getD_mapIdx (by omega), hnext]
  by_cases hv : reg.getD j 0 = w.order
  · rw [if_neg (by rw [hs.nn_eq]; exact fun h => h.2.2 hv), hv, ofLog_order, zero_mul]
    exact ⟨le_rfl, rfl⟩
  · have hlt := modnn_lt hs (reg.getD j 0 + j)
    have hne : rs.modnn (reg.getD j 0 + j) ≠ w.order := by omega
    rw [if_pos ⟨h1, hj, by rwa [hs.nn_eq]⟩, ofLog_of_ne hne, ofLog_of_ne hv, alpha_pow_modnn hs, pow_add]
    exact ⟨Nat.le_of_lt hlt, rfl⟩

theorem alphaTo_lt {v : ℕ} (hv : v ≤ w.order) : rs.alphaTo.getD v 0 < 2 ^ w.bits := by
  rcases Nat.lt_or_eq_of_le hv with hlt | rfl
  · rw [hs.tables.alphaTo_power v hlt]
    exact ShiftRegister.power_lt v
  · rw [hs.tables.alphaTo_order]
    exact Nat.two_pow_pos _

theorem chienValue_spec {reg : List ℕ} {i : ℕ} (hone : p.coeff 0 = 1) (h : RegAt rs w p reg i) :
    chienValue rs p.natDegree reg = 0 ↔ p.eval (Symbol.alpha w ^ i) = 0 := by
  obtain ⟨-, hterm⟩ := h
  have hmem : ∀ j ∈ (List.range p.natDegree).reverse.map (· + 1), 1 ≤ j ∧ j ≤ p.natDegree := by
    intro j hj
    obtain ⟨k, hk, rfl⟩ := List.mem_map.mp hj
    have hk := List.mem_range.mp (List.mem_reverse.mp hk)
    exact ⟨by omega, by omega⟩
  have hvalue : ∀ j, 1 ≤ j → j ≤ p.natDegree →
      (if reg.getD j 0 ≠ rs.nn then rs.alphaTo.getD (reg.getD j 0) 0 else 0) = rs.alphaTo.getD (reg.getD j 0) 0 := by
    intro j h1 hj
    split
    · rfl
    · next hnn => rw [not_not.mp hnn, hs.nn_eq, hs.tables.alphaTo_order]
  have hlt : chienValue rs p.natDegree reg < 2 ^ w.bits := by
    apply Nat.xor_lt_two_pow (Nat.one_lt_two_pow (by have := w.bits_pos; omega))
    apply xorSum_lt
    intro j hj
    obtain ⟨h1, hj⟩ := hmem j hj
    rw [hvalue j h1 hj]
    exact alphaTo_lt hs (hterm j h1 hj).1
  rw [← Symbol.of_eq_zero_iff hlt, chienValue, Symbol.of_xor, of_xorSum, Symbol.of_one, List.map_map, List.map_reverse,
    List.sum_reverse, sum_map_range, eval_eq_sum_range, Finset.sum_range_succ', hone, pow_zero, mul_one, add_comm]
  have hsum : ∑ k ∈ Finset.range p.natDegree, ((fun j => Symbol.of w
      (if reg.getD j 0 ≠ rs.nn then rs.alphaTo.getD (reg.getD j 0) 0 else 0)) ∘ (· + 1)) k =
      ∑ k ∈ Finset.range p.natDegree, p.coeff (k + 1) * (Symbol.alpha w ^ i) ^ (k + 1) := by
    apply Finset.sum_congr rfl
    intro k hk
    have hk := Finset.mem_range.mp hk
    obtain ⟨hle, hlog⟩ := hterm (k + 1) (by omega) (by omega)
    rw [Function.comp_apply, hvalue (k + 1) (by omega) (by omega), hs.tables.of_alphaTo hle, hlog]
  rw [hsum]

end

/-! ## The search -/

/-- The location that goes with the power `i`. -/
def chienLoc (rs : RsControl) (i : ℕ) : ℕ := (i * rs.iprim + rs.nn - 1) % rs.nn

theorem chienLoc_one (hs : Sound rs w) : chienLoc rs 1 = rs.iprim - 1 := by
  have hpos := hs.iprim_pos
  have hle := hs.iprim_le
  rw [← hs.nn_eq] at hle
  rw [chienLoc, Nat.one_mul, show rs.iprim + rs.nn - 1 = rs.iprim - 1 + rs.nn by omega, Nat.add_mod_right,
    Nat.mod_eq_of_lt (by omega)]

theorem chienLoc_succ (hs : Sound rs w) (i : ℕ) : rs.modnn (chienLoc rs i + rs.iprim) = chienLoc rs (i + 1) := by
  have hpos := ShiftRegister.order_pos (w := w)
  have hmod : rs.modnn (chienLoc rs i + rs.iprim) = (chienLoc rs i + rs.iprim) % rs.nn := by
    rw [RsControl.modnn, hs.mm_eq, hs.nn_eq]
    exact rsModnn_eq w.bits_pos _
  rw [← hs.nn_eq] at hpos
  rw [hmod, chienLoc, chienLoc, Nat.mod_add_mod, Nat.succ_mul]
  congr 1
  omega

open Classical in
/-- The powers among these at which the polynomial vanishes. -/
noncomputable def rootsAmong (p : (Symbol w)[X]) (is : List ℕ) : List ℕ :=
  is.filter fun i => p.eval (Symbol.alpha w ^ i) = 0

/-- As long as no more roots are left than the degree allows, the search finds all of them. -/
theorem chienSearch_eq (hs : Sound rs w) (hone : p.coeff 0 = 1) (hdegree : p.natDegree ≤ rs.nroots) (len count : ℕ)
    {i : ℕ} {reg : List ℕ} (hreg : RegAt rs w p reg i)
    (hcount : count + (rootsAmong p ((List.range len).map (· + (i + 1)))).length ≤ p.natDegree) :
    chienSearch rs p.natDegree ((List.range len).map (· + (i + 1))) reg (chienLoc rs (i + 1)) count =
      (rootsAmong p ((List.range len).map (· + (i + 1)))).map fun j => (j, chienLoc rs j) := by
  induction len generalizing i count reg with
  | zero => rfl
  | succ len ih =>
    have hlist : (List.range (len + 1)).map (· + (i + 1)) = (i + 1) :: (List.range len).map (· + (i + 1 + 1)) := by
      rw [List.range_succ_eq_map, List.map_cons, List.map_map, Nat.zero_add]
      congr 1
      apply List.map_congr_left
      intro j _
      simp only [Function.comp_apply]
      omega
    have hreg' := chienAdvance_spec hs hdegree hreg
    have hvalue := chienValue_spec hs hone hreg'
    rw [hlist] at hcount ⊢
    rw [chienSearch, chienLoc_succ hs]
    rw [rootsAmong] at hcount ⊢
    by_cases hroot : p.eval (Symbol.alpha w ^ (i + 1)) = 0
    · rw [if_neg (not_not.mpr (hvalue.mpr hroot)), List.filter_cons_of_pos (by simpa using hroot), List.map_cons]
      rw [List.filter_cons_of_pos (by simpa using hroot), List.length_cons] at hcount
      rw [← rootsAmong] at hcount ⊢
      congr 1
      split
      · -- The last root: none is left after it.
        next hlast =>
        rw [List.eq_nil_of_length_eq_zero (l := rootsAmong p _) (by omega)]
        rfl
      · exact ih _ hreg' (by omega)
    · rw [if_pos (mt hvalue.mp hroot), List.filter_cons_of_neg (by simpa using hroot)]
      rw [List.filter_cons_of_neg (by simpa using hroot)] at hcount
      exact ih _ hreg' hcount

/-- The powers that the decoder tries. -/
def tried (rs : RsControl) : List ℕ := (List.range rs.nn).map (· + 1)

theorem mem_rootsAmong {is : List ℕ} {i : ℕ} :
    i ∈ rootsAmong p is ↔ i ∈ is ∧ p.eval (Symbol.alpha w ^ i) = 0 := by
  rw [rootsAmong, List.mem_filter, decide_eq_true_iff]

theorem mem_tried {i : ℕ} : i ∈ tried rs ↔ 1 ≤ i ∧ i ≤ rs.nn := by
  rw [tried, List.mem_map]
  constructor
  · rintro ⟨j, hj, rfl⟩
    have hj := List.mem_range.mp hj
    exact ⟨by omega, by omega⟩
  · rintro ⟨h1, hi⟩
    exact ⟨i - 1, List.mem_range.mpr (by omega), by omega⟩

theorem rootsAmong_tried_nodup : (rootsAmong p (tried rs)).Nodup := by
  apply List.Nodup.filter
  exact List.nodup_range.map fun a b h => Nat.succ_injective h

theorem alpha_pow_injOn_tried (hs : Sound rs w) {i j : ℕ} (hi : i ∈ tried rs) (hj : j ∈ tried rs)
    (h : Symbol.alpha w ^ i = Symbol.alpha w ^ j) : i = j := by
  have hi := mem_tried.mp hi
  have hj := mem_tried.mp hj
  rw [hs.nn_eq] at hi hj
  have hmod := Symbol.alpha_pow_eq_iff.mp h
  rcases Nat.lt_or_eq_of_le hi.2 with hlt | hlt <;> rcases Nat.lt_or_eq_of_le hj.2 with hlt' | hlt'
  · rwa [Nat.mod_eq_of_lt hlt, Nat.mod_eq_of_lt hlt'] at hmod
  · rw [Nat.mod_eq_of_lt hlt, hlt', Nat.mod_self] at hmod
    omega
  · rw [Nat.mod_eq_of_lt hlt', hlt, Nat.mod_self] at hmod
    omega
  · omega

theorem rootsAmong_tried_length_le (hs : Sound rs w) (hp : p ≠ 0) :
    (rootsAmong p (tried rs)).length ≤ p.natDegree := by
  classical
  have hcard : ((rootsAmong p (tried rs)).toFinset.image fun i => Symbol.alpha w ^ i).card =
      (rootsAmong p (tried rs)).length := by
    rw [Finset.card_image_of_injOn, List.toFinset_card_of_nodup rootsAmong_tried_nodup]
    intro i hi j hj h
    have hi := (mem_rootsAmong.mp (List.mem_toFinset.mp (Finset.mem_coe.mp hi))).1
    have hj := (mem_rootsAmong.mp (List.mem_toFinset.mp (Finset.mem_coe.mp hj))).1
    exact alpha_pow_injOn_tried hs hi hj h
  have hsub : ((rootsAmong p (tried rs)).toFinset.image fun i => Symbol.alpha w ^ i) ⊆ p.roots.toFinset := by
    intro z hz
    obtain ⟨i, hi, rfl⟩ := Finset.mem_image.mp hz
    have hi := (mem_rootsAmong.mp (List.mem_toFinset.mp hi)).2
    exact Multiset.mem_toFinset.mpr ((mem_roots hp).mpr hi)
  rw [← hcard]
  exact (Finset.card_le_card hsub).trans ((Multiset.toFinset_card_le _).trans (card_roots' p))

theorem chienSearch_tried (hs : Sound rs w) (hone : p.coeff 0 = 1) (hdegree : p.natDegree ≤ rs.nroots)
    {lambda : List ℕ} (hlog : LogForm w rs.nroots lambda p) :
    chienSearch rs p.natDegree (tried rs) lambda (rs.iprim - 1) 0 =
      (rootsAmong p (tried rs)).map fun j => (j, chienLoc rs j) := by
  have hp : p ≠ 0 := by
    rintro rfl
    exact zero_ne_one hone
  have hsearch := chienSearch_eq hs hone hdegree rs.nn 0 (regAt_zero hlog hdegree)
    (by rw [Nat.zero_add]; exact rootsAmong_tried_length_le hs hp)
  rwa [chienLoc_one hs] at hsearch

end CiotVlc.Codec
