import CiotVlc.Codec.Encode
import CiotVlc.Foundations.BlockCode
import Mathlib.Data.List.Induction

/-! # `decode_rs`

Syndromes, the Berlekamp-Massey algorithm, the search for the roots of the error locator, and the correction
of the data. Both drivers leave the syndromes to the decoder and pass no erasures and no correction buffer
(`s`, `eras_pos` and `corr` are `NULL`, `no_eras` is `0`), and an inversion mask of `0`.
-/
namespace CiotVlc.Codec
open Foundations.BlockCode
set_option autoImplicit false

def eBadMsg : ℤ := 74

/-- The exclusive or of the terms of a loop. -/
def xorSum (is : List ℕ) (term : ℕ → ℕ) : ℕ := is.foldl (fun acc i => acc ^^^ term i) 0

/-! ## Syndromes -/

def syndromeStep (rs : RsControl) (d i syn : ℕ) : ℕ :=
  if syn = 0 then d &&& rs.nn
  else (d &&& rs.nn) ^^^ rs.alphaPow (rs.index syn + (rs.fcr + i) * rs.prim)

/-- The syndromes of `data` and the first `nroots` entries of `par`. `data[0]` is read whatever the length of the
block; `first` is what an empty one is followed by in memory. -/
def formSyndromes (rs : RsControl) (first : ℕ) (data par : List ℕ) : List ℕ :=
  let syn := List.replicate rs.nroots (data.headD first &&& rs.nn)
  let syn := data.tail.foldl (fun syn d => syn.mapIdx (syndromeStep rs d)) syn
  (par.take rs.nroots).foldl (fun syn d => syn.mapIdx (syndromeStep rs d)) syn

/-! ## Error locator -/

/-- `lambda` is in polynomial form and `b` in index form. -/
structure Massey where
  lambda : List ℕ
  b : List ℕ
  el : ℕ

/-- The discrepancy at step `r`, in index form. -/
def discrepancyAt (rs : RsControl) (s lambda : List ℕ) (r : ℕ) : ℕ :=
  rs.index (xorSum (List.range r) fun i =>
    if lambda.getD i 0 ≠ 0 ∧ s.getD (r - i - 1) 0 ≠ rs.nn then
      rs.alphaPow (rs.index (lambda.getD i 0) + s.getD (r - i - 1) 0)
    else 0)

/-- `T(x) <-- lambda(x) - discr_r * x * b(x)` -/
def masseyUpdate (rs : RsControl) (lambda b : List ℕ) (discr : ℕ) : List ℕ :=
  lambda.getD 0 0 :: (List.range rs.nroots).map fun i =>
    if b.getD i 0 ≠ rs.nn then lambda.getD (i + 1) 0 ^^^ rs.alphaPow (discr + b.getD i 0)
    else lambda.getD (i + 1) 0

/-- `B(x) <-- x * B(x)` -/
def shiftB (rs : RsControl) (b : List ℕ) : List ℕ := rs.nn :: b.dropLast

/-- `B(x) <-- inv(discr_r) * lambda(x)` -/
def invertB (rs : RsControl) (lambda : List ℕ) (discr : ℕ) : List ℕ :=
  (List.range (rs.nroots + 1)).map fun i =>
    if lambda.getD i 0 = 0 then rs.nn else rs.modnn (rs.index (lambda.getD i 0) + rs.nn - discr)

/-- Step `r`, counted from `1`. -/
def masseyStep (rs : RsControl) (s : List ℕ) (st : Massey) (r : ℕ) : Massey :=
  let discr := discrepancyAt rs s st.lambda r
  if discr = rs.nn then { st with b := shiftB rs st.b }
  else if 2 * st.el ≤ r - 1 then
    { lambda := masseyUpdate rs st.lambda st.b discr, b := invertB rs st.lambda discr, el := r - st.el }
  else { st with lambda := masseyUpdate rs st.lambda st.b discr, b := shiftB rs st.b }

def masseyStart (rs : RsControl) : Massey :=
  let lambda := 1 :: List.replicate rs.nroots 0
  { lambda, b := lambda.map rs.index, el := 0 }

def berlekampMassey (rs : RsControl) (s : List ℕ) : Massey :=
  (List.range rs.nroots).foldl (fun st i => masseyStep rs s st (i + 1)) (masseyStart rs)

/-- The degree of `lambda`, which is in index form. -/
def degLambda (rs : RsControl) (lambda : List ℕ) : ℕ :=
  (List.range (rs.nroots + 1)).foldl (fun deg i => if lambda.getD i 0 ≠ rs.nn then i else deg) 0

/-! ## Chien search -/

/-- `reg[j]` moves on to the next power for every nonzero coefficient up to the degree. -/
def chienAdvance (rs : RsControl) (deg : ℕ) (reg : List ℕ) : List ℕ :=
  reg.mapIdx fun j v => if 1 ≤ j ∧ j ≤ deg ∧ v ≠ rs.nn then rs.modnn (v + j) else v

def chienValue (rs : RsControl) (deg : ℕ) (reg : List ℕ) : ℕ :=
  1 ^^^ xorSum ((List.range deg).reverse.map (· + 1)) fun j =>
    if reg.getD j 0 ≠ rs.nn then rs.alphaTo.getD (reg.getD j 0) 0 else 0

/-- The roots found for the remaining values of `i`, with their locations; `count` were found before. -/
def chienSearch (rs : RsControl) (deg : ℕ) : List ℕ → List ℕ → ℕ → ℕ → List (ℕ × ℕ)
  | [], _, _, _ => []
  | i :: is, reg, k, count =>
    let reg := chienAdvance rs deg reg
    let next := rs.modnn (k + rs.iprim)
    if chienValue rs deg reg ≠ 0 then chienSearch rs deg is reg next count
    else (i, k) :: if count + 1 = deg then [] else chienSearch rs deg is reg next (count + 1)

/-! ## Error values -/

/-- `omega(x) = s(x) * lambda(x)` up to the degree below that of `lambda`; everything in index form. -/
def evaluatorPoly (rs : RsControl) (s lambda : List ℕ) (deg : ℕ) : List ℕ :=
  (List.range deg).map fun i => rs.index (xorSum (List.range (i + 1)).reverse fun j =>
    if s.getD (i - j) 0 ≠ rs.nn ∧ lambda.getD j 0 ≠ rs.nn then
      rs.alphaPow (s.getD (i - j) 0 + lambda.getD j 0)
    else 0)

/-- `num1` at a root -/
def evaluatorAt (rs : RsControl) (omega : List ℕ) (deg root : ℕ) : ℕ :=
  xorSum (List.range deg).reverse fun i =>
    if omega.getD i 0 ≠ rs.nn then rs.alphaPow (omega.getD i 0 + i * root) else 0

/-- `den` at a root: the formal derivative of `lambda` has the odd coefficients. -/
def derivativeAt (rs : RsControl) (lambda : List ℕ) (deg root : ℕ) : ℕ :=
  xorSum ((List.range (min deg (rs.nroots - 1) / 2 + 1)).reverse.map (2 * ·)) fun i =>
    if lambda.getD (i + 1) 0 ≠ rs.nn then rs.alphaPow (lambda.getD (i + 1) 0 + i * root) else 0

/-- The correction of the symbol at a root; `num2` is `alpha_to` of `root * (fcr - 1) + nn`. -/
def correction (rs : RsControl) (lambda omega : List ℕ) (deg root : ℕ) : ℕ :=
  rs.alphaPow (rs.index (evaluatorAt rs omega deg root) +
    rs.index (rs.alphaPow (root * rs.fcr + rs.nn - root)) + rs.nn - rs.index (derivativeAt rs lambda deg root))

/-- Correct the data symbol of one root; `pad` symbols are left out in front of the data. -/
def applyError (rs : RsControl) (lambda omega : List ℕ) (deg pad : ℕ) (data : List ℕ) (found : ℕ × ℕ) : List ℕ :=
  let (root, loc) := found
  if evaluatorAt rs omega deg root ≠ 0 ∧ pad ≤ loc then
    if loc < rs.nn - rs.nroots then
      data.set (loc - pad) (data.getD (loc - pad) 0 ^^^ correction rs lambda omega deg root)
    else data
  else data

/-! ## The decoder -/

/-- From the syndromes, in index form, to the corrected data and the number of errors. -/
def correctErrors (rs : RsControl) (s data : List ℕ) (pad : ℕ) : List ℕ × ℤ :=
  let lambda := (berlekampMassey rs s).lambda.map rs.index
  let deg := degLambda rs lambda
  let found := chienSearch rs deg ((List.range rs.nn).map (· + 1)) lambda (rs.iprim - 1) 0
  if deg ≠ found.length then (data, -eBadMsg)
  else
    let omega := evaluatorPoly rs s lambda deg
    (found.reverse.foldl (applyError rs lambda omega deg pad) data, found.length)

/-- `none` is where `BUG_ON` stops the kernel. -/
def decodeRs (rs : RsControl) (first : ℕ) (data par : List ℕ) : Option (List ℕ × ℤ) :=
  if rs.pad data.length < 0 ∨ (rs.nn : ℤ) ≤ rs.pad data.length then none
  else
    let syn := formSyndromes rs first data par
    if syn.all (· = 0) then some (data, 0)
    else some (correctErrors rs (syn.map rs.index) data (rs.pad data.length).toNat)

/-! ## What a call can change -/

section
variable {rs : RsControl}

theorem degLambda_le (lambda : List ℕ) : degLambda rs lambda ≤ rs.nroots := by
  have hloop : ∀ k, k ≤ rs.nroots + 1 →
      (List.range k).foldl (fun deg i => if lambda.getD i 0 ≠ rs.nn then i else deg) 0 ≤ rs.nroots := by
    intro k hk
    induction k with
    | zero => exact Nat.zero_le _
    | succ k ih =>
      rw [List.range_succ, List.foldl_append, List.foldl_cons, List.foldl_nil]
      split
      · omega
      · exact ih (by omega)
  exact hloop _ le_rfl

theorem applyError_effect (lambda omega : List ℕ) (deg pad : ℕ) (before data : List ℕ) (found : ℕ × ℕ) :
    (applyError rs lambda omega deg pad data found).length = data.length ∧
      wrongSymbols before (applyError rs lambda omega deg pad data found) ≤ wrongSymbols before data + 1 := by
  unfold applyError
  dsimp only
  split
  · split
    · exact ⟨List.length_set, wrongSymbols_set_le ..⟩
    · exact ⟨rfl, Nat.le_succ _⟩
  · exact ⟨rfl, Nat.le_succ _⟩

theorem applyErrors_effect (lambda omega : List ℕ) (deg pad : ℕ) (data : List ℕ) (found : List (ℕ × ℕ)) :
    (found.foldl (applyError rs lambda omega deg pad) data).length = data.length ∧
      wrongSymbols data (found.foldl (applyError rs lambda omega deg pad) data) ≤ found.length := by
  induction found using List.reverseRecOn with
  | nil => exact ⟨rfl, (wrongSymbols_self data).le⟩
  | append_singleton found last ih =>
    have hlast := @applyError_effect rs lambda omega deg pad data
      (found.foldl (applyError rs lambda omega deg pad) data) last
    rw [List.foldl_append, List.foldl_cons, List.foldl_nil, List.length_append, List.length_singleton]
    exact ⟨hlast.1.trans ih.1, by omega⟩

/-- **A call either fails and leaves the data alone, or changes at most as many symbols as it reports**, and
never reports more than there are parity symbols. This is so for every control structure and every block, an empty
one included. -/
theorem decodeRs_effect {first : ℕ} {data par data' : List ℕ} {count : ℤ}
    (h : decodeRs rs first data par = some (data', count)) :
    data'.length = data.length ∧
      (count = -eBadMsg ∧ data' = data ∨ ∃ n ≤ rs.nroots, count = n ∧ wrongSymbols data data' ≤ n) := by
  unfold decodeRs at h
  dsimp only at h
  split at h
  · cases h
  · split at h
    · cases h
      exact ⟨rfl, Or.inr ⟨0, Nat.zero_le _, rfl, (wrongSymbols_self data).le⟩⟩
    · unfold correctErrors at h
      dsimp only at h
      split at h
      · cases h
        exact ⟨rfl, Or.inl ⟨rfl, rfl⟩⟩
      · next hdeg =>
        -- As many locations were found as the degree says, and the degree fits into the array.
        have hle := @degLambda_le rs
          ((berlekampMassey rs ((formSyndromes rs first data par).map rs.index)).lambda.map rs.index)
        rw [not_not.mp hdeg] at hle
        cases h
        obtain ⟨hlen, hwrong⟩ := applyErrors_effect _ _ _ _ data (List.reverse _)
        rw [List.length_reverse] at hwrong
        exact ⟨hlen, Or.inr ⟨_, hle, rfl, hwrong⟩⟩

theorem decodeRs_effect_one_error : ∃ n : ℕ, n ≤ 2 ∧ (1 : ℤ) = n ∧ wrongSymbols [5, 6] [1, 6] ≤ n := by
  have hdecode : decodeRs smallControl 5 [5, 6] [6, 1] = some ([1, 6], 1) := by decide +kernel
  rcases (decodeRs_effect hdecode).2 with ⟨hfail, -⟩ | heffect
  · exact absurd hfail (by decide)
  · exact heffect

end

end CiotVlc.Codec
