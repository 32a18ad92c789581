import Mathlib.Data.List.GetD
import Mathlib.Data.Nat.Bitwise

/-! # The control structure of the Reed-Solomon library

`rs_init` fills the logarithm tables of the field and the generator polynomial of the code. The three arrays
come from `kmalloc`, so what they hold before is an argument. Their entries are `uint16_t`; the lists of ℕ hold the
same values as long as the symbols have at most 16 bits.
-/
namespace CiotVlc.Codec
set_option autoImplicit false

structure RsControl where
  mm : ℕ
  nn : ℕ
  alphaTo : List ℕ
  indexOf : List ℕ
  genpoly : List ℕ
  nroots : ℕ
  fcr : ℕ
  prim : ℕ
  iprim : ℕ
  gfpoly : ℕ
  deriving DecidableEq, Repr

/-! ## `rs_modnn` -/

/-- The passes of the loop of `rs_modnn`, at most `fuel` of them. -/
def modnnLoop (mm nn : ℕ) : ℕ → ℕ → ℕ
  | 0, x => x
  | fuel + 1, x =>
    if nn ≤ x then modnnLoop mm nn fuel (((x - nn) >>> mm) + ((x - nn) &&& nn)) else x

/-- `rs_modnn`; each pass makes `x` smaller, so `x` passes are enough. -/
def rsModnn (mm nn x : ℕ) : ℕ := modnnLoop mm nn x x

theorem modnnLoop_eq {mm : ℕ} (hmm : 0 < mm) (fuel : ℕ) {x : ℕ} (hx : x ≤ fuel) :
    modnnLoop mm (2 ^ mm - 1) fuel x = x % (2 ^ mm - 1) := by
  have hpow : 2 ≤ 2 ^ mm := by simpa using Nat.pow_le_pow_right (n := 2) (by omega) hmm
  induction fuel generalizing x with
  | zero =>
    obtain rfl : x = 0 := by omega
    exact (Nat.zero_mod _).symm
  | succ fuel ih =>
    rw [modnnLoop]
    split
    case isTrue hle =>
      generalize hy : x - (2 ^ mm - 1) = y
      have hfold : y / 2 ^ mm + y % 2 ^ mm + y / 2 ^ mm * (2 ^ mm - 1) = y := by
        have hdiv := Nat.div_add_mod y (2 ^ mm)
        rw [Nat.mul_sub, Nat.mul_one, Nat.mul_comm (y / 2 ^ mm)]
        have hle := Nat.le_mul_of_pos_left (y / 2 ^ mm) (Nat.two_pow_pos mm)
        omega
      rw [Nat.shiftRight_eq_div_pow, Nat.and_two_pow_sub_one_eq_mod, ih (by omega)]
      calc (y / 2 ^ mm + y % 2 ^ mm) % (2 ^ mm - 1)
          = (y / 2 ^ mm + y % 2 ^ mm + y / 2 ^ mm * (2 ^ mm - 1)) % (2 ^ mm - 1) :=
            (Nat.add_mul_mod_self_right _ _ _).symm
        _ = (y + (2 ^ mm - 1)) % (2 ^ mm - 1) := by rw [hfold, Nat.add_mod_right]
        _ = x % (2 ^ mm - 1) := by rw [← hy, Nat.sub_add_cancel hle]
    case isFalse hlt => exact (Nat.mod_eq_of_lt (by omega)).symm

theorem rsModnn_eq {mm : ℕ} (hmm : 0 < mm) (x : ℕ) : rsModnn mm (2 ^ mm - 1) x = x % (2 ^ mm - 1) :=
  modnnLoop_eq hmm x le_rfl

/-! ## `rs_init` -/

/-- One shift of the field generator: `sr <<= 1`, the reduction, and the mask. -/
def nextSr (symsize gfpoly sr : ℕ) : ℕ :=
  let sr := sr <<< 1
  let sr := if sr &&& (1 <<< symsize) ≠ 0 then sr ^^^ gfpoly else sr
  sr &&& (2 ^ symsize - 1)

structure Tables where
  alphaTo : List ℕ
  indexOf : List ℕ
  sr : ℕ

def tableStep (symsize gfpoly : ℕ) (t : Tables) (i : ℕ) : Tables :=
  { alphaTo := t.alphaTo.set i t.sr, indexOf := t.indexOf.set t.sr i, sr := nextSr symsize gfpoly t.sr }

/-- The lookup tables; `alpha₀` and `index₀` are the arrays as allocated. -/
def galoisTables (symsize gfpoly : ℕ) (alpha₀ index₀ : List ℕ) : Tables :=
  let nn := 2 ^ symsize - 1
  (List.range nn).foldl (tableStep symsize gfpoly)
    { alphaTo := alpha₀.set nn 0, indexOf := index₀.set 0 nn, sr := 1 }

/-- The inner loop of the generator polynomial at `j`. -/
def mulRootAt (mm nn : ℕ) (t : Tables) (root : ℕ) (g : List ℕ) (j : ℕ) : List ℕ :=
  if g.getD j 0 ≠ 0 then
    g.set j (g.getD (j - 1) 0 ^^^ t.alphaTo.getD (rsModnn mm nn (t.indexOf.getD (g.getD j 0) 0 + root)) 0)
  else g.set j (g.getD (j - 1) 0)

/-- Multiply `genpoly` by the linear factor of `root`, from the top coefficient down. -/
def mulRoot (mm nn : ℕ) (t : Tables) (root : ℕ) (g : List ℕ) (i : ℕ) : List ℕ :=
  let g := g.set (i + 1) 1
  let g := ((List.range i).reverse.map (· + 1)).foldl (mulRootAt mm nn t root) g
  g.set 0 (t.alphaTo.getD (rsModnn mm nn (t.indexOf.getD (g.getD 0 0) 0 + root)) 0)

def generatorPoly (mm nn : ℕ) (t : Tables) (fcr prim nroots : ℕ) (g₀ : List ℕ) : List ℕ :=
  (List.range nroots).foldl (fun g i => mulRoot mm nn t (fcr * prim + i * prim) g i) (g₀.set 0 1)

/-- The loop that looks for a multiple of `prim` among `1, 1 + nn, 1 + 2 * nn, ...`. The remainders repeat
after `prim` terms. -/
def findIprim (nn prim : ℕ) : ℕ → ℕ → Option ℕ
  | 0, _ => none
  | fuel + 1, iprim => if iprim % prim ≠ 0 then findIprim nn prim fuel (iprim + nn) else some (iprim / prim)

/-- How `rs_init` ends without a control structure: it returns `NULL`, or it never returns. -/
inductive InitFailure where
  | notPrimitive
  | noInverse
  deriving DecidableEq, Repr

/-- The arrays that `kmalloc` returned. -/
structure Allocated where
  alphaTo : List ℕ
  indexOf : List ℕ
  genpoly : List ℕ

def rsInit (symsize gfpoly fcr prim nroots : ℕ) (mem : Allocated) : Except InitFailure RsControl :=
  let nn := 2 ^ symsize - 1
  let t := galoisTables symsize gfpoly mem.alphaTo mem.indexOf
  if t.sr ≠ t.alphaTo.getD 0 0 then .error .notPrimitive
  else match findIprim nn prim prim 1 with
    | none => .error .noInverse
    | some iprim =>
      let genpoly := generatorPoly symsize nn t fcr prim nroots mem.genpoly
      .ok { mm := symsize, nn, alphaTo := t.alphaTo, indexOf := t.indexOf,
            genpoly := genpoly.map fun c => t.indexOf.getD c 0, nroots, fcr, prim, iprim, gfpoly }

/-! ## A small code -/

/-- Symbols of three bits, `x ^ 3 + x + 1`, two roots. -/
def smallMemory : Allocated := ⟨List.replicate 8 0, List.replicate 8 0, List.replicate 3 0⟩

def smallControl : RsControl :=
  { mm := 3, nn := 7, alphaTo := [1, 2, 4, 3, 6, 7, 5, 0], indexOf := [7, 0, 1, 3, 2, 6, 4, 5], genpoly := [1, 3, 0],
    nroots := 2, fcr := 0, prim := 1, iprim := 1, gfpoly := 11 }

theorem smallControl_init : rsInit 3 11 0 1 2 smallMemory = .ok smallControl := by decide +kernel

end CiotVlc.Codec
