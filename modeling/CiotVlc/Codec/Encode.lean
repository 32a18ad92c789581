import CiotVlc.Codec.Control

/-! # `encode_rs`

The encoder is a shift register over the generator polynomial, which `rs_init` left in index form. The file is
included by the wrappers for 8 and for 16 bit data; both drivers pass an inversion mask of `0`.
-/
namespace CiotVlc.Codec
set_option autoImplicit false

def eRange : ℤ := 34

/-- The symbols past `data` and parity up to the full length of a code word. -/
def RsControl.pad (rs : RsControl) (len : ℕ) : ℤ := (rs.nn : ℤ) - rs.nroots - len

def RsControl.modnn (rs : RsControl) (x : ℕ) : ℕ := rsModnn rs.mm rs.nn x

/-- `alpha_to[rs_modnn(rs, x)]` -/
def RsControl.alphaPow (rs : RsControl) (x : ℕ) : ℕ := rs.alphaTo.getD (rs.modnn x) 0

def RsControl.index (rs : RsControl) (x : ℕ) : ℕ := rs.indexOf.getD x 0

/-- One data symbol. -/
def encodeStep (rs : RsControl) (par : List ℕ) (d : ℕ) : List ℕ :=
  let fb := rs.index ((d &&& rs.nn) ^^^ par.getD 0 0)
  -- the feedback term is non-zero
  let par := if fb ≠ rs.nn then
      par.mapIdx fun j p => if 1 ≤ j then p ^^^ rs.alphaPow (fb + rs.genpoly.getD (rs.nroots - j) 0) else p
    else par
  -- Shift
  par.tail ++ [if fb ≠ rs.nn then rs.alphaPow (fb + rs.genpoly.getD 0 0) else 0]

def encodeRs (rs : RsControl) (data par : List ℕ) : List ℕ × ℤ :=
  if rs.pad data.length < 0 ∨ (rs.nn : ℤ) ≤ rs.pad data.length then (par, -eRange)
  else (data.foldl (encodeStep rs) par, 0)

end CiotVlc.Codec
