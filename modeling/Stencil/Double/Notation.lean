import Stencil.Double.Shortest
import Stencil.Text.Basic

/-!
# How a double is written

The digits are those of the shortest decimal that reads back.  Numbers whose
leading digit stands between the fifth place after the point and the sixteenth
place before it are written positionally, with at least one digit on either side
of the point.  All others are written with an exponent, which always has a sign
and never a padding zero: `1e+16`, `1.5e-7`.  Zero keeps its sign.
-/

namespace Stencil.Double

set_option autoImplicit false

/-- The digits with the point after the first `point` of them; a point outside of the digits is
reached with zeros. -/
def positional (ds : Text) (point : Int) : Text :=
  if point ≤ 0 then '0' :: '.' :: (List.replicate (-point).toNat '0' ++ ds)
  else if ds.length ≤ point.toNat then
    ds ++ List.replicate (point.toNat - ds.length) '0' ++ ['.', '0']
  else ds.take point.toNat ++ '.' :: ds.drop point.toNat

/-- The digits with the point after the first of them, and the exponent that this calls for. -/
def scientific (ds : Text) (exponent : Int) : Text :=
  let fraction := match ds.drop 1 with
    | [] => []
    | rest => '.' :: rest
  let sign := if exponent < 0 then '-' else '+'
  ds.take 1 ++ fraction ++ 'e' :: sign :: Nat.toDigits 10 exponent.natAbs

/-- The text of the magnitude. -/
def magnitudeText (x : Double) : Text :=
  if x.rank = 0 then ['0', '.', '0']
  else
    let d := x.shortest
    let ds := Nat.toDigits 10 d.digits
    let point := ds.length + d.exponent
    if -5 < point ∧ point ≤ 16 then positional ds point else scientific ds (point - 1)

/-- The text of the number. -/
def toText (x : Double) : Text :=
  if x.neg then '-' :: x.magnitudeText else x.magnitudeText

end Stencil.Double
