import Schemata.Number.Basic
import Schemata.Number.Shortest
/-!
# The text of a number

Whole numbers are written in base ten.  A floating-point number is written with its shortest digits,
always visibly as one: positional while its leading digit stands between `10 ^ -5` and `10 ^ 15`,
with an exponent beyond.
-/
namespace Schemata

/-- Which leading powers of ten are written positionally. -/
structure FloatStyle where
  lowest : Int
  highest : Int

def FloatStyle.json : FloatStyle := ⟨-5, 15⟩

/-- The digits of a decimal in the given style; a whole number gets `.0`. -/
def Decimal.render (style : FloatStyle) (d : Decimal) : String :=
  let ds := Nat.toDigits 10 d.digits
  let lead : Int := d.exponent + ds.length - 1
  if lead < style.lowest || style.highest < lead then
    let tail := if ds.length > 1 then '.' :: ds.drop 1 else []
    String.ofList (ds.take 1 ++ tail) ++ (if lead < 0 then "e-" else "e+") ++ toString lead.natAbs
  else if lead < 0 then
    String.ofList (['0', '.'] ++ List.replicate (lead.natAbs - 1) '0' ++ ds)
  else
    let whole := (ds ++ List.replicate d.exponent.toNat '0').take (lead.toNat + 1)
    let part := ds.drop (lead.toNat + 1)
    String.ofList (whole ++ ['.'] ++ if part.isEmpty then ['0'] else part)

def Binary64.render (x : Binary64) : String :=
  (if x.negative then "-" else "") ++ (Decimal.shortest x).render FloatStyle.json

def Number.render : Number → String
  | .natural n => toString n.toNat
  | .negative n => "-" ++ toString (n.val + 1)
  | .binary x => x.render

end Schemata
