import Arboretum.Power
import Arboretum.Scalar

/-!
Numbers written with a fixed count of places. The exact value is rounded, and a half goes to the
even neighbour.
-/
namespace Arboretum.Decimal

/-- The nearest integer to a quotient; halfway between two, the even one. -/
def roundQuotient (num den : Nat) : Nat :=
  let below := num / den
  let rest := 2 * (num % den)
  if rest < den then below
  else if den < rest then below + 1
  else if below % 2 = 0 then below else below + 1

/-- A magnitude `m * 2 ^ e` as a quotient of two integers. -/
def quotient (m : Nat) (e : Int) : Nat × Nat :=
  if 0 ≤ e then (m * twoTo e.toNat, 1) else (m, twoTo (-e).toNat)

/-- Fills a text up from the left, behind a minus sign if it has one. -/
def padLeft (width : Nat) (fill : Char) (s : String) : String :=
  let zeros := String.ofList (List.replicate (width - s.length) fill)
  if s.startsWith "-" then "-" ++ zeros ++ (s.drop 1).toString else zeros ++ s

/-- An integer count of units of the last place, with the point put in. -/
def withPoint (places : Nat) (units : Nat) : String :=
  let digits := padLeft (places + 1) '0' (toString units)
  if places = 0 then digits
  else (digits.dropEnd places).toString ++ "." ++ (digits.takeEnd places).toString

def signed (negative : Bool) (s : String) : String := if negative then "-" ++ s else s

def fixed (places : Nat) (x : Float) : String :=
  match x.toModel.unpack with
  | .notANumber => "nan"
  | .infinity s => signed (s == .negative) "inf"
  | .zero s => signed (s == .negative) (withPoint places 0)
  | .finite s m e _ =>
    let (num, den) := quotient m e
    signed (s == .negative) (withPoint places (roundQuotient (num * tenTo places) den))

end Arboretum.Decimal
