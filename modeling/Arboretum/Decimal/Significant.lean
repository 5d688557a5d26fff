import Arboretum.Decimal.Fixed

/-!
Numbers written with a fixed count of significant digits.
-/
namespace Arboretum.Decimal

/-- Drops the zeros that close a fraction, and a point with nothing behind it. -/
def trimZeros (s : String) : String :=
  if s.contains '.' then
    ((s.dropEndWhile (· == '0')).toString.dropEndWhile (· == '.')).toString
  else s

/-- How many digits stand before the point; none for a magnitude below one. -/
def wholeDigits (num den : Nat) : Nat :=
  if num / den = 0 then 0 else (toString (num / den)).length

/-- At most so many digits, those before the point all kept; zero has no sign. -/
def significant (digits : Nat) (x : Float) : String :=
  match x.toModel.unpack with
  | .finite _ m e _ =>
    let (num, den) := quotient m e
    let text := trimZeros (fixed (digits - wholeDigits num den) x)
    if text == "-0" then "0" else text
  | .zero _ => "0"
  | _ => fixed 0 x

/-- One digit, so many places and a power of ten, for a magnitude of at least one. -/
def scientific (places : Nat) (x : Float) : String :=
  match x.toModel.unpack with
  | .finite s m e _ =>
    let (num, den) := quotient m e
    let whole := wholeDigits num den
    let raise := tenTo (places + 1 - whole)
    let lower := tenTo (whole - (places + 1))
    let digits := toString (roundQuotient (num * raise) (den * lower))
    let power := toString (digits.length + whole - places - 2)
    let body := (digits.take 1).toString ++ "." ++ ((digits.drop 1).take places).toString
    signed (s == .negative) (body ++ "e+" ++ padLeft 2 '0' power)
  | _ => fixed 0 x

end Arboretum.Decimal
