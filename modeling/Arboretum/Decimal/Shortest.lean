import Arboretum.Decimal.Fixed

/-!
The shortest decimal of a machine number: the fewest digits that read back as the number, and of
those the nearest to it. A number is the quotient `num / den`, and the numbers that read back as it
lie between `low / den` and `high / den`, the ends included or not.
-/
namespace Arboretum.Decimal

structure Neighbourhood where
  num : Nat
  den : Nat
  low : Nat
  high : Nat
  closed : Bool

namespace Neighbourhood

/-- Half a unit of the last place on either side, a quarter below a power of two; the even
mantissas own the ends. -/
def of (m : Nat) (e : Int) : Neighbourhood :=
  let (num, den) := quotient (4 * m) (e - 2)
  let unit := twoTo (e - 2).toNat
  let below := if m = twoTo 52 && decide (-1074 < e) then unit else 2 * unit
  ⟨num, den, num - below, num + 2 * unit, m % 2 = 0⟩

/-- Does `d * 10 ^ k` read back as the number? -/
def holds (n : Neighbourhood) (d : Nat) (k : Int) : Bool :=
  let a := d * tenTo k.toNat * n.den
  let t := tenTo (-k).toNat
  if n.closed then n.low * t ≤ a && a ≤ n.high * t else n.low * t < a && a < n.high * t

/-- The two decimals around the number on the grid of `10 ^ k`, the nearer one first. -/
def around (n : Neighbourhood) (k : Int) : Nat × Nat :=
  let a := n.num * tenTo (-k).toNat
  let b := n.den * tenTo k.toNat
  let near := roundQuotient a b
  let below := a / b
  (near, if near = below then below + 1 else below)

/-- The number of digits before the point, less the zeros that follow it. -/
def decade (n : Neighbourhood) : Int :=
  if n.den ≤ n.num then ((toString (n.num / n.den)).length : Int)
  else 1 - ((toString (n.den / n.num)).length : Int)

/-- The digits and the exponent of their last place, trying one digit more each time. -/
def digitsFrom (n : Neighbourhood) (decade : Int) (count : Nat) : Nat → Nat × Int
  | 0 => ((around n (decade - count)).1, decade - count)
  | fuel + 1 =>
    let k := decade - count
    let (near, far) := n.around k
    if n.holds near k then (near, k)
    else if n.holds far k then (far, k)
    else digitsFrom n decade (count + 1) fuel

def digits (n : Neighbourhood) : Nat × Int := n.digitsFrom n.decade 1 17

end Neighbourhood

/-- How digits are laid out. -/
structure Layout where
  /-- Decimal exponents from here on are written without an exponent. -/
  lowest : Int
  /-- Decimal exponents from here on are written with one. -/
  highest : Int
  /-- The least number of digits of an exponent. -/
  exponentDigits : Nat

/-- Whole numbers keep one place; exponents appear below a ten-thousandth and from `10 ^ 16` on. -/
def plain : Layout := ⟨-4, 16, 2⟩

def zeros (n : Nat) : String := String.ofList (List.replicate n '0')

def Layout.write (l : Layout) (digits : Nat) (exponent : Int) : String :=
  let s := (toString digits).dropEndWhile (· == '0') |>.toString
  let first := exponent + (toString digits).length - 1
  if first < l.lowest || l.highest ≤ first then
    let tail := (s.drop 1).toString
    let power := padLeft l.exponentDigits '0' (toString first.natAbs)
    (s.take 1).toString ++ (if tail.isEmpty then "" else "." ++ tail) ++ "e" ++
      (if first < 0 then "-" else "+") ++ power
  else if first < 0 then "0." ++ zeros (-first - 1).toNat ++ s
  else
    let before := first.toNat + 1
    let whole := (s.take before).toString ++ zeros (before - s.length)
    let rest := (s.drop before).toString
    whole ++ "." ++ (if rest.isEmpty then "0" else rest)

def shortest (x : Float) : String :=
  match x.toModel.unpack with
  | .notANumber => "nan"
  | .infinity s => signed (s == .negative) "inf"
  | .zero s => signed (s == .negative) "0.0"
  | .finite s m e _ =>
    let (d, k) := (Neighbourhood.of m e).digits
    signed (s == .negative) (plain.write d k)

instance : Written Float := ⟨shortest⟩

end Arboretum.Decimal
