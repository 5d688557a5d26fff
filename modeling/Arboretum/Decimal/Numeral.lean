import Arboretum.Scalar
import Arboretum.Text.Blank

/-!
Numerals: what a text says when it is read as a number. Blanks around it are skipped, a sign may
come first, and an underscore may stand between two digits.
-/
namespace Arboretum.Decimal

open Text

inductive Numeral where
  /-- A magnitude of `digits * 10 ^ exponent`. -/
  | finite (negative : Bool) (digits : Nat) (exponent : Int)
  | infinite (negative : Bool)
  | notANumber
  deriving DecidableEq, Repr

namespace Numeral

/-- A run of digits and what follows it. An underscore is passed over between two digits. -/
def digitRun (afterDigit : Bool) : List Char → List Nat × List Char
  | [] => ([], [])
  | c :: cs =>
    match digit? c with
    | some d =>
      let (ds, rest) := digitRun true cs
      (d :: ds, rest)
    | none =>
      if afterDigit && c == '_' && (cs.head?.bind digit?).isSome then digitRun false cs
      else ([], c :: cs)

def value (ds : List Nat) : Nat := ds.foldl (fun n d => 10 * n + d) 0

/-- The sign in front of a numeral. -/
def sign : List Char → Bool × List Char
  | '-' :: cs => (true, cs)
  | '+' :: cs => (false, cs)
  | cs => (false, cs)

/-- Integers of more digits than these, leading zeros included, are not read. -/
def maxDigits : Nat := 4300

def integer? (s : String) : Option Int :=
  let (negative, cs) := sign (trim s.toList)
  match digitRun false cs with
  | ([], _) | (_, _ :: _) => none
  | (ds, []) =>
    if maxDigits < ds.length then none
    else some (if negative then -(value ds : Int) else value ds)

/-- The exponent that may close a numeral. -/
def exponent? : List Char → Option Int
  | [] => some 0
  | c :: cs =>
    if c == 'e' || c == 'E' then
      let (negative, cs) := sign cs
      match digitRun false cs with
      | ([], _) | (_, _ :: _) => none
      | (ds, []) => some (if negative then -(value ds : Int) else value ds)
    else none

def ofWord? (negative : Bool) (word : String) : Option Numeral :=
  if word == "inf" || word == "infinity" then some (.infinite negative)
  else if word == "nan" then some .notANumber
  else none

def read? (s : String) : Option Numeral :=
  let (negative, cs) := sign (trim s.toList)
  let (whole, rest) := digitRun false cs
  let (places, rest') :=
    match rest with
    | '.' :: rest => digitRun false rest
    | _ => ([], rest)
  if whole.isEmpty && places.isEmpty then ofWord? negative (String.ofList (cs.map Char.toLower))
  else (exponent? rest').map fun e => .finite negative (value (whole ++ places)) (e - places.length)

/-- The number that a numeral stands for. -/
def toScalar {α : Type} [Scalar α] : Numeral → α
  | finite negative digits exponent =>
    let magnitude := OfScientific.ofScientific digits (decide (exponent < 0)) exponent.natAbs
    if negative then -magnitude else magnitude
  | infinite negative => if negative then -(1 / 0) else 1 / 0
  | notANumber => 0 / 0

end Numeral
end Arboretum.Decimal
