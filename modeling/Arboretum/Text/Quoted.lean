import Arboretum.Text.Printable

/-!
Quoted text. Single quotes enclose it, unless it holds one and no double quote; what does not print
is escaped.
-/
namespace Arboretum.Text

def hex (width : Nat) (n : Nat) : String :=
  let digits := Nat.toDigits 16 n
  String.ofList (List.replicate (width - digits.length) '0' ++ digits)

/-- The escape of a character by its code point, in two, four or eight digits. -/
def codePoint (n : Nat) : String :=
  if n < 0x100 then "\\x" ++ hex 2 n
  else if n < 0x10000 then "\\u" ++ hex 4 n
  else "\\U" ++ hex 8 n

def escape (quote : Char) (c : Char) : String :=
  if c == quote || c == '\\' then String.ofList ['\\', c]
  else if c == '\n' then "\\n"
  else if c == '\r' then "\\r"
  else if c == '\t' then "\\t"
  else if prints c then String.singleton c
  else codePoint c.toNat

def quoted (s : String) : String :=
  let quote := if s.contains '\'' && !s.contains '\"' then '\"' else '\''
  String.singleton quote ++ String.join (s.toList.map (escape quote)) ++ String.singleton quote

end Arboretum.Text
