import Arboretum.Grammar.Preset

namespace Arboretum

/-- What a garden plants by itself: any preset, or one only. -/
inductive Theme where
  | mixed
  | only (p : Preset)
  deriving DecidableEq, Repr

namespace Theme

def all : List Theme := mixed :: Preset.all.map only

def name : Theme → String
  | mixed => "mixed"
  | only p => p.name

def ofName? (s : String) : Option Theme := all.find? fun t => t.name == s

/-- The theme after this one, the first one after the last. -/
def next (t : Theme) : Theme :=
  match all.dropWhile (· != t) with
  | _ :: t' :: _ => t'
  | _ => mixed

end Theme
end Arboretum
