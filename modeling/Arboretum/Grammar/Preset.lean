import Arboretum.Grammar

namespace Arboretum

/-- The grammars that plants are grown from when none is given. -/
inductive Preset where
  | simple
  | tree
  | fern
  | bush
  | flower
  | cherry
  | cactus
  | thickbush
  | berry
  | crystal
  deriving DecidableEq, Repr

namespace Preset

def all : List Preset :=
  [simple, tree, fern, bush, flower, cherry, cactus, thickbush, berry, crystal]

def name : Preset → String
  | simple => "simple"
  | tree => "tree"
  | fern => "fern"
  | bush => "bush"
  | flower => "flower"
  | cherry => "cherry"
  | cactus => "cactus"
  | thickbush => "thickbush"
  | berry => "berry"
  | crystal => "crystal"

def ofName? (s : String) : Option Preset := all.find? fun p => p.name == s

def start : Preset → String
  | simple | tree | bush | cherry | cactus | thickbush => "F"
  | fern | flower | berry | crystal => "X"

def words : Preset → List (String × String)
  | simple => [("F", "FF+[+F]-[-F]+[+F]-[-F]")]
  | tree => [("F", "FF[+F][-F][+F]")]
  | fern => [("X", "F-[[X]+X]+F[+FX]-X"), ("F", "FF")]
  | bush => [("F", "FF+[+F][-F]+[+F][-F]")]
  | flower => [("X", "F[+X][-X]FX"), ("F", "FFF")]
  | cherry => [("F", "FFF-[-F+F+F*]+[+F-F-F*]")]
  | cactus => [("F", "[+\"F][-F][+F][-F]FF[+F][-F]FFF")]
  | thickbush => [("F", "[+\"F][\"F][+F]F[+\"F][\"F][+F][-F]F[+F][-F][+F][-F][+F][-F]FF")]
  | berry => [("X", "F[-X][+X]FXFF*"), ("F", "FF*")]
  | crystal => [("X", "F[-X]*[+X]*FXF[-X]*[+X]"), ("F", "F*F")]

def iterations : Preset → Nat
  | tree | bush | flower | berry => 3
  | simple | fern | cherry | cactus | thickbush | crystal => 2

def colourVaries : Preset → Bool
  | flower | crystal => true
  | _ => false

def stemColour : Preset → Colour
  | simple => [80, 120, 40]
  | tree => [100, 70, 20]
  | fern => [70, 130, 40]
  | bush => [60, 100, 30]
  | flower => [100, 140, 40]
  | cherry => [80, 40, 20]
  | cactus => [50, 150, 50]
  | thickbush => [70, 90, 30]
  | berry => [80, 50, 20]
  | crystal => [100, 180, 220]

def leafColour : Preset → Colour
  | simple => [100, 220, 50]
  | tree => [60, 200, 40]
  | fern => [70, 200, 40]
  | bush => [120, 210, 40]
  | flower => [100, 200, 50]
  | cherry => [120, 180, 40]
  | cactus => [50, 180, 50]
  | thickbush => [200, 250, 30]
  | berry => [60, 180, 60]
  | crystal => [150, 230, 255]

def fruitColour : Preset → Colour
  | flower => [255, 50, 100]
  | cherry => [220, 20, 60]
  | berry => [100, 50, 200]
  | crystal => [80, 200, 255]
  | _ => Grammar.defaultFruitColour

variable {α σ : Type} [Scalar α]

def angle : Preset → α
  | simple | thickbush => Scalar.pi / 6.0
  | tree => Scalar.pi / 7.0
  | fern => Scalar.pi / 8.0
  | bush | berry => Scalar.pi / 4.0
  | flower => Scalar.pi / 5.0
  | cherry => Scalar.pi
  | cactus => Scalar.pi / 2.0
  | crystal => Scalar.pi / 3.0

def fruitProbability : Preset → α
  | flower => 0.7
  | cherry => 0.4
  | berry => 1
  | crystal => 0.9
  | _ => 0

def stemThickness : Preset → α
  | simple | bush | cherry => 4.0
  | tree | thickbush => 5.0
  | fern | flower | berry | crystal => 3.0
  | cactus => 8.0

def grammar (p : Preset) : Grammar α where
  name := p.name
  start := p.start.toList
  rules := p.words.map fun (symbol, word) => (symbol, .fixed word.toList)
  angle := p.angle
  iterations := p.iterations
  fruitProbability := p.fruitProbability
  colourVaries := p.colourVaries
  stemColour := p.stemColour
  leafColour := p.leafColour
  fruitColour := p.fruitColour
  stemThickness := p.stemThickness

/-- The preset of a name; an unknown name gives the simple one, with a note. -/
def named (s : String) : Action (Note α) σ (Grammar α) := do
  match ofName? s with
  | some p => return p.grammar
  | none =>
    Action.note (.unknownPreset s)
    return simple.grammar

def choose : Action (Note α) (Draws α) Preset := Draws.choose all .outsidePresets

end Preset
end Arboretum
