import Arboretum.Draws

/-!
Colours and their small random shifts. A colour is a list of channels, from 0 to 255 as a rule;
the first three are red, green and blue.
-/
namespace Arboretum

abbrev Colour := List Int

namespace Colour

variable {α ν : Type} [Scalar α]

structure Rgb (α : Type) where
  red : α
  green : α
  blue : α

structure Hsv (α : Type) where
  hue : α
  saturation : α
  value : α

open Scalar

def Rgb.toHsv (c : Rgb α) : Except Fault (Hsv α) :=
  let top := greatest (greatest c.red c.green) c.blue
  let bottom := least (least c.red c.green) c.blue
  let range := top - bottom
  if bottom == top then .ok ⟨0, 0, top⟩
  else if top == 0 then .error .divisionByZero
  else
    let r := (top - c.red) / range
    let g := (top - c.green) / range
    let b := (top - c.blue) / range
    let sector :=
      if c.red == top then b - g
      else if c.green == top then 2.0 + r - b
      else 4.0 + g - r
    .ok ⟨floorMod (sector / 6.0) 1, range / top, top⟩

def Hsv.toRgb (c : Hsv α) : Except Fault (Rgb α) := do
  let v := c.value
  if c.saturation == 0 then return ⟨v, v, v⟩
  let sector ← truncate (c.hue * 6.0)
  let f := c.hue * 6.0 - (sector : α)
  let p := v * (1 - c.saturation)
  let q := v * (1 - c.saturation * f)
  let t := v * (1 - c.saturation * (1 - f))
  return match sector % 6 with
    | 0 => ⟨v, t, p⟩
    | 1 => ⟨q, v, p⟩
    | 2 => ⟨p, v, t⟩
    | 3 => ⟨p, q, v⟩
    | 4 => ⟨t, p, v⟩
    | _ => ⟨v, p, q⟩

/-- A channel as a part of the whole. -/
def part (channel : Int) : Except Fault α := do return (← Scalar.ofInt channel) / 255.0

def toRgb (colour : Colour) : Except Fault (Rgb α) := do
  match ← (colour.take 3).mapM part with
  | [r, g, b] => return ⟨r, g, b⟩
  | few => throw (.fewChannels few.length)

def ofRgb (c : Rgb α) : Except Fault Colour := do
  let r ← nearest (c.red * 255.0)
  let g ← nearest (c.green * 255.0)
  let b ← nearest (c.blue * 255.0)
  return [r, g, b]

/-- Turns the hue by up to 20 degrees and moves saturation and brightness by up to 15 percent. -/
def shift (colour : Colour) : Action ν (Draws α) Colour := do
  let rgb : Rgb α ← Action.ofExcept colour.toRgb
  let hsv ← Action.ofExcept rgb.toHsv
  let turn ← Draws.uniform (-20.0) 20.0
  let hue := floorMod (hsv.hue + turn / 360.0) 1
  let more ← Draws.uniform (-15.0) 15.0
  let saturation := clamp (hsv.saturation + more / 100.0) 0 1
  let more ← Draws.uniform (-15.0) 15.0
  let value := clamp (hsv.value + more / 100.0) 0 1
  let shifted ← Action.ofExcept (Hsv.toRgb ⟨hue, saturation, value⟩)
  Action.ofExcept (ofRgb shifted)

end Colour
end Arboretum
