import Arboretum.Binary64
import Arboretum.Proofs.Graph.Release
import Arboretum.World.Step

/-!
Builders that share a world. Whatever they build, and however the world moves in between, each of
them owns what it made, so that releasing a body is exact.
-/
namespace Arboretum

open Arboretum.Action Function

variable {α : Type}

/-- A world with the bodies of its builders, and what each of them has made since it last let go of
its body. -/
structure Plot (α : Type) where
  world : World α
  bodies : Nat → Graph α
  made : Nat → Ledger

/-- What happens on a plot. -/
inductive Work (α : Type) where
  | segment (builder : Nat) (s : Segment α) (index : Option Int)
  | braces (builder : Nat) (segments : List (Segment α))
  | fruits (builder : Nat) (fruits : List (Fruit α))
  | release (builder : Nat)
  | step (dt : α)
  | push (p : Option (Point α)) (force : Vec α)

namespace Plot

/-- A plot on which nobody has built yet. -/
def start (w : World α) (origin : Nat → Vec α) (scale : Nat → α) : Plot α :=
  ⟨w, fun i => Graph.new (origin i) (scale i), fun _ => ⟨[], []⟩⟩

/-- A builder at work; what the world gives out meanwhile is what it makes. -/
def build {ρ : Type} (p : Plot α) (i : Nat) (x : Graph.Build α ρ) : Except Fault Unit × Plot α :=
  let report := x (p.world, p.bodies i)
  (report.result.map fun _ => (),
    { world := report.state.1
      bodies := update p.bodies i report.state.2
      made := update p.made i ((p.made i).grown p.world report.state.1) })

/-- A builder lets go of its body. -/
def release (p : Plot α) (i : Nat) : Except Fault Unit × Plot α :=
  let report := Graph.release (p.world, p.bodies i)
  (report.result,
    { world := report.state.1
      bodies := update p.bodies i report.state.2
      made := update p.made i ⟨[], []⟩ })

def work [Scalar α] : Work α → Plot α → Except Fault Unit × Plot α
  | .segment i s index, p => p.build i (Graph.materialize s index)
  | .braces i segments, p => p.build i (Graph.addBraces segments)
  | .fruits i fruits, p => p.build i (Graph.hangAll fruits)
  | .release i, p => p.release i
  | .step dt, p => (.ok (), { p with world := p.world.step dt })
  | .push q force, p =>
    let report := World.push q force p.world
    (report.result.map fun _ => (), { p with world := report.state })

/-- Every body owns what its builder made, and no two of them own the same. -/
structure Kept (p : Plot α) : Prop where
  sound : p.world.Sound
  owns : ∀ i, Graph.Owns (p.made i) [] p.world (p.bodies i)
  apart : ∀ i j, i ≠ j → (p.made i).Apart (p.made j)

variable {p : Plot α}

theorem Kept.start {w : World α} (hw : w.Sound) (origin : Nat → Vec α) (scale : Nat → α) :
    Kept (start w origin scale) where
  sound := hw
  owns i := .new (origin i) (scale i) w
  apart _ _ _ _ h := absurd h List.not_mem_nil

theorem Kept.same (h : Kept p) {w : World α} (hw : w.Sound) (hsame : p.world.Same w) :
    Kept { p with world := w } :=
  ⟨hw, fun i => (h.owns i).same hsame, h.apart⟩

theorem Kept.build (h : Kept p) (i : Nat) {ρ : Type} {x : Graph.Build α ρ}
    (hx : Keeps (Graph.Tended (p.made i) p.world [] []) x) : Kept (p.build i x).2 := by
  have hself : (p.made i).grown p.world p.world = p.made i := Ledger.grown_same (.refl p.world)
  have hstart : Graph.Tended (p.made i) p.world [] [] (p.world, p.bodies i) :=
    ⟨h.sound, .refl p.world, hself.symm ▸ h.owns i, fun _ hid => absurd hid List.not_mem_nil⟩
  obtain ⟨hsound, hgrew, howns, -⟩ := hx _ hstart
  have hother : ∀ j, j ≠ i → (p.made j).Apart
      ((p.made i).grown p.world (x (p.world, p.bodies i)).state.1) := by
    intro j hj id hid hm
    rcases Ledger.mem_points_grown.mp hm with hm | ⟨hge, -⟩
    · exact h.apart j i hj id hid hm
    · exact absurd (World.isAlive_lt ((h.owns j).alive id hid)) (Nat.not_lt_of_ge hge)
  refine ⟨hsound, fun j => ?_, fun j k hjk => ?_⟩
  · by_cases hj : j = i
    · subst j
      simp only [Plot.build, update_self]
      exact howns
    · simp only [Plot.build, update_of_ne hj]
      exact (h.owns j).beside hgrew howns (hother j hj)
  · by_cases hj : j = i
    · subst j
      have hk : k ≠ i := Ne.symm hjk
      simp only [Plot.build, update_self, update_of_ne hk]
      exact fun id hid hm => hother k hk id hm hid
    · by_cases hk : k = i
      · subst k
        simp only [Plot.build, update_self, update_of_ne hj]
        exact hother j hj
      · simp only [Plot.build, update_of_ne hj, update_of_ne hk]
        exact h.apart j k hjk

/-- Letting go of a body takes exactly what its builder made. -/
theorem Kept.released (h : Kept p) (i : Nat) :
    (p.release i).1 = .ok () ∧ Graph.Released (p.made i) p.world (p.release i).2.world := by
  obtain ⟨hok, -, hshed⟩ := Graph.release_shed h.sound (p.bodies i)
  exact ⟨hok, (h.owns i).released h.sound hshed⟩

theorem Kept.release (h : Kept p) (i : Nat) : Kept (p.release i).2 := by
  obtain ⟨-, hrel⟩ := h.released i
  obtain ⟨-, hbody, -⟩ := Graph.release_shed h.sound (p.bodies i)
  have hsound : (p.release i).2.world.Sound := hrel.sound
  refine ⟨hsound, fun j => ?_, fun j k hjk => ?_⟩
  · by_cases hj : j = i
    · subst j
      have hempty := (Kept.start hsound (fun _ => (p.bodies i).origin)
        fun _ => (p.bodies i).scale).owns i
      simp only [Plot.release, update_self, hbody]
      exact hempty
    · simp only [Plot.release, update_of_ne hj]
      exact (h.owns j).spared (h.owns i) (h.apart j i hj) h.sound hrel
  · intro id hj hk
    have hback : ∀ m, id ∈ (update p.made i ⟨[], []⟩ m).points → id ∈ (p.made m).points := by
      intro m hm
      by_cases hmi : m = i
      · subst m
        rw [update_self] at hm
        exact absurd hm List.not_mem_nil
      · rwa [update_of_ne hmi] at hm
    exact h.apart j k hjk id (hback j hj) (hback k hk)

section
variable [Scalar α]

theorem Kept.work (h : Kept p) (event : Work α) : Kept (Plot.work event p).2 := by
  cases event with
  | segment i s index => exact h.build i (Graph.keeps_materialize s index)
  | braces i segments => exact h.build i (Graph.keeps_addBraces segments)
  | fruits i fruits => exact h.build i (Graph.keeps_hangAll fruits)
  | release i => exact h.release i
  | step dt =>
    have hmoved := World.moved_step dt p.world
    exact h.same (hmoved.sound h.sound) hmoved.same
  | push q force =>
    exact h.same (h.sound.push q force) (World.same_push q force p.world)

/-- However builders have shared a world, one that lets go of its body takes out every point and
spring that it made, and leaves all others as they are. -/
theorem release_exact {w : World α} (hw : w.Reached) (origin : Nat → Vec α) (scale : Nat → α)
    (events : List (Work α)) (i : Nat) :
    let p := (history Plot.work events (start w origin scale)).2
    (p.release i).1 = .ok () ∧ Graph.Released (p.made i) p.world (p.release i).2.world := by
  have hkept : Kept (history Plot.work events (start w origin scale)).2 :=
    history_keeps Kept (fun event _ p hp => Kept.work hp event) (.start hw.sound origin scale)
  exact hkept.released i

end

def twig (x y : Float) : Segment Float where
  start := 0
  tip := ⟨x, y⟩
  depth := 0
  thickness := 1
  heading := 0
  colour := []
  isRoot := false

/-- Two builders in one world, with a strand that has no number and one whose number is taken. -/
def sharing : List (Work Float) :=
  [.segment 0 (twig 0 4) none, .segment 1 (twig 0 4) (some 0), .segment 0 (twig 3 4) (some 0),
    .segment 0 (twig 3 4) (some 0), .step 0.5]

def shared : Plot Float :=
  (history Plot.work sharing (start (World.new 0 Setting.default 1) (fun _ => 0) fun _ => 1)).2

theorem release_exact_shared : (World.new 0 (Setting.default : Setting Float) 1).Reached ∧
    shared.made 0 = ⟨[0, 1, 4], [0, 2, 3]⟩ ∧
    Graph.Released ⟨[0, 1, 4], [0, 2, 3]⟩ shared.world (shared.release 0).2.world := by
  have hw : (World.new 0 (Setting.default : Setting Float) 1).Reached := .new 0 Setting.default 1
  have hmade : shared.made 0 = ⟨[0, 1, 4], [0, 2, 3]⟩ := by decide +kernel
  have hrel := (release_exact hw (fun _ => 0) (fun _ => 1) sharing 0).2
  rw [← shared, hmade] at hrel
  exact ⟨hw, hmade, hrel⟩

end Plot
end Arboretum
