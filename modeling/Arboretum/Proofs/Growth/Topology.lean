import Arboretum.Plant
import Arboretum.Proofs.Graph.Shaping
import Arboretum.Proofs.Growth.Course
import Arboretum.Proofs.Growth.Idle

/-!
A plant grows into one form, wherever it stands and however it is moved meanwhile. A crew that only
drafts the form of a body tells what any body comes to.
-/
namespace Arboretum

open Arboretum.Action Arboretum.Graph

variable {α σ : Type}

/-- An operation that changes a form follows one that changes a body of this form alike. -/
theorem Action.Follows.of_meets {ν τ ρ ρ' : Type} {shown : τ → σ → Prop} {x : Action ν τ ρ}
    {y : Action ν σ ρ'} {change : σ → σ} {b : ρ'} (hy : ∀ s, y s = ⟨.ok b, change s, []⟩)
    (h : ∀ s, Meets (shown · s) x (fun _ => True) fun _ t => shown t (change s)) :
    Follows shown x y fun _ _ => True := by
  intro t s hts a ha
  rw [hy]
  exact ⟨b, trivial, rfl, (h s t hts).2 a ha⟩

section
variable [Scalar α]

/-- A crew that keeps no body, but the form of one. -/
def Crew.drafting (scale : α) : Crew α (Form α) where
  build s index := Action.modify (Form.segment s index)
  brace segments := do
    Action.modify (Form.braceAll scale segments)
    return 0
  hang fruits := do
    Action.modify (Form.hang fruits)
    return 0

/-- Whatever a body comes to in its world, its draft comes to its form. -/
theorem Plant.follows_drafting [Scalar.Rooted α] (scale : α) :
    (Plant.crew : Crew α (World α × Graph α)).Follows (Embodies scale) (Crew.drafting scale) where
  build s index := .of_meets (fun _ => rfl) fun _ =>
    (meets_materialize_form s index).answer
  brace segments := .of_meets (fun _ => rfl) fun _ =>
    (meets_addBraces_form segments).answer
  hang fruits := .of_meets (fun _ => rfl) fun _ =>
    (meets_hangAll_form fruits).answer

namespace Growth

/-- What a plant is grown from, and the scale of its body. -/
structure Design (α : Type) where
  segments : Array (Segment α)
  fruits : List (Fruit α)
  rate : α
  divisor : α
  scale : α

/-- A plant that is grown by some calls, somewhere in some world. Between the calls the world takes
its steps, and others use it; they leave the joints alive, and pinned or not as they are. -/
inductive Raised (d : Design α) : List Call → Growth α × World α × Graph α → Prop where
  | start {g : Growth α} {w : World α}
      (hnew : Growth.new d.segments d.fruits d.rate d.divisor = .ok g) (hw : w.Reached)
      (origin : Vec α) : Raised d [] (g, w, .new origin d.scale)
  | use {calls : List Call} {p q : Growth α × World α × Graph α} (h : Raised d calls p)
      (call : Call) (he : Ends (call.use Plant.crew) p q) : Raised d (calls ++ [call]) q
  | step {calls : List Call} {g : Growth α} {w : World α} {body : Graph α}
      (h : Raised d calls (g, w, body)) (dt : α) : Raised d calls (g, w.step dt, body)
  | edit {calls : List Call} {g : Growth α} {w : World α} {body : Graph α}
      (h : Raised d calls (g, w, body)) (e : Edit α {p : Point α // w.Sees p} Spring)
      (hkept : ∀ j ∈ body.joints,
        (e.run Subtype.val id w).state.pinned? j.2 = w.pinned? j.2) :
      Raised d calls (g, (e.run Subtype.val id w).state, body)

/-- The growth and the form that some calls come to. -/
def drafted (scale : α) (g : Growth α) (calls : List Call) : Growth α × Form α :=
  calls.foldl (fun p call => (call.use (Crew.drafting scale) p).state) (g, .bare)

variable {d : Design α} {calls : List Call} {p q : Growth α × World α × Graph α}

/-- A plant after a call. -/
def called (call : Call) (p : Growth α × World α × Graph α) : Growth α × World α × Graph α :=
  (call.use Plant.crew p).state

theorem Raised.called (h : Raised d calls p) (call : Call)
    (hok : (call.use Plant.crew p).result.isOk) : Raised d (calls ++ [call]) (called call p) :=
  h.use call (.of_isOk hok)

theorem Raised.swayed (h : Raised d calls p) (dt : α) :
    Raised d calls (p.1, p.2.1.step dt, p.2.2) := by
  obtain ⟨g, w, body⟩ := p
  exact h.step dt

/-- A plant comes to its draft. -/
theorem Raised.drafted [Scalar.Rooted α] (h : Raised d calls p) :
    ∃ g, Growth.new d.segments d.fruits d.rate d.divisor = .ok g ∧
      Beside (Embodies d.scale) p (drafted d.scale g calls) := by
  induction h with
  | start hnew hw origin => exact ⟨_, hnew, rfl, .new hw.sound origin d.scale⟩
  | use _ call he ih =>
    obtain ⟨g, hnew, hdraft⟩ := ih
    refine ⟨g, hnew, ?_⟩
    rw [Growth.drafted, List.foldl_append]
    exact ((follows_use (Plant.follows_drafting d.scale) call).ends hdraft he).2
  | @step _ _ w body _ dt ih =>
    obtain ⟨g, hnew, hgrowth, hbody⟩ := ih
    have hmoved := World.moved_step dt w
    exact ⟨g, hnew, hgrowth, hbody.world (hmoved.sound hbody.sound)
      (fun j _ => hmoved.pinned? j.2) fun serial _ => hmoved.made? serial⟩
  | @edit _ _ w body _ e hkept ih =>
    obtain ⟨g, hnew, hgrowth, hbody⟩ := ih
    have hc : World.Changes (fun _ => True) w _ :=
      World.changes_run hbody.sound id Subtype.property e fun _ _ _ _ => trivial
    exact ⟨g, hnew, hgrowth, hbody.world (hc.sound hbody.sound) hkept
      fun serial hlt => hc.made? hbody.sound hlt⟩

/-- Two plants that are grown alike come to one growth, and their bodies embody one form. -/
theorem Raised.alike [Scalar.Rooted α] (hp : Raised d calls p) (hq : Raised d calls q) :
    p.1 = q.1 ∧ ∃ f, Embodies d.scale p.2 f ∧ Embodies d.scale q.2 f := by
  obtain ⟨g, hnew, hgrowth, hbody⟩ := hp.drafted
  obtain ⟨g', hnew', hgrowth', hbody'⟩ := hq.drafted
  cases hnew.symm.trans hnew'
  exact ⟨hgrowth.trans hgrowth'.symm, _, hbody, hbody'⟩

end Growth
end

namespace Growth

/-- Plants that are grown by the same calls from the same skeleton, at the same rate, in batches of
the same size and at the same scale, come to the same growth after every call, and their bodies have
one form: joints in the same cells, the same of them pinned, strands of the same numbers between the
same cells, and braces between the same cells and of the same length at rest. In exact arithmetic as
many fruits hang. Where they stand and in which worlds, and what else happens there, makes no
difference, as long as nobody takes their joints or pins them. -/
theorem topology_ignores_motion :
    (∀ {α : Type} [Scalar α] [Scalar.Rooted α] {d : Design α} {calls : List Call}
      {p q : Growth α × World α × Graph α}, Raised d calls p → Raised d calls q →
        p.1 = q.1 ∧ ∃ f, Shaped p.2 f ∧ Shaped q.2 f) ∧
    ∀ {d : Design ℝ} {calls : List Call} {p q : Growth ℝ × World ℝ × Graph ℝ},
      Raised d calls p → Raised d calls q →
        p.2.2.hangings.length = q.2.2.hangings.length := by
  constructor
  · intro α _ _ d calls p q hp hq
    obtain ⟨hgrowth, f, hbody, hbody'⟩ := hp.alike hq
    exact ⟨hgrowth, f, hbody.shaped, hbody'.shaped⟩
  · intro d calls p q hp hq
    obtain ⟨-, f, hbody, hbody'⟩ := hp.alike hq
    exact (hbody.fruits PointIndex.finds_real).trans (hbody'.fruits PointIndex.finds_real).symm

/-- The shoot, at twice its size. -/
def sapling : Design Float := ⟨shoots, [], 0.5, 50.0, 2.0⟩

/-- A sapling in a world of its own that stands still. -/
def sheltered : Growth Float × World Float × Graph Float :=
  called .tick (called .tick (called .roots
    (shoot, World.new 0 Setting.default 1, .new ⟨0, 0⟩ 2.0)))

/-- A world in which things fall, with bounds. -/
def moor : World Float := .new 1 ⟨⟨20.0, 95.0⟩, 0.02, 4, some ⟨⟨0, 0⟩, ⟨100.0, 100.0⟩⟩⟩ 2

/-- The same with a point in it. -/
def heath : World Float := (World.addPoint ⟨5.0, 5.0⟩ 1 false moor).state

def heathRooted : Growth Float × World Float × Graph Float :=
  called .roots (shoot, heath, .new ⟨30.0, 40.0⟩ 2.0)

/-- A sapling there that has swayed before it was built. -/
def exposed : Growth Float × World Float × Graph Float :=
  called .tick (called .tick (heathRooted.1, heathRooted.2.1.step 0.5, heathRooted.2.2))

/-- The joints have other numbers and other places, but the same cells, strands and brace. -/
theorem topology_ignores_motion_sapling :
    Raised sapling [.roots, .tick, .tick] sheltered ∧
      Raised sapling [.roots, .tick, .tick] exposed ∧
      sheltered.2.2.joints.map (·.2) = [0, 1, 2, 3] ∧
      exposed.2.2.joints.map (·.2) = [1, 2, 3, 4] ∧ exposed.2.2.braces = [3] ∧
      sheltered.1 = exposed.1 ∧ ∃ f, Shaped sheltered.2 f ∧ Shaped exposed.2 f := by
  have hnew : Growth.new sapling.segments sapling.fruits sapling.rate sapling.divisor =
      .ok shoot := rfl
  have hsheltered : Raised sapling [.roots, .tick, .tick] sheltered := by
    have hstart := Raised.start hnew (.new 0 Setting.default 1) ⟨0, 0⟩
    have hrooted := hstart.called .roots (by decide +kernel)
    have hgrown := hrooted.called .tick (by decide +kernel)
    exact hgrown.called .tick (by decide +kernel)
  have hheath : heath.Reached := by
    have hmoor : moor.Reached := .new 1 _ 2
    have hreached := hmoor.edit (.addPoint ⟨5.0, 5.0⟩ 1 false)
    rw [Edit.run, Action.map_apply] at hreached
    exact hreached
  have hexposed : Raised sapling [.roots, .tick, .tick] exposed := by
    have hstart := Raised.start hnew hheath ⟨30.0, 40.0⟩
    have hrooted : Raised sapling [.roots] heathRooted := hstart.called .roots (by decide +kernel)
    have hgrown := (hrooted.swayed 0.5).called .tick (by decide +kernel)
    exact hgrown.called .tick (by decide +kernel)
  obtain ⟨hgrowth, hform⟩ := topology_ignores_motion.1 hsheltered hexposed
  exact ⟨hsheltered, hexposed, by decide +kernel, by decide +kernel, by decide +kernel, hgrowth,
    hform⟩

end Growth
end Arboretum
