import Arboretum.Proofs.Graph.Openings
import Arboretum.Proofs.Graph.Release

/-!
No pair of points ever gets two braces, and asking for the braces of some segments leaves no opening
between them without one, so that asking again does nothing.
-/
namespace Arboretum

open Arboretum.Action

variable {α : Type}

namespace Graph

/-- The springs that brace a body are alive, in the order of the pairs that are noted as braced, and
those pairs are different. -/
structure Held (s : World α × Graph α) : Prop where
  sound : s.1.Sound
  alive : ∀ j ∈ s.2.joints, s.1.isAlive j.2
  pairs : s.2.braces.map s.1.pair? = s.2.braced.reverse.map some
  once : s.2.braced.Nodup

/-- Whoever else uses a world leaves the joints of a body and its braces alone. -/
structure Spared (w : World α) (g : Graph α) : Prop where
  joints : ∀ j ∈ g.joints, w.isAlive j.2
  braces : ∀ serial ∈ g.braces, w.springIsAlive serial

namespace Held

variable {w w' : World α} {g : Graph α} {s t : World α × Graph α}

theorem start (hw : w.Sound) (origin : Vec α) (scale : α) : Held (w, .new origin scale) :=
  ⟨hw, fun _ hj => absurd hj List.not_mem_nil, rfl, List.nodup_nil⟩

/-- The springs that are noted are alive. -/
theorem pair (h : Held s) {serial : Nat} (hs : serial ∈ s.2.braces) :
    ∃ pair ∈ s.2.braced, s.1.pair? serial = some pair := by
  have hmem := List.mem_map_of_mem (f := s.1.pair?) hs
  rw [h.pairs, List.mem_map] at hmem
  obtain ⟨pair, hpair, he⟩ := hmem
  exact ⟨pair, List.mem_reverse.mp hpair, he.symm⟩

theorem world (h : Held (w, g)) (hw : w'.Sound) (hjoints : ∀ j ∈ g.joints, w'.isAlive j.2)
    (hbonds : ∀ serial ∈ g.braces, w'.bond? serial = w.bond? serial) : Held (w', g) := by
  refine ⟨hw, hjoints, ?_, h.once⟩
  rw [← h.pairs]
  refine List.map_congr_left fun serial hs => ?_
  simp only [World.pair?, hbonds serial hs]

theorem lt (h : Held (w, g)) {serial : Nat} (hs : serial ∈ g.braces) : serial < w.links.size := by
  obtain ⟨pair, _, hpair⟩ := h.pair hs
  obtain ⟨bond, hb, _⟩ := Option.map_eq_some_iff.mp hpair
  exact World.bond?_lt hb

theorem addition (h : Held s) (hadd : Addition s t) : Held t := by
  cases hadd with
  | world hc hgrew =>
    refine h.world (hc.sound h.sound) (fun j hj => hgrew.alive _ (h.alive j hj)) ?_
    exact fun serial hs => hgrew.bonds serial (h.lt hs)
  | joint cell halive =>
    refine ⟨h.sound, fun j hj => ?_, h.pairs, h.once⟩
    rcases List.mem_append.mp hj with hj | hj
    · exact h.alive j hj
    · cases List.mem_singleton.mp hj
      exact halive
  | strand | hanging => exact ⟨h.sound, h.alive, h.pairs, h.once⟩
  | brace hpair hnew =>
    refine ⟨h.sound, h.alive, ?_, List.nodup_cons.mpr ⟨hnew, h.once⟩⟩
    rw [List.map_append, List.reverse_cons, List.map_append, h.pairs]
    simp [hpair]

theorem release (h : Held s) : Held (Graph.release s).state := by
  obtain ⟨_, hbody, hshed⟩ := release_shed h.sound s.2
  have hheld := Held.start hshed.sound s.2.origin s.2.scale
  rw [← hbody] at hheld
  exact hheld

end Held

/-- Every brace joins two points, and no two braces the same two. -/
structure OnePerPair (w : World α) (g : Graph α) : Prop where
  joins : ∀ serial ∈ g.braces, ∃ bond, w.bond? serial = some bond ∧ bond.a ≠ bond.b
  once : (g.braces.map w.pair?).Nodup

theorem Held.onePerPair {s : World α × Graph α} (h : Held s) : OnePerPair s.1 s.2 where
  joins serial hs := by
    obtain ⟨_, _, hpair⟩ := h.pair hs
    obtain ⟨bond, hb, _⟩ := Option.map_eq_some_iff.mp hpair
    exact ⟨bond, hb, (h.sound.ends serial bond hb).1⟩
  once := by
    rw [h.pairs]
    exact (List.nodup_reverse.mpr h.once).map (Option.some_injective _)

section
variable [Scalar α] {w : World α} {g : Graph α}

theorem Stands.held (h : Stands Spared w g) : Held (w, g) := by
  apply h.invariant Held
  · exact fun _ hs => hs.sound
  · exact fun w origin scale hw => .start hw.sound origin scale
  · exact fun _ _ hs hadd => hs.addition hadd
  · exact fun _ hs => hs.release
  · intro w g dt hs
    have hm := World.moved_step dt w
    exact hs.world (hm.sound hs.sound) (fun j hj => (hm.isAlive _).trans (hs.alive j hj))
      fun serial _ => hm.bond? serial
  · intro w w' g hs hc hspared
    refine hs.world (hc.sound hs.sound) hspared.joints fun serial hserial => ?_
    exact hc.bond? hs.sound (hs.lt hserial) (hspared.braces serial hserial)

/-- The tips of any two of some segments that leave a common joint, are joints of two points and are
not short have a brace between them. -/
def Complete (segments : List (Segment α)) (w : World α) (g : Graph α) : Prop :=
  ∀ a b, [a, b].Sublist segments → ∀ cell tipA tipB p q,
    Cell.of a.start = .ok cell → Cell.of b.start = .ok cell → (g.joint? cell).isSome →
    Cell.of a.tip = .ok tipA → g.joint? tipA = some p →
    Cell.of b.tip = .ok tipB → g.joint? tipB = some q → p ≠ q → ¬ Short g a b →
    ∃ serial ∈ g.braces, w.pair? serial = some (min p q, max p q)

theorem Held.complete {s : World α × Graph α} (h : Held s) {segments : List (Segment α)}
    {groups : List (Cell × List (Segment α))} (hgroups : grouped [] segments = .ok groups)
    (hsettled : ∀ o ∈ s.2.openings groups, Settled o.1 o.2 s.2) : Complete segments s.1 s.2 := by
  intro a b hab cell tipA tipB p q ha hb hjoint hA hp hB hq hne hshort
  obtain ⟨_, _, hA', hB', hheld⟩ := hsettled (a, b) (mem_openings hgroups hab ha hb hjoint)
  cases hA.symm.trans hA'
  cases hB.symm.trans hB'
  have hpair : (min p q, max p q) ∈ s.2.braced := by
    rcases hheld p q hp hq with hsame | hmem | hs
    · exact absurd hsame hne
    · exact hmem
    · exact absurd hs hshort
  have hmem : some (min p q, max p q) ∈ s.2.braces.map s.1.pair? := by
    rw [h.pairs]
    exact List.mem_map_of_mem (List.mem_reverse.mpr hpair)
  exact List.mem_map.mp hmem

/-- Whatever segments a body was built of and braced for, and in whatever order, no two points have
two braces and none is braced to itself. Asking for the braces of some segments keeps it so, and
returns if they can be read. When it returns, every opening between those segments has its brace,
and asking for them again makes nothing and leaves everything as it is. -/
theorem braces_unique_complete (h : Stands Spared w g) (segments : List (Segment α)) :
    let report := addBraces segments (w, g)
    OnePerPair w g ∧ OnePerPair report.state.1 report.state.2 ∧
      (Legible segments → report.result.isOk) ∧
      (report.result.isOk → Complete segments report.state.1 report.state.2 ∧
        (addBraces segments report.state).result = .ok [] ∧
        (addBraces segments report.state).state = report.state) := by
  intro report
  have hheld := h.held
  have hafter : Held report.state := (h.braces segments).held
  refine ⟨hheld.onePerPair, hafter.onePerPair, fun hlegible => ?_, fun hok => ?_⟩
  · obtain ⟨made, hmade, _⟩ :=
      (meets_addBraces_returns hlegible).returned (s := (w, g)) trivial
    rw [hmade]
    rfl
  · cases hmade : report.result with
    | error e =>
      rw [hmade] at hok
      cases hok
    | ok made =>
      have hstart : Bracing (w, g) (w, g) := .start hheld.sound hheld.alive
      obtain ⟨_, groups, hgroups, hsettled⟩ :=
        (meets_addBraces_settled segments (w, g) hstart).2 made hmade
      exact ⟨hafter.complete hgroups hsettled,
        addBraces_of_settled hgroups hsettled report.state.1⟩

end

/-- A stem that forks into two arms; one of them leaves its tip but for a rounding. -/
def fork : Segment Float := ⟨⟨0, 0⟩, ⟨0, -10.0⟩, 0, 1, -1.5, [], true⟩

def rightArm : Segment Float := ⟨⟨0, -10.0⟩, ⟨5.0, -15.0⟩, 1, 0.5, -0.8, [], false⟩

def leftArm : Segment Float := ⟨⟨0.001, -10.0⟩, ⟨-5.0, -15.0⟩, 1, 0.5, -2.3, [], false⟩

def forkTrunk : World Float × Graph Float :=
  (materialize fork none (World.new 0 Setting.default 1, .new 0 1)).state

def halfForked : World Float × Graph Float :=
  (materialize rightArm none (forkTrunk.1.step 0.5, forkTrunk.2)).state

def forked : World Float × Graph Float :=
  (materialize leftArm none (halfForked.1, halfForked.2)).state

def bracedFork : Report (Note Float) (World Float × Graph Float) (List Nat) :=
  addBraces [rightArm, leftArm] (forked.1, forked.2)

/-- The arms get one brace, and none the second time. -/
theorem braces_unique_complete_fork : Stands Spared forked.1 forked.2 ∧
    Legible [rightArm, leftArm] ∧ bracedFork.result.toOption = some [3] ∧
    Complete [rightArm, leftArm] bracedFork.state.1 bracedFork.state.2 ∧
    (addBraces [rightArm, leftArm] bracedFork.state).result = .ok [] := by
  have htrunk : Stands Spared forkTrunk.1 forkTrunk.2 := by
    unfold forkTrunk
    exact .segment (.start (.new 0 Setting.default 1) 0 1) fork none
  have hhalf : Stands Spared halfForked.1 halfForked.2 := by
    unfold halfForked
    exact (htrunk.step 0.5).segment rightArm none
  have hstands : Stands Spared forked.1 forked.2 := by
    unfold forked
    exact hhalf.segment leftArm none
  have hlegible : Legible [rightArm, leftArm] := by
    constructor <;> decide +kernel
  have hmade : bracedFork.result.toOption = some [3] := by decide +kernel
  have hall := braces_unique_complete hstands [rightArm, leftArm]
  dsimp only at hall
  rw [← bracedFork] at hall
  obtain ⟨_, _, hreturns, hdone⟩ := hall
  obtain ⟨hcomplete, hagain, _⟩ := hdone (hreturns hlegible)
  exact ⟨hstands, hlegible, hmade, hcomplete, hagain⟩

end Graph
end Arboretum
