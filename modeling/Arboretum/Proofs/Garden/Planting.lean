import Arboretum.Proofs.Garden.Lasting
import Arboretum.Proofs.Graph.Building
import Arboretum.Proofs.Growth.Books
import Arboretum.Proofs.Upright

/-!
What a planting that fails leaves behind. The bed, the schedule and the cooldown are as before it,
and so is the world, unless a root of the plant had got a joint by then: what has been built of a
plant that fails stays in the world.
-/
namespace Arboretum

open Arboretum.Action

variable {α : Type}

/-- Two states of a world that its holders cannot tell apart. -/
structure World.LooksLike (w' w : World α) : Prop where
  points : ∀ id, w'.particle? id = w.particle? id
  springs : ∀ serial, w'.bond? serial = w.bond? serial
  count : w'.count = w.count
  springCount : w'.springs.size = w.springs.size

theorem World.LooksLike.refl (w : World α) : w.LooksLike w :=
  ⟨fun _ => rfl, fun _ => rfl, rfl, rfl⟩

namespace Growth

variable {σ : Type} {crew : Crew α σ} {segments : Array (Segment α)}

/-- Building a segment does to the state of the crew what the crew does. -/
theorem meets_build (crew : Crew α σ) (pre kept post : σ → Prop) {index : Nat}
    (hnone : segments[index]? = none → ∀ s, pre s → post s)
    (hsome : ∀ segment, segments[index]? = some segment →
      Meets pre (crew.build segment index) kept fun _ => post) :
    Meets (fun t => t.1.segments = segments ∧ pre t.2) (build crew index) (fun t => kept t.2)
      fun _ t => t.1.segments = segments ∧ post t.2 := by
  unfold build
  refine meets_plan.bind fun g => ?_
  refine Meets.assume (g.segments = segments) (fun _ ht => ht.1 ▸ ht.2.1) fun hg => ?_
  rw [hg]
  cases hs : segments[index]? with
  | none => exact .pure fun _ ht => ⟨ht.2.1, hnone hs _ ht.2.2⟩
  | some segment =>
    have hcrew : Meets (fun t : Growth α × σ => t.1.segments = segments ∧ pre t.2)
        (crew.build segment index).onSnd (fun t => kept t.2)
        fun _ t => t.1.segments = segments ∧ post t.2 := by
      rintro ⟨g, s⟩ ⟨hg, ht⟩
      obtain ⟨hstop, hdone⟩ := hsome segment hs s ht
      exact ⟨hstop, fun a ha => ⟨hg, hdone a ha⟩⟩
    exact (hcrew.of_pre fun _ ht => ht.2).bind fun _ => .modify fun _ ht => ht

/-- What building the roots of a fresh plan brings about, placing them does. -/
theorem placeRoots_kept (kept : σ → Prop) {growth : Growth α} (hstage : growth.stage = .seeded)
    {s : σ} (h : Meets (fun t => t.1.segments = growth.segments ∧ t.2 = s)
      (forEach growth.roots (build crew)) (fun t => kept t.2) fun _ t => kept t.2) :
    kept (placeRoots crew (growth, s)).state.2 := by
  have hplace : Meets (fun t => t = (growth, s)) (placeRoots crew) (fun t => kept t.2)
      fun _ t => kept t.2 := by
    unfold placeRoots
    refine meets_plan.bind fun g => ?_
    refine Meets.assume (g = growth) (fun _ ht => ht.1.trans (congrArg Prod.fst ht.2)) fun hg => ?_
    rw [hg, if_neg (not_not_intro hstage)]
    refine Meets.bind (h.of_pre fun _ ht => ?_) fun _ => ?_
    · rw [ht.2]
      exact ⟨rfl, rfl⟩
    · exact Meets.answer (.modify fun _ ht => ht)
  obtain ⟨hstop, hdone⟩ := hplace _ rfl
  rcases hr : (placeRoots crew (growth, s)).result with e | count
  · exact hstop e hr
  · exact hdone count hr

end Growth

/-- What is tried on a plant cannot stop its caller. -/
theorem Plant.tried_apply {ρ : Type} (x : Plant.Care α ρ) (s : World α × Plant α) :
    Plant.tried x s = ⟨.ok ((x s).result, (x s).state.2), (x s).state, (x s).notes⟩ := by
  rcases hx : x s with ⟨r, t, notes⟩
  simp [Plant.tried, attempt, hx, Except.map]

namespace Garden

theorem caring_result {ρ : Type} (p : Plant α) (x : Plant.Care α ρ) (g : Garden α) :
    (caring p x g).result = .ok ((x (g.world, p)).result, (x (g.world, p)).state.2) :=
  congrArg Report.result (Plant.tried_apply x (g.world, p))

theorem caringAmong_result {ρ : Type} (before : List (Plant α)) (p : Plant α)
    (after : List (Plant α)) (x : Plant.Care α ρ) (g : Garden α) :
    (caringAmong before p after x g).result =
      .ok ((x (g.world, p)).result, (x (g.world, p)).state.2) :=
  congrArg Report.result (Plant.tried_apply x (g.world, p))

theorem caringAmong_state {ρ : Type} (before : List (Plant α)) (p : Plant α)
    (after : List (Plant α)) (x : Plant.Care α ρ) (g : Garden α) :
    (caringAmong before p after x g).state = { g with
      world := (x (g.world, p)).state.1
      plants := before ++ (x (g.world, p)).state.2 :: after } := by
  simp only [caringAmong, tending, mapNotes, on, Plant.tried_apply x (g.world, p), Report.within]

/-- Retiring a plant cannot fail, though its destruction may. -/
theorem retire_result (p : Plant α) (g : Garden α) : (retire p g).result = .ok () := by
  unfold retire
  rw [bind_of_ok (caring_result p Plant.destroy g)]
  cases (Plant.destroy (g.world, p)).result with
  | error cause => rfl
  | ok done => rfl

/-- Only an empty bed keeps a garden from making room. -/
theorem evictOldest_failed {g : Garden α} {e : Fault} (h : (evictOldest g).result = .error e) :
    (evictOldest g).state = g := by
  unfold evictOldest at h ⊢
  cases hp : g.plants with
  | nil => simp [hp]
  | cons oldest rest =>
    rw [read_bind] at h
    simp only [hp] at h
    cases (retire_result oldest { g with plants := rest }).symm.trans h

end Garden

variable [Scalar α]

/-- The first joint of a body is a new point of its world. -/
theorem Graph.meets_firstJoint {w : World α} (hw : w.Ready) {g : Graph α} (hg : g.joints = [])
    (cell : Cell) (spot : Vec α) (mass : α) (fixed : Bool) :
    Meets (fun s => s = (w, g)) (jointAt cell spot mass fixed)
      (fun s => s.1.Gave w.slots.size) fun _ s => s.1.Gave w.slots.size := by
  obtain ⟨notes, he⟩ := World.addPoint_apply spot mass fixed w
  rw [if_neg (Nat.not_le_of_gt (World.count_roomy_lt hw))] at he
  have hgave : (w.roomy.seat (.atRest spot (World.massOf mass) fixed)).Gave w.slots.size := by
    refine ⟨hw.toSound.roomy.seat (World.count_roomy_lt hw) _, ?_⟩
    have hsize := (World.same_roomy w).points
    simp only [World.seat, Array.size_push]
    omega
  have hnone : g.joint? cell = none := by simp [joint?, hg]
  have hmade : Meets (fun s => s = (w, g)) (inWorld (World.addPoint spot mass fixed))
      (fun s => s.1.Gave w.slots.size) fun _ s => s.1.Gave w.slots.size := by
    intro s hs
    simp only [hs, inWorld_result, inWorld_state, he]
    exact ⟨fun _ _ => hgave, fun _ _ => hgave⟩
  apply meets_jointAt_of
  case hnew => exact fun _ => hmade
  case hlost =>
    intro id e hj
    cases hnone.symm.trans hj
  case hfound =>
    intro id hj
    cases hnone.symm.trans hj
  case hpinned =>
    intro id p hj
    cases hnone.symm.trans hj

namespace Growth

/-- The segments that anchor a plant from the start. -/
def anchors (g : Growth α) : List (Segment α) := g.roots.filterMap (g.segments[·]?)

/-- Is there a joint made before building some segments ends or stops? -/
def takesHold : List (Segment α) → Bool
  | [] => false
  | s :: rest =>
    match s.spans with
    | .ok true => true
    | .ok false => takesHold rest
    | .error _ => false

theorem takesHold_idle {segments : Array (Segment α)} {index : Nat} {rest : List Nat}
    (hidle : ∀ s, segments[index]? = some s → s.spans = .ok false) :
    takesHold ((index :: rest).filterMap (segments[·]?)) =
      takesHold (rest.filterMap (segments[·]?)) := by
  cases hs : segments[index]? with
  | none => rw [List.filterMap_cons_none hs]
  | some s => rw [List.filterMap_cons_some hs, takesHold, hidle s hs]

end Growth

namespace Plant

variable {segments : Array (Segment α)} {w : World α} {g : Graph α}

/-- Work on a segment stops before it changes anything, or has nothing to build, or makes a
joint. -/
theorem crew_cases (segment : Segment α) (index : Nat) :
    (∃ e, segment.spans = .error e ∧ crew.build segment index = fail e) ∨
    (segment.spans = .ok false ∧ ∃ n, crew.build segment index = Action.note n) ∨
    (segment.spans = .ok true ∧ ∀ (w : World α) (g : Graph α), w.Ready → g.joints = [] →
      Meets (fun s => s = (w, g)) (crew.build segment index)
        (fun s => s.1.Gave w.slots.size) fun _ s => s.1.Gave w.slots.size) := by
  have hbuild : crew.build segment index = (do
    let _ ← Graph.materialize segment (some index)) := rfl
  have hcases (n : Nat) := Graph.materialize_cases (World.lasting_gave (α := α) n) segment
    (some index)
  simp only [hbuild]
  obtain ⟨e, hs, he⟩ | ⟨hs, n, he⟩ | ⟨hs, _⟩ := hcases 0
  · exact .inl ⟨e, hs, by rw [he, fail_bind]⟩
  · exact .inr (.inl ⟨hs, n, by simp only [he, bind_assoc, pure_bind, bind_pure_unit]⟩)
  · refine .inr (.inr ⟨hs, fun w g hw hg => ?_⟩)
    obtain ⟨_, he, _⟩ | ⟨he, _⟩ | ⟨_, hmeets⟩ := hcases w.slots.size
    · cases hs.symm.trans he
    · cases hs.symm.trans he
    · apply Meets.answer
      exact hmeets _ fun cell spot mass => Graph.meets_firstJoint hw hg cell spot mass _

/-- Where no segment leads from one cell into another there is nothing to build. -/
theorem idle_build {index : Nat} (hidle : ∀ s, segments[index]? = some s → s.spans = .ok false)
    (kept : World α × Graph α → Prop) (s : World α × Graph α) :
    Meets (fun t => t.1.segments = segments ∧ t.2 = s) (Growth.build crew index)
      (fun t => kept t.2) fun _ t => t.1.segments = segments ∧ t.2 = s := by
  refine Growth.meets_build crew (fun t => t = s) kept (fun t => t = s) (fun _ _ ht => ht) ?_
  intro segment hs
  obtain ⟨e, he, _⟩ | ⟨_, n, he⟩ | ⟨he, _⟩ := crew_cases segment index
  · cases (hidle segment hs).symm.trans he
  · exact he ▸ .note n
  · cases (hidle segment hs).symm.trans he

/-- A segment that cannot be read stops the building before it changes anything. -/
theorem stopped_build {index : Nat} {segment : Segment α} (hs : segments[index]? = some segment)
    {e : Fault} (hspans : segment.spans = .error e) (s : World α × Graph α) :
    Meets (fun t => t.1.segments = segments ∧ t.2 = s) (Growth.build crew index)
      (fun t => t.2 = s) fun _ _ => False := by
  have hbuild := Growth.meets_build crew (fun t => t = s) (fun t => t = s)
    (fun _ => False) (fun hnone => by cases hs.symm.trans hnone) fun segment' hs' => by
      cases hs.symm.trans hs'
      obtain ⟨e, _, he⟩ | ⟨he, _⟩ | ⟨he, _⟩ := crew_cases segment index
      · exact he ▸ .fail fun _ ht => ht
      · cases hspans.symm.trans he
      · cases hspans.symm.trans he
  exact hbuild.weaken fun _ _ ht => ht.2

theorem lasting_build {index : Nat} {segment : Segment α} (hs : segments[index]? = some segment)
    (hspans : segment.spans = .ok true) (hw : w.Ready) (hg : g.joints = []) :
    Meets (fun t => t.1.segments = segments ∧ t.2 = (w, g)) (Growth.build crew index)
      (fun t => t.2.1.Gave w.slots.size) fun _ t => t.2.1.Gave w.slots.size := by
  have hbuild := Growth.meets_build crew (fun t => t = (w, g)) (fun t => t.1.Gave w.slots.size)
    (fun t => t.1.Gave w.slots.size) (fun hnone => by cases hs.symm.trans hnone)
    fun segment' hs' => by
      cases hs.symm.trans hs'
      obtain ⟨_, he, _⟩ | ⟨he, _⟩ | ⟨_, hmeets⟩ := crew_cases segment index
      · cases hspans.symm.trans he
      · cases hspans.symm.trans he
      · exact hmeets w g hw hg
  exact hbuild.weaken fun _ _ ht => ht.2

/-- Roots that do not take hold leave a world and a body alone. -/
theorem barren_roots {roots : List Nat}
    (hroots : Growth.takesHold (roots.filterMap (segments[·]?)) = false) (s : World α × Graph α) :
    Meets (fun t => t.1.segments = segments ∧ t.2 = s) (forEach roots (Growth.build crew))
      (fun t => t.2 = s) fun _ t => t.2 = s := by
  induction roots with
  | nil => exact .pure fun _ ht => ht.2
  | cons index rest ih =>
    by_cases hidle : ∀ s, segments[index]? = some s → s.spans = .ok false
    · rw [Growth.takesHold_idle hidle] at hroots
      exact (idle_build hidle (fun t => t = s) s).bind fun _ => (ih hroots).bind fun _ =>
        .pure fun _ ht => ht
    · simp only [not_forall] at hidle
      obtain ⟨segment, hs, hspans⟩ := hidle
      rw [List.filterMap_cons_some hs, Growth.takesHold] at hroots
      cases he : segment.spans with
      | error e => exact (stopped_build hs he s).bind fun _ _ ht => ht.elim
      | ok spans => cases spans <;> simp [he] at hspans hroots

/-- Roots that take hold have points made in a world. -/
theorem lasting_roots {roots : List Nat}
    (hroots : Growth.takesHold (roots.filterMap (segments[·]?)) = true) (hw : w.Ready)
    (hg : g.joints = []) :
    Meets (fun t => t.1.segments = segments ∧ t.2 = (w, g)) (forEach roots (Growth.build crew))
      (fun t => t.2.1.Gave w.slots.size) fun _ t => t.2.1.Gave w.slots.size := by
  induction roots with
  | nil => cases hroots
  | cons index rest ih =>
    by_cases hidle : ∀ s, segments[index]? = some s → s.spans = .ok false
    · rw [Growth.takesHold_idle hidle] at hroots
      exact (idle_build hidle (fun s => s.1.Gave w.slots.size) (w, g)).bind fun _ =>
        (ih hroots).answer
    · simp only [not_forall] at hidle
      obtain ⟨segment, hs, hspans⟩ := hidle
      rw [List.filterMap_cons_some hs, Growth.takesHold] at hroots
      have hrest : Keeps (fun t : Growth α × (World α × Graph α) => t.2.1.Gave w.slots.size)
          (forEach rest (Growth.build crew)) :=
        .forEach rest fun i _ => Growth.keeps_build (lasting_crew (World.lasting_gave _)) i
      cases he : segment.spans with
      | error e => simp [he] at hroots
      | ok spans =>
        cases spans with
        | false => exact absurd he hspans
        | true =>
          exact (lasting_build hs he hw hg).bind fun _ => hrest.meets.bind fun _ =>
            .pure fun _ ht => ht

/-- A plant of which nothing has been built. -/
structure Sown (p : Plant α) : Prop where
  stage : p.growth.stage = .seeded
  graph : ∃ origin scale, p.graph = Graph.new origin scale

/-- A new plan and an empty body. -/
theorem of_sow_ok {order : Planting α} {d : Draws α} {p : Plant α}
    (h : (sow order d).result = .ok p) :
    (∃ segments fruits, Growth.new segments fruits order.rate order.divisor = .ok p.growth) ∧
      p.graph = Graph.new order.spot p.scale ∧ p.drill = Drill.none ∧ p.destroyed = false ∧
      p.ownsWorld = order.ownsWorld := by
  unfold sow at h
  obtain ⟨id, _, h⟩ := of_bind_ok h
  obtain ⟨⟨grammar, thickness⟩, _, h⟩ := of_bind_ok h
  obtain ⟨⟨_, walk⟩, _, h⟩ := of_bind_ok h
  obtain ⟨scale, _, h⟩ := of_bind_ok h
  obtain ⟨growth, hgrowth, h⟩ := of_bind_ok h
  cases h
  exact ⟨⟨walk.segments, walk.fruits.toList, hgrowth⟩, rfl, rfl, rfl, rfl⟩

theorem sown_of_sow {order : Planting α} {d : Draws α} {p : Plant α}
    (h : (sow order d).result = .ok p) : Sown p := by
  obtain ⟨⟨segments, fruits, hgrowth⟩, hgraph, -⟩ := of_sow_ok h
  obtain ⟨_, hnew⟩ := Growth.of_new hgrowth
  exact ⟨hnew ▸ rfl, order.spot, p.scale, hgraph⟩

theorem tended_crew {l : Ledger} {w : World α} :
    (crew (α := α)).Keeps (Graph.Tended l w [] []) where
  build s _ := .bind (Graph.keeps_materialize s _) fun _ => .pure _
  brace segments := .bind (Graph.keeps_addBraces segments) fun _ => .pure _
  hang fruits := .bind (Graph.keeps_hangAll fruits) fun _ => .pure _

/-- Placing the roots of a sown plant leaves its world as it looks just if no root takes hold. -/
theorem placeRoots_looksLike {p : Plant α} (hp : Sown p) (hw : w.Ready) :
    (growing (Growth.placeRoots crew) (w, p)).state.1.LooksLike w ↔
      Growth.takesHold p.growth.anchors = false := by
  obtain ⟨origin, scale, hgraph⟩ := hp.graph
  have hstate : (growing (Growth.placeRoots crew) (w, p)).state.1 =
    (Growth.placeRoots crew (p.growth, (w, p.graph))).state.2.1 := rfl
  rw [hstate, hgraph]
  cases hroots : Growth.takesHold p.growth.anchors with
  | false =>
    have hsame : (Growth.placeRoots crew (p.growth, (w, Graph.new origin scale))).state.2 =
        (w, Graph.new origin scale) :=
      Growth.placeRoots_kept (fun s => s = (w, Graph.new origin scale)) hp.stage
        (barren_roots hroots _)
    rw [hsame]
    exact iff_of_true (.refl w) rfl
  | true =>
    have hgave := Growth.placeRoots_kept (fun s : World α × Graph α => s.1.Gave w.slots.size)
      hp.stage (lasting_roots hroots hw (g := Graph.new origin scale) rfl)
    have htended := Growth.keeps_placeRoots (tended_crew (l := ⟨[], []⟩) (w := w))
      (p.growth, (w, Graph.new origin scale)) (.new hw.toSound origin scale)
    refine iff_of_false (fun hlooks => ?_) (by simp)
    -- the first new point of the world is alive, as nothing was removed since
    have hnew : w.slots.size ∈ (Ledger.grown ⟨[], []⟩ w
        (Growth.placeRoots crew (p.growth, (w, Graph.new origin scale))).state.2.1).points :=
      Ledger.mem_points_grown.mpr (.inr ⟨Nat.le_refl _, hgave.given⟩)
    have halive := htended.owns.alive _ hnew
    rw [← htended.sound.particle?_isSome, hlooks.points, hw.toSound.particle?_isSome] at halive
    exact absurd (World.isAlive_lt halive) (Nat.lt_irrefl _)

theorem plant_of_error {order : Planting α} {d : Draws α} {e : Fault}
    (h : (sow order d).result = .error e) : (plant order (w, d)).state.1 = w := by
  have hsow : ((sow order).onSnd (w, d)).result = .error e := h
  unfold plant
  rw [bind_of_error hsow]
  rfl

theorem plant_of_ok {order : Planting α} {d : Draws α} {p : Plant α}
    (h : (sow order d).result = .ok p) :
    (plant order (w, d)).state.1 = (growing (Growth.placeRoots crew) (w, p)).state.1 := by
  have hsow : ((sow order).onSnd (w, d)).result = .ok p := h
  unfold plant
  rw [bind_of_ok hsow]
  have hstate : ((sow order).onSnd (w, d)).state = (w, (sow order d).state) := rfl
  rw [hstate]
  cases hr : (growing (Growth.placeRoots crew) (w, p)).result <;>
    simp [on, Report.within, tried_apply, hr]

/-- Planting leaves the world as it looks unless a plant is sown of which a root takes hold. -/
theorem plant_looksLike (hw : w.Ready) (order : Planting α) (d : Draws α) :
    (plant order (w, d)).state.1.LooksLike w ↔
      ∀ p, (sow order d).result = .ok p → Growth.takesHold p.growth.anchors = false := by
  cases hsow : (sow order d).result with
  | error e =>
    rw [plant_of_error hsow]
    exact iff_of_true (.refl w) fun _ h => by cases h
  | ok p =>
    rw [plant_of_ok hsow, placeRoots_looksLike (sown_of_sow hsow) hw]
    constructor
    · intro h q hq
      cases hq
      exact h
    · intro h
      exact h p rfl

end Plant

namespace Garden

variable {g : Garden α}

/-- How a garden has a plant planted. -/
def planting (g : Garden α) (spot : Vec α) (seed : Seed α) : Planting α where
  spot := spot
  seed := seed
  rate := g.rate
  divisor := g.divisor
  scale := none
  scaleRange := g.scaleRange
  ownsWorld := false

/-- The plant that a planting sows; nothing of it is built. -/
def seedling (spot : Vec α) (kind : Option String) (grammar : Option (Grammar α)) :
    Tending α (Plant α) := do
  let choice ← choice kind grammar
  let g ← Action.read
  drawing (Plant.sow (g.planting spot choice.2))

theorem choice_state (kind : Option String) (grammar : Option (Grammar α)) (g : Garden α) :
    ∃ draws, (choice kind grammar g).state = { g with draws } := by
  have hdrawn : Keeps (fun s => ∃ draws, s = { g with draws }) (drawing Preset.choose) := by
    rintro _ ⟨draws, rfl⟩
    exact ⟨_, rfl⟩
  have hchoice : Keeps (fun s => ∃ draws, s = { g with draws }) (choice kind grammar) := by
    unfold choice
    split
    · exact .pure _
    · exact .pure _
    · refine .bind (.bind .read fun g => ?_) fun kind => .pure _
      split
      · exact .pure _
      · exact .bind hdrawn fun _ => .pure _
  exact hchoice g ⟨g.draws, rfl⟩

theorem grow_state (spot : Vec α) (seed : Seed α) (g : Garden α) :
    ∃ draws, (grow spot seed g).state = { g with
      world := (Plant.plant (g.planting spot seed) (g.world, g.draws)).state.1, draws } :=
  ⟨_, rfl⟩

/-- A planting that fails changes nothing after the plant has been tried. -/
theorem settle_failed {g₀ : Garden α} {spot : Vec α} {choice : Option String × Seed α}
    (hfail : ∀ p, (settle g₀ spot choice g).result ≠ .ok (some p)) :
    (settle g₀ spot choice g).state = (grow spot choice.2 g).state := by
  have hgrow : ((grow spot choice.2).attempt g).result = .ok (grow spot choice.2 g).result := rfl
  have hstate : ((grow spot choice.2).attempt g).state = (grow spot choice.2 g).state := rfl
  unfold settle at hfail ⊢
  rw [bind_of_ok hgrow, hstate] at hfail ⊢
  cases hr : (grow spot choice.2 g).result with
  | error cause => rfl
  | ok p =>
    simp only [hr] at hfail ⊢
    by_cases hfull : g₀.maxPlants ≤ g₀.plants.length
    · simp only [if_pos hfull] at hfail ⊢
      cases he : (evictOldest (grow spot choice.2 g).state).result with
      | ok done =>
        rw [bind_of_ok he] at hfail
        exact absurd rfl (hfail p)
      | error e =>
        rw [bind_of_error he]
        exact evictOldest_failed he
    · simp only [if_neg hfull] at hfail
      exact absurd rfl (hfail p)

/-- A planting that gives no plant leaves the bed, the cooldown and the schedule alone. The world
looks as before just if nothing was sown, or no root of what was sown took hold. -/
theorem createPlant_failed (hg : g.Reached) {spot : Vec α} {kind : Option String}
    {grammar : Option (Grammar α)}
    (hfail : ∀ p, (createPlant spot kind grammar g).result ≠ .ok (some p)) :
    (createPlant spot kind grammar g).state.plants = g.plants ∧
      (createPlant spot kind grammar g).state.lastPlanting = g.lastPlanting ∧
      (createPlant spot kind grammar g).state.pending = g.pending ∧
      ((createPlant spot kind grammar g).state.world.LooksLike g.world ↔
        g.isCooling ∨ ∀ p, (seedling spot kind grammar g).result = .ok p →
          Growth.takesHold p.growth.anchors = false) := by
  by_cases hcool : g.isCooling
  · have hnone : createPlant spot kind grammar g = ⟨.ok none, g, []⟩ := by
      rw [createPlant_eq, read_bind, if_pos hcool, pure_apply]
    rw [hnone]
    exact ⟨rfl, rfl, rfl, iff_of_true (.refl _) (.inl hcool)⟩
  have hsown : createPlant spot kind grammar g = (choice kind grammar >>= settle g spot) g := by
    rw [createPlant_eq, read_bind, if_neg hcool]
  rw [hsown] at hfail ⊢
  obtain ⟨draws, hchoice⟩ := choice_state kind grammar g
  cases hr : (choice kind grammar g).result with
  | error e =>
    have hnone : (seedling spot kind grammar g).result = .error e := by
      unfold seedling
      rw [bind_of_error hr]
    rw [bind_of_error hr, hchoice, hnone]
    exact ⟨rfl, rfl, rfl, iff_of_true (.refl _) (.inr fun _ h => by cases h)⟩
  | ok choice =>
    have hsow : (seedling spot kind grammar g).result =
        (Plant.sow (g.planting spot choice.2) draws).result := by
      unfold seedling
      rw [bind_of_ok hr, hchoice]
      rfl
    rw [bind_of_ok hr, hchoice] at hfail
    rw [bind_of_ok hr, hchoice, hsow]
    obtain ⟨draws', hgrow⟩ := grow_state spot choice.2 { g with draws }
    rw [settle_failed hfail, hgrow, or_iff_right hcool]
    exact ⟨rfl, rfl, rfl, Plant.plant_looksLike hg.ready (g.planting spot choice.2) draws⟩

end Garden

namespace Upright

open Garden

/-- A stem of one segment, after which the heading is lost. -/
def astray : Grammar Upright where
  name := "astray"
  start := ['F', '+', 'F']
  rules := []
  angle := lost
  iterations := 0
  fruitProbability := 0
  colourVaries := false
  stemColour := Grammar.defaultFruitColour
  leafColour := Grammar.defaultFruitColour
  fruitColour := Grammar.defaultFruitColour
  stemThickness := 4.0

def bare : Garden Upright :=
  .new 800.0 600.0 18 0.6 0.03 (0.6, 1.8) 50.0 (Draws.cycle #[0.5]) false

def attempted : Report (Entry Upright) (Garden Upright) (Option (Plant Upright)) :=
  createPlant ⟨100.0, 590.0⟩ none (some astray) bare

theorem attempted_fails (p : Plant Upright) : attempted.result ≠ .ok (some p) := by
  have hnone : attempted.result.toOption.join.isNone := by decide +kernel
  intro hp
  rw [hp] at hnone
  cases hnone

theorem createPlant_failed_astray :
    bare.Reached ∧ (∀ p, attempted.result ≠ .ok (some p)) ∧
      attempted.state.plants = bare.plants ∧ attempted.state.lastPlanting = bare.lastPlanting ∧
      attempted.state.pending = bare.pending ∧
      (attempted.state.world.LooksLike bare.world ↔
        bare.isCooling ∨ ∀ p, (seedling ⟨100.0, 590.0⟩ none (some astray) bare).result = .ok p →
          Growth.takesHold p.growth.anchors = false) := by
  have hbare : bare.Reached := .new _ _ _ _ _ _ _ _ _
  have hfails := attempted_fails
  unfold attempted at hfails ⊢
  exact ⟨hbare, hfails, createPlant_failed hbare hfails⟩

/-- The planting fails at the second segment, and the first one stays in the world. -/
theorem astray_stays :
    bare.Reached ∧ (∀ p, attempted.result ≠ .ok (some p)) ∧
      bare.world.count = 0 ∧ attempted.state.world.count = 2 ∧
      ¬ attempted.state.world.LooksLike bare.world := by
  have hcount : attempted.state.world.count = 2 := by decide +kernel
  refine ⟨.new _ _ _ _ _ _ _ _ _, attempted_fails, by decide, hcount, fun hlooks => ?_⟩
  have hsame := hlooks.count
  rw [hcount] at hsame
  cases hsame

end Upright
end Arboretum
