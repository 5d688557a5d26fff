import Arboretum.Journal.Line
import Arboretum.Proofs.Garden.Shared

/-!
Who owns what in a garden. Plants come by a click or a schedule and go by eviction, failure,
clearing or a reset, and in between everything alive belongs to the plants in the bed. This needs
plantings that do not fail once they have begun to build, and a journal that can put down every
note.
-/
namespace Arboretum

open Arboretum.Action

variable {α : Type}

namespace Garden

variable {g : Garden α} {p : Plant α} {ps qs : List (Plant α)} {stopped : Garden α → Prop}

/-- A garden whose world belongs to some plants. They can be taken out, and those that were taken
out keep nothing. -/
structure Hosts (ps : List (Plant α)) (g : Garden α) : Prop where
  shared : g.world.Shared ps
  fit : ∀ p ∈ ps, p.Fit
  gone : ∀ p ∈ g.retired, p.graph.allPoints = [] ∧ p.graph.allSprings = []
  room : 1 ≤ g.maxPlants

/-- A garden whose world belongs to the plants in the bed. -/
def Kept (g : Garden α) : Prop := Hosts g.plants g

theorem Kept.hosts (h : Kept g) (hp : g.plants = ps) : Hosts ps g := hp ▸ h

theorem Hosts.kept (h : Hosts ps g) (hp : g.plants = ps) : Kept g := by
  subst hp
  exact h

theorem Hosts.perm (h : Hosts ps g) (hp : ps.Perm qs) : Hosts qs g :=
  ⟨h.shared.perm hp, fun q hq => h.fit q (hp.mem_iff.mpr hq), h.gone, h.room⟩

theorem Hosts.same (h : Hosts ps g) {w : World α} (hs : w.Sound) (hw : g.world.Same w) :
    Hosts ps { g with world := w } :=
  ⟨h.shared.same hs hw, h.fit, h.gone, h.room⟩

theorem grounded_kept : Grounded (Kept (α := α)) :=
  fun _ _ _ _ _ _ _ _ h => ⟨h.shared, h.fit, h.gone, h.room⟩

/-- The plant that waits beside the bed goes to its end. -/
theorem Hosts.plant (h : Hosts (p :: g.plants) g) :
    Kept { g with lastPlanting := some g.clock.seconds, plants := g.plants ++ [p] } := by
  have hlast := h.perm (List.perm_append_singleton p g.plants).symm
  exact ⟨hlast.shared, hlast.fit, hlast.gone, hlast.room⟩

theorem meets_say {pre : Garden α → Prop} (n : Note α) :
    Meets pre (say n) stopped fun _ => pre :=
  .returns fun _ hg => ⟨(), rfl, hg⟩

/-! ### Plants leave -/

/-- Taking plants out of the bed changes nothing about who owns what. -/
theorem meets_bed (ps qs : List (Plant α)) :
    Meets (Hosts ps) (Action.modify fun g => { g with plants := qs } : Tending α Unit) stopped
      fun _ g => Hosts ps g ∧ g.plants = qs :=
  .modify fun _ h => ⟨⟨h.shared, h.fit, h.gone, h.room⟩, rfl⟩

theorem retire_state (p : Plant α) (g : Garden α) : (retire p g).state =
    { g with
      world := (Plant.destroy (g.world, p)).state.1
      retired := g.retired ++ [(Plant.destroy (g.world, p)).state.2] } := by
  unfold retire
  rw [bind_of_ok (caring_result p Plant.destroy g)]
  cases (Plant.destroy (g.world, p)).result <;> rfl

theorem Hosts.retire (h : Hosts (p :: ps) g) : Hosts ps (retire p g).state := by
  obtain ⟨hp, hps⟩ := List.forall_mem_cons.mp h.fit
  obtain ⟨-, hbody, -⟩ := Plant.destroy_fit h.shared.sound hp
  rw [retire_state]
  refine ⟨h.shared.destroy hp, hps, fun q hq => ?_, h.room⟩
  rcases List.mem_append.mp hq with hq | hq
  · exact h.gone q hq
  · rw [List.mem_singleton.mp hq, hbody]
    exact ⟨rfl, rfl⟩

theorem meets_retire (p : Plant α) : Meets (fun g => Hosts (p :: ps) g ∧ g.plants = qs) (retire p)
    stopped fun _ g => Hosts ps g ∧ g.plants = qs := by
  apply Meets.returns
  rintro g ⟨h, hq⟩
  refine ⟨(), retire_result p g, h.retire, ?_⟩
  rw [retire_state]
  exact hq

/-- Taking all plants out leaves nothing. -/
theorem meets_uproot (ps : List (Plant α)) :
    Meets (fun g => Hosts ps g ∧ g.plants = ps) (uproot ps) stopped
      fun _ g => Hosts [] g ∧ g.plants = [] := by
  induction ps with
  | nil => exact .pure fun _ hg => hg
  | cons p rest ih =>
    apply Meets.bind ((meets_bed (p :: rest) rest).of_pre fun g h => h.1)
    intro _
    exact (meets_retire p).bind fun _ => ih

theorem meets_clear : Meets Kept (clear (α := α)) stopped fun _ g => Kept g ∧ g.plants = [] := by
  unfold clear
  refine .bind .read fun g => ?_
  have huproot : Meets (fun t => g = t ∧ Kept t) (uproot g.plants) stopped
      fun _ t => Hosts [] t ∧ t.plants = [] := by
    apply (meets_uproot g.plants).of_pre
    rintro t ⟨rfl, h⟩
    exact ⟨h, rfl⟩
  refine huproot.bind fun _ => .bind (.modify ?_) fun _ => meets_say _
  rintro t ⟨h, hnone⟩
  exact ⟨grounded_kept t _ _ _ _ _ _ _ (h.kept hnone), hnone⟩

/-- Making room in a bed that is not empty while a plant waits beside it. -/
theorem meets_evictOldest (p : Plant α) :
    Meets (fun g => Hosts (p :: g.plants) g ∧ g.plants ≠ []) evictOldest stopped
      fun _ g => Hosts (p :: g.plants) g := by
  unfold evictOldest
  refine .bind .read fun g => ?_
  split
  · rename_i hnone
    exact .assume False (fun t ht => ht.2.2 (ht.1 ▸ hnone)) False.elim
  · rename_i oldest rest hplants
    refine .bind (meets_say _) fun _ => ?_
    have hswap : ∀ t, g = t ∧ Hosts (p :: t.plants) t ∧ t.plants ≠ [] →
        Hosts (oldest :: p :: rest) t := by
      rintro t ⟨rfl, h, -⟩
      rw [hplants] at h
      exact h.perm (.swap oldest p rest)
    refine .bind ((meets_bed _ rest).of_pre hswap) fun _ => (meets_retire oldest).weaken ?_
    rintro _ t ⟨h, hrest⟩
    rw [hrest]
    exact h

section
variable [Scalar α]

theorem meets_reset : Meets Kept (reset (α := α)) stopped fun _ g => Kept g ∧ g.plants = [] := by
  have hrewind : ∀ g : Garden α, Kept g ∧ g.plants = [] →
      Kept { g with lastPlanting := none, clock := g.clock.rewind } ∧ g.plants = [] :=
    fun g h => ⟨grounded_kept g _ _ _ _ _ _ _ h.1, h.2⟩
  exact meets_clear.bind fun _ => .bind (.modify hrewind) fun _ => meets_say _

/-! ### Plants come -/

/-- A planting that gives a plant if a root of it gets a joint. -/
def Sprouts (spot : Vec α) (seed : Seed α) (g : Garden α) : Prop :=
  ∀ p, (Plant.sow (g.planting spot seed) g.draws).result = .ok p →
    Growth.takesHold p.growth.anchors → ∃ q, (grow spot seed g).result = .ok q

/-- Growing a plant beside a bed; one that does not sprout leaves nothing. -/
theorem meets_grow (spot : Vec α) (seed : Seed α) (qs : List (Plant α)) :
    Meets (fun g => Kept g ∧ g.plants = qs ∧ Sprouts spot seed g) (grow spot seed).attempt stopped
      fun outcome g => g.plants = qs ∧
        match outcome with
        | .error _ => Kept g
        | .ok p => Hosts (p :: g.plants) g := by
  apply Meets.returns
  rintro g ⟨h, hq, hsprouts⟩
  refine ⟨(grow spot seed g).result, rfl, ?_⟩
  have hstate : ((grow spot seed).attempt g).state = (grow spot seed g).state := rfl
  obtain ⟨draws, hgrown⟩ := grow_state spot seed g
  rw [hstate, hgrown]
  refine ⟨hq, ?_⟩
  cases hr : (grow spot seed g).result with
  | error cause =>
    have hbarren : ∀ p, (Plant.sow (g.planting spot seed) g.draws).result = .ok p →
        Growth.takesHold p.growth.anchors = false := by
      intro p hp
      refine Bool.eq_false_iff.mpr fun hroots => ?_
      obtain ⟨q, hq⟩ := hsprouts p hp hroots
      cases hq.symm.trans hr
    rw [Plant.plant_barren hbarren]
    exact grounded_kept g _ _ _ _ _ _ _ h
  | ok p =>
    obtain ⟨hshared, hp⟩ := h.shared.plant hr
    exact ⟨hshared, List.forall_mem_cons.mpr ⟨hp, h.fit⟩, h.gone, h.room⟩

theorem meets_settle {g₀ : Garden α} (hroom : 1 ≤ g₀.maxPlants) (spot : Vec α)
    (choice : Option String × Seed α) :
    Meets (fun g => Kept g ∧ g.plants = g₀.plants ∧ Sprouts spot choice.2 g)
      (settle g₀ spot choice) stopped fun _ => Kept := by
  unfold settle
  refine (meets_grow spot choice.2 g₀.plants).bind fun outcome => ?_
  cases outcome with
  | error cause => exact (meets_say _).bind fun _ => .pure fun _ hg => hg.2
  | ok p =>
    dsimp only
    split
    · rename_i hfull
      refine .bind ((meets_evictOldest p).of_pre fun t ht => ⟨ht.2, fun hnone => ?_⟩) fun _ =>
        .answer (.modify fun _ ht => Hosts.plant ht)
      -- a bed that is full has a plant
      rw [ht.1] at hnone
      rw [hnone, List.length_nil] at hfull
      omega
    · exact .answer (.modify fun _ ht => Hosts.plant ht.2)

/-- A planting that, if one is carried out, sprouts. -/
def PlantsWell (spot : Vec α) (kind : Option String) (grammar : Option (Grammar α))
    (g : Garden α) : Prop :=
  g.isCooling = false → ∀ c, (choice kind grammar g).result = .ok c →
    Sprouts spot c.2 (choice kind grammar g).state

theorem kept_createPlant (h : Kept g) {spot : Vec α} {kind : Option String}
    {grammar : Option (Grammar α)} (hwell : PlantsWell spot kind grammar g) :
    Kept (createPlant spot kind grammar g).state := by
  rw [createPlant_eq, read_bind]
  split
  · exact h
  · rename_i hcool
    have hchoice := keeps_choice grounded_kept.aside kind grammar g h
    have hplants : (choice kind grammar g).state.plants = g.plants := by
      obtain ⟨draws, hstate⟩ := choice_state kind grammar g
      rw [hstate]
    refine after_bind hchoice fun c hc => (meets_settle h.room spot c).after ⟨hchoice, hplants, ?_⟩
    exact hwell (Bool.eq_false_iff.mpr hcool) c hc

/-! ### Ticks -/

/-- Takes the first of the pending plantings, and a place for it. -/
def site (rest : List (Pending α)) : Tending α (Vec α) := do
  Action.modify fun g => { g with pending := rest }
  let g ← Action.read
  let x ← drawing (Draws.uniform (g.width * 0.1) (g.width * 0.9))
  return ⟨x, g.groundY⟩

/-- Carries out the first of the pending plantings. -/
def plantNext (entry : Pending α) (rest : List (Pending α)) : Tending α Unit := do
  let planted ← createPlant (← site rest) entry.kind none
  if planted.isNone then say .plantingSkipped

theorem plantDue_cons (now : α) (entry : Pending α) (rest : List (Pending α)) :
    plantDue now (entry :: rest) =
      if entry.due ≤ now then (do plantNext entry rest; plantDue now rest) else return := by
  rw [plantDue]
  split
  · unfold plantNext site
    simp only [bind_assoc, pure_bind]
    refine bind_congr fun _ => bind_congr fun g => bind_congr fun x => bind_congr fun planted => ?_
    split <;> rfl
  · rfl

/-- Pending plantings of which those that are due sprout. -/
def DueWell (now : α) : List (Pending α) → Garden α → Prop
  | [], _ => True
  | entry :: rest, g => entry.due ≤ now →
    (∀ spot, (site rest g).result = .ok spot →
      PlantsWell spot entry.kind none (site rest g).state) ∧
    ((plantNext entry rest g).result = .ok () → DueWell now rest (plantNext entry rest g).state)

theorem kept_plantNext (h : Kept g) {entry : Pending α} {rest : List (Pending α)}
    (hwell : ∀ spot, (site rest g).result = .ok spot →
      PlantsWell spot entry.kind none (site rest g).state) :
    Kept (plantNext entry rest g).state := by
  have hsite : Keeps Kept (site rest) := by
    apply Keeps.bind (.modify fun t => grounded_kept t _ _ _ _ _ _ _)
    intro _
    exact .bind .read fun t => .bind (keeps_drawing grounded_kept.aside _) fun _ => .pure _
  unfold plantNext
  refine after_bind (hsite g h) fun spot hspot => ?_
  have hplanted := kept_createPlant (hsite g h) (hwell spot hspot)
  refine after_bind hplanted fun planted _ => ?_
  split
  · exact keeps_say _ _ hplanted
  · exact hplanted

theorem kept_plantDue {now : α} {entries : List (Pending α)} (h : Kept g)
    (hwell : DueWell now entries g) : Kept (plantDue now entries g).state := by
  induction entries generalizing g with
  | nil => exact h
  | cons entry rest ih =>
    rw [plantDue_cons]
    split
    · rename_i hdue
      obtain ⟨hnext, hrest⟩ := hwell hdue
      have hkept := kept_plantNext h hnext
      exact after_bind hkept fun _ hr => ih hkept (hrest hr)
    · exact h

/-- A plant of the bed at work. -/
theorem meets_caringAmong (dt : α) (before : List (Plant α)) (p : Plant α)
    (after : List (Plant α)) :
    Meets (fun g => Kept g ∧ g.plants = before ++ p :: after)
      (caringAmong before p after (Plant.update dt)) stopped
      fun tried g => Kept g ∧ g.plants = before ++ tried.2 :: after := by
  apply Meets.returns
  rintro g ⟨h, hplants⟩
  refine ⟨_, caringAmong_result before p after (Plant.update dt) g, ?_⟩
  have hfirst : Hosts (p :: (before ++ after)) g := (h.hosts hplants).perm List.perm_middle
  obtain ⟨hp, hrest⟩ := List.forall_mem_cons.mp hfirst.fit
  have hfit := Plant.keeps_fit_update dt (g.world, p) hp
  rw [caringAmong_state]
  refine ⟨?_, rfl⟩
  have hdone : Hosts ((Plant.update dt (g.world, p)).state.2 :: (before ++ after))
      { g with world := (Plant.update dt (g.world, p)).state.1 } :=
    ⟨hfirst.shared.update dt, List.forall_mem_cons.mpr ⟨hfit, hrest⟩, h.gone, h.room⟩
  have hback := hdone.perm List.perm_middle.symm
  exact ⟨hback.shared, hback.fit, hback.gone, hback.room⟩

theorem meets_tendFrom (dt : α) (before after : List (Plant α)) :
    Meets (fun g => Kept g ∧ g.plants = before ++ after) (tendFrom dt before after) stopped
      fun _ => Kept := by
  induction after generalizing before with
  | nil => exact .pure fun _ hg => hg.1
  | cons p after ih =>
    unfold tendFrom
    refine (meets_caringAmong dt before p after).bind ?_
    rintro ⟨outcome, q⟩
    cases outcome with
    | ok _ =>
      apply (ih (before ++ [q])).of_pre
      rintro g ⟨h, hplants⟩
      exact ⟨h, by simpa using hplants⟩
    | error cause =>
      have hfirst : ∀ g : Garden α, Kept g ∧ g.plants = before ++ q :: after →
          Hosts (q :: (before ++ after)) g := by
        rintro g ⟨h, hplants⟩
        exact (h.hosts hplants).perm List.perm_middle
      refine (meets_say _).bind fun _ => .bind ((meets_bed _ (before ++ after)).of_pre hfirst) ?_
      intro _
      refine (meets_retire q).bind fun _ => (ih before).of_pre ?_
      rintro g ⟨h, hplants⟩
      exact ⟨h.kept hplants, hplants⟩

theorem keeps_tendAll (dt : α) : Keeps Kept (tendAll (α := α) dt) := by
  unfold tendAll
  refine Meets.keeps (.bind .read fun g => ?_)
  apply (meets_tendFrom dt [] g.plants).of_pre
  rintro t ⟨rfl, h⟩
  exact ⟨h, rfl⟩

theorem kept_update (h : Kept g) (dt : α) (hwell : DueWell g.clock.seconds g.pending g) :
    Kept (update dt g).state := by
  have hforces : ∀ points, Keeps Kept (applyForces (α := α) points) := by
    apply keeps_applyForces grounded_kept.aside
    intro g p force h
    exact Hosts.same h (h.shared.sound.push p force) (World.same_push p force g.world)
  have hstep : ∀ g : Garden α, Kept g →
      Kept { g with world := g.world.step dt, clock := g.clock.advance dt } := by
    intro g h
    have hmoved := World.moved_step dt g.world
    have hstepped := Hosts.same h (hmoved.sound h.shared.sound) hmoved.same
    exact ⟨hstepped.shared, h.fit, h.gone, h.room⟩
  unfold update
  rw [read_bind]
  have hplanted := kept_plantDue h hwell
  refine after_bind hplanted fun _ _ => ?_
  have htick : Keeps Kept (do
      tendAll dt
      let g ← Action.read
      let points ← Action.ofExcept g.movable
      applyForces points
      Action.modify fun g => { g with world := g.world.step dt, clock := g.clock.advance dt }) :=
    .bind (keeps_tendAll dt) fun _ => .bind .read fun g => .bind (.ofExcept _) fun points =>
      .bind (hforces points) fun _ => .modify hstep
  exact htick _ hplanted

end

end Garden

namespace Deed

open Garden

variable [Scalar α] {g : Garden α}

/-- A deed in which every planting that is carried out sprouts. -/
def Well : Deed α → Garden α → Prop
  | plant spot kind grammar, g => PlantsWell spot kind grammar g
  | tick _, g => DueWell g.clock.seconds g.pending g
  | _, _ => True

theorem kept_act (h : Kept g) (d : Deed α) (hwell : d.Well g) : Kept (d.act g).state := by
  cases d with
  | theme name => exact Keeps.bind (keeps_setTheme grounded_kept.aside name) (fun _ => .pure _) g h
  | nextTheme => exact Keeps.bind (keeps_cycleTheme grounded_kept.aside) (fun _ => .pure _) g h
  | plant spot kind grammar =>
    have hplanted := kept_createPlant h hwell
    exact after_bind hplanted fun _ _ => hplanted
  | schedule asked kind =>
    exact Keeps.bind (keeps_schedule grounded_kept.aside asked kind) (fun _ => .pure _) g h
  | clear => exact (meets_clear.weaken fun _ _ ht => ht.1).after h
  | reset => exact (meets_reset.weaken fun _ _ ht => ht.1).after h
  | tick dt => exact kept_update h dt hwell
  | draw => exact Keeps.bind keeps_frames (fun _ => .pure _) g h
  | wind => exact Keeps.bind (keeps_toggleWind grounded_kept.aside) (fun _ => .pure _) g h

/-- Clearing cannot fail and leaves an empty world. -/
theorem emptied (h : Kept g) {d : Deed α} (hd : d = .clear ∨ d = .reset) :
    (d.act g).result = .ok () ∧ (d.act g).state.world.count = 0 ∧
      (d.act g).state.world.springs.size = 0 := by
  have hmeets : Meets Kept d.act (fun _ => False) fun _ t => Kept t ∧ t.plants = [] := by
    rcases hd with rfl | rfl
    · exact meets_clear
    · exact meets_reset
  obtain ⟨hstop, hdone⟩ := hmeets g h
  cases hr : (d.act g).result with
  | error e => exact (hstop e hr).elim
  | ok done =>
    obtain ⟨hkept, hnone⟩ := hdone done hr
    exact ⟨rfl, (hkept.hosts hnone).shared.empty⟩

end Deed

namespace Garden

variable [Scalar α] {g : Garden α} {line : Entry α → Except Fault String}

/-- A garden that some use of it leads to. Every planting that was carried out sprouted, and every
note could be put down. Others may give a garden forces, and make its plants fail, but not where
they are destroyed. -/
inductive Cultivated (line : Entry α → Except Fault String) : Garden α → Prop where
  | new (width height : α) {maxPlants : Int} (cooldown rate : α) (scaleRange : α × α) (divisor : α)
    (draws : Draws α) (clocked : Bool) (hroom : 1 ≤ maxPlants) :
    Cultivated line (.new width height maxPlants cooldown rate scaleRange divisor draws clocked)
  | deed {g : Garden α} (h : Cultivated line g) (d : Deed α) (hwell : d.Well g)
    (htold : Told line d.act g) : Cultivated line (written line d.act g).state
  | source {g : Garden α} (h : Cultivated line g) (s : Pull α) : Cultivated line (g.addSource s)
  | drill {g : Garden α} (h : Cultivated line g) (drill : Plant α → Drill)
    (hdrill : ∀ p, (drill p).destroy = none) :
    Cultivated line { g with plants := g.plants.map fun p => { p with drill := drill p } }

theorem Cultivated.tick (h : Cultivated line g) (hnone : g.pending = []) (dt : α)
    (htold : Told line (Deed.tick dt).act g) :
    Cultivated line (written line (Deed.tick dt).act g).state := by
  refine h.deed (.tick dt) ?_ htold
  rw [Deed.Well, hnone]
  trivial

theorem Cultivated.kept (h : Cultivated line g) : Kept g := by
  induction h with
  | new width height cooldown rate scaleRange divisor draws clocked hroom =>
    have hworld := World.Sound.new 0 { Setting.default with bounds := some ⟨0, ⟨width, height⟩⟩ }
      World.defaultCapacity
    exact ⟨.nobody hworld fun _ => rfl, fun _ hp => absurd hp List.not_mem_nil,
      fun _ hp => absurd hp List.not_mem_nil, hroom⟩
  | deed _ d hwell htold ih =>
    rw [(written_of_told htold).2]
    exact d.kept_act ih hwell
  | source _ s ih => exact grounded_kept _ _ _ _ _ _ _ _ ih
  | drill _ drill hdrill ih =>
    refine ⟨ih.shared.map fun _ => rfl, fun q hq => ?_, ih.gone, ih.room⟩
    obtain ⟨p, hp, rfl⟩ := List.mem_map.mp hq
    exact ⟨hdrill p, (ih.fit p hp).living⟩

/-- Every point alive in a garden belongs to one plant of the bed, and so do both ends of every
spring. Plants that were taken out have nothing left, and a bed that is cleared leaves an empty
world, if this can be put down. -/
theorem Cultivated.owned (h : Cultivated line g) :
    (∀ id, g.world.isAlive id →
      ∃! i : Nat, ∃ p : Plant α, g.plants[i]? = some p ∧ id ∈ p.graph.allPoints) ∧
    (∀ serial bond, g.world.bond? serial = some bond →
      ∃ p ∈ g.plants, bond.a ∈ p.graph.allPoints ∧ bond.b ∈ p.graph.allPoints) ∧
    (∀ p ∈ g.retired, (∀ id ∈ p.graph.allPoints, g.world.isAlive id = false) ∧
      ∀ serial ∈ p.graph.allSprings, g.world.springIsAlive serial = false) ∧
    ∀ d : Deed α, d = .clear ∨ d = .reset → Told line d.act g →
      (written line d.act g).result = .ok () ∧
        (written line d.act g).state.world.count = 0 ∧
        (written line d.act g).state.world.springs.size = 0 := by
  have hkept := h.kept
  refine ⟨fun id hid => hkept.shared.point hid, fun serial bond hb => hkept.shared.bond hb, ?_, ?_⟩
  · intro p hp
    obtain ⟨hpoints, hsprings⟩ := hkept.gone p hp
    rw [hpoints, hsprings]
    exact ⟨fun _ hid => absurd hid List.not_mem_nil, fun _ hs => absurd hs List.not_mem_nil⟩
  · intro d hd htold
    obtain ⟨hresult, hstate⟩ := written_of_told htold
    rw [hresult, hstate]
    exact Deed.emptied hkept hd

end Garden

namespace Upright

open Garden

/-- A stem of one segment. -/
def stem : Grammar Upright := { astray with name := "stem", start := ['F'], angle := 20.0 }

/-- What the journal writes. -/
def lineOf (e : Entry Upright) : Except Fault String := Entry.line e

def planting (x : Upright) : Deed Upright := .plant ⟨x, 590.0⟩ none (some stem)

def after (d : Deed Upright) (g : Garden Upright) : Garden Upright := (written lineOf d.act g).state

def bed : Garden Upright :=
  .new 800.0 600.0 18 0.0 0.03 (0.6, 1.8) 50.0 (Draws.cycle #[0.5]) true

def planted : Garden Upright := after (planting 200.0) (after (planting 100.0) bed)

theorem planting_well {x : Upright} {g : Garden Upright}
    (h : (grow ⟨x, 590.0⟩ (.grammar stem) g).result.isOk) : (planting x).Well g := by
  intro _ choice hchoice _ _ _
  cases hchoice
  cases hr : (grow ⟨x, 590.0⟩ (.grammar stem) g).result with
  | error e =>
    rw [hr] at h
    cases h
  | ok q => exact ⟨q, hr⟩

theorem cultivated_planted : Cultivated lineOf planted := by
  have hbed : Cultivated lineOf bed := .new _ _ _ _ _ _ _ _ (by decide)
  have hfirst := hbed.deed (planting 100.0) (planting_well (by decide +kernel)) (by decide +kernel)
  exact hfirst.deed (planting 200.0) (planting_well (by decide +kernel)) (by decide +kernel)

theorem owned_planted : Cultivated lineOf planted ∧ planted.world.count = 4 ∧
    (∀ id, planted.world.isAlive id →
      ∃! i : Nat, ∃ p : Plant Upright, planted.plants[i]? = some p ∧ id ∈ p.graph.allPoints) ∧
    Told lineOf Deed.clear.act planted ∧
      (written lineOf Deed.clear.act planted).state.world.count = 0 ∧
      (written lineOf Deed.clear.act planted).state.world.springs.size = 0 := by
  have htold : Told lineOf Deed.clear.act planted := by decide +kernel
  obtain ⟨hpoints, -, -, hcleared⟩ := cultivated_planted.owned
  obtain ⟨-, hcount, hsprings⟩ := hcleared .clear (.inl rfl) htold
  exact ⟨cultivated_planted, by decide +kernel, hpoints, htold, hcount, hsprings⟩

def forever : Upright := 1.0 / 0.0

/-- Two plants at the end of time. -/
def endless : Garden Upright := after (.tick forever) planted

/-- When the clock has no bounds the first plant's destruction cannot be put down, and clearing
stops there. -/
theorem endless_remains : Cultivated lineOf endless ∧
    (written lineOf Deed.clear.act endless).result.isOk = false ∧
      (written lineOf Deed.clear.act endless).state.world.count = 2 ∧
      (written lineOf Deed.clear.act endless).state.world.springs.size = 1 := by
  have hnone : planted.pending = [] := List.isEmpty_iff.mp (by decide +kernel)
  have hendless : Cultivated lineOf endless :=
    cultivated_planted.tick hnone forever (by decide +kernel)
  exact ⟨hendless, by decide +kernel⟩

end Upright
end Arboretum
