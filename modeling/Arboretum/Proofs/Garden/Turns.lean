import Arboretum.Proofs.Garden.Ownership
import Arboretum.Proofs.Graph.Leaks
import Arboretum.Proofs.Growth.Idle

/-!
The turns of the plants in a tick. Each plant grows in the world that the one before it has left.
One that fails takes all that it has built with it, also what it built in this very turn, and the
next one goes on as if it had a turn of its own.
-/
namespace Arboretum

open Arboretum.Action

variable {α : Type}

/-- A plant that shares its world: it can be taken out of it, and what it keeps is of that world. -/
structure Plant.Guest (w : World α) (p : Plant α) : Prop where
  drill : p.drill.destroy = none
  movable : p.drill.movable = none
  shares : p.ownsWorld = false
  numbered : p.graph.Numbered w
  /-- One that somebody has destroyed has no body. -/
  spent : p.destroyed → p.graph.allPoints = [] ∧ p.graph.allSprings = []

theorem Plant.Guest.onward {w w' : World α} {p : Plant α} (h : p.Guest w) (hw : w.Onward w') :
    p.Guest w' := { h with numbered := h.numbered.onward hw }

namespace Plant

variable {p q : Plant α}

/-- A plant whose body has grown; nothing else about it has changed. -/
def Outgrows (q p : Plant α) : Prop := ∃ growth graph, q = { p with growth, graph }

theorem Outgrows.refl (p : Plant α) : Outgrows p p := ⟨p.growth, p.graph, rfl⟩

theorem Outgrows.trans {r : Plant α} (h : Outgrows r q) (h' : Outgrows q p) : Outgrows r p := by
  obtain ⟨growth, graph, rfl⟩ := h
  obtain ⟨growth', graph', rfl⟩ := h'
  exact ⟨growth, graph, rfl⟩

theorem Outgrows.fit (h : Outgrows q p) (hp : p.Fit) : q.Fit := by
  obtain ⟨growth, graph, rfl⟩ := h
  exact ⟨hp.drill, hp.living⟩

theorem Outgrows.guest {w w' : World α} (h : Outgrows q p) (hp : p.Guest w)
    (hliving : p.destroyed = false) (hq : q.graph.Numbered w') : q.Guest w' := by
  obtain ⟨growth, graph, rfl⟩ := h
  refine ⟨hp.drill, hp.movable, hp.shares, hq, fun hdestroyed => ?_⟩
  cases hliving.symm.trans hdestroyed

theorem keeps_growing_outgrows {ρ : Type} (x : Growth.Plan α (World α × Graph α) ρ) :
    Keeps (fun s => Outgrows s.2 p) (growing x) :=
  fun _ hs => Outgrows.trans ⟨_, _, rfl⟩ hs

/-- Destroying a plant again does nothing. -/
theorem destroy_again (h : p.destroyed) (w : World α) : (destroy (w, p)).state = (w, p) := by
  unfold destroy
  rw [read_bind]
  dsimp only
  cases Drill.check p.drill.destroy with
  | error e => rfl
  | ok done =>
    rw [ofExcept_ok, pure_bind, if_pos h]
    rfl

variable [Scalar α] {w : World α} {was : World α × Graph α}

theorem tight_crew : (crew (α := α)).Keeps (Graph.Tight was [] []) where
  build s _ := .bind (Graph.tight_materialize s _) fun _ => .pure _
  brace segments := .bind (Graph.tight_addBraces segments) fun _ => .pure _
  hang fruits := .bind (Graph.tight_hangAll fruits) fun _ => .pure _

/-- A tick changes nothing about a plant but its body, and leaks nothing into its world. -/
theorem keeps_tight_update (dt : α) :
    Keeps (fun s : World α × Plant α => Graph.Tight was [] [] (s.1, s.2.graph) ∧ Outgrows s.2 p)
      (update dt) := by
  refine keeps_update (fun s hs => ?_) fun s hs => ?_
  · exact ⟨Growth.keeps_advance tight_crew (s.2.growth, (s.1, s.2.graph)) hs.1,
      keeps_growing_outgrows _ s hs.2⟩
  · have hmoved := World.moved_step dt s.1
    exact ⟨hs.1.same (hmoved.sound hs.1.sound) hmoved.same, hs.2⟩

/-- A plant that is destroyed fails at once. -/
theorem update_destroyed (h : p.destroyed) (dt : α) :
    ∃ e, (update dt (w, p)).result = .error e ∧ (update dt (w, p)).state = (w, p) := by
  unfold update
  rw [read_bind]
  dsimp only
  cases hdrill : Drill.check p.drill.update with
  | error e => exact ⟨e, rfl, rfl⟩
  | ok done =>
    rw [ofExcept_ok, pure_bind, checkAlive, if_pos h]
    exact ⟨_, rfl, rfl⟩

/-- A tick that does not fail advances the growth of the plant as if nothing else were there. -/
theorem update_advanced {dt : α} (h : (update dt (w, p)).result = .ok ()) :
    (update dt (w, p)).state.2.growth = p.growth.advanced := by
  unfold update at h ⊢
  rw [read_bind] at h ⊢
  dsimp only at h ⊢
  obtain ⟨_, hdrill, h⟩ := of_bind_ok h
  obtain ⟨_, hliving, h⟩ := of_bind_ok h
  obtain ⟨n, hgrown, h⟩ := of_bind_ok h
  rw [bind_of_ok hdrill, bind_of_ok hliving, bind_of_ok hgrown]
  have hgrowth := Growth.advance_advanced (p := (p.growth, (w, p.graph))) hgrown
  dsimp only
  split
  · exact hgrowth
  · exact hgrowth

end Plant

/-- A plant at its turn, and the world that it finds. -/
structure Turn (α : Type) where
  world : World α
  plant : Plant α

namespace Turn

section
variable [Scalar α] (dt : α) (t : Turn α)

def report : Report (Note α) (World α × Plant α) Unit := Plant.update dt (t.world, t.plant)

def fails : Bool := !(t.report dt).result.isOk

/-- The plant as its growth leaves it, also where it stops. -/
def grown : Plant α := (t.report dt).state.2

/-- What the turn comes to. A plant that fails is destroyed. -/
def outcome : World α × Plant α :=
  if t.fails dt then (Plant.destroy (t.report dt).state).state else (t.report dt).state

/-- What a turn leaves behind: of a plant that fails, nothing. -/
structure Clean : Prop where
  sound : (t.outcome dt).1.Sound
  onward : t.world.Onward (t.outcome dt).1
  numbered : (t.grown dt).graph.Numbered (t.outcome dt).1
  outgrows : (t.grown dt).Outgrows t.plant
  kept : ∀ id ∈ t.plant.graph.allPoints, id ∈ (t.grown dt).graph.allPoints
  points : ∀ id, (t.outcome dt).1.isAlive id →
    t.world.isAlive id ∨ t.fails dt = false ∧ id ∈ (t.grown dt).graph.allPoints
  bonds : ∀ serial bond, (t.outcome dt).1.bond? serial = some bond →
    t.world.bond? serial = some bond ∨
      t.fails dt = false ∧ ∀ id, bond.meets id → id ∈ (t.grown dt).graph.allPoints
  gone : t.fails dt → (t.outcome dt).2.destroyed ∧
    (∀ id ∈ (t.grown dt).graph.allPoints, (t.outcome dt).1.isAlive id = false) ∧
    ∀ serial ∈ (t.grown dt).graph.allSprings, (t.outcome dt).1.springIsAlive serial = false

end

variable [Scalar α] {dt : α} {t : Turn α}

/-- A turn that does not fail leaves what has grown with the plant. -/
theorem clean_of_grown (hfails : t.fails dt = false)
    (htight : Graph.Tight (t.world, t.plant.graph) [] []
      ((t.report dt).state.1, (t.grown dt).graph))
    (houtgrows : (t.grown dt).Outgrows t.plant) (honward : t.world.Onward (t.report dt).state.1) :
    t.Clean dt := by
  have houtcome : t.outcome dt = (t.report dt).state := by simp [outcome, hfails]
  have hnone : ∀ id, id ∈ (t.grown dt).graph.allPoints ∨ id ∈ [] →
      id ∈ (t.grown dt).graph.allPoints := fun _ hm => hm.resolve_right List.not_mem_nil
  constructor
  case sound => exact houtcome ▸ htight.sound
  case onward => exact houtcome ▸ honward
  case numbered => exact houtcome ▸ htight.numbered
  case outgrows => exact houtgrows
  case kept => exact htight.kept
  case points =>
    rw [houtcome, hfails]
    exact fun id hid => (htight.points id hid).imp_right fun hm => ⟨rfl, hnone id hm⟩
  case bonds =>
    rw [houtcome, hfails]
    exact fun serial bond hb => (htight.bonds serial bond hb).imp_right fun hm =>
      ⟨rfl, fun id hid => hnone id (hm id hid)⟩
  case gone => simp [hfails]

/-- A turn that fails leaves nothing of the plant. -/
theorem clean_of_fails (hfails : t.fails dt = true) (hfit : t.plant.Fit)
    (htight : Graph.Tight (t.world, t.plant.graph) [] []
      ((t.report dt).state.1, (t.grown dt).graph))
    (houtgrows : (t.grown dt).Outgrows t.plant) (honward : t.world.Onward (t.report dt).state.1) :
    t.Clean dt := by
  have houtcome : t.outcome dt = (Plant.destroy (t.report dt).state).state := by
    simp [outcome, hfails]
  have hfit' : (t.grown dt).Fit := houtgrows.fit hfit
  obtain ⟨-, -, hshed⟩ := Plant.destroy_fit htight.sound hfit'
  have hdestroyed := Plant.destroy_destroyed htight.sound hfit'
  obtain ⟨hpoints, hbonds⟩ := htight.released hshed
  have hthen := (Plant.lasting_destroy (World.lasting_since (t.report dt).state.1)
    (t.report dt).state ⟨htight.sound, .refl _⟩).onward
  constructor
  case sound => exact houtcome ▸ hshed.sound
  case onward => exact houtcome ▸ honward.trans hthen
  case numbered => exact houtcome ▸ htight.numbered.onward hthen
  case outgrows => exact houtgrows
  case kept => exact htight.kept
  case points =>
    rw [houtcome]
    exact fun id hid => .inl (hpoints id hid).1
  case bonds =>
    rw [houtcome]
    exact fun serial bond hb => .inl (hbonds serial bond hb).1
  case gone =>
    rw [houtcome]
    refine fun _ => ⟨hdestroyed, fun id hid => ?_, fun serial hs => ?_⟩
    · exact Bool.eq_false_iff.mpr fun halive => (hpoints id halive).2 hid
    · refine Bool.eq_false_iff.mpr fun halive => ?_
      rw [← World.bond?_isSome, Option.isSome_iff_exists] at halive
      obtain ⟨bond, hb⟩ := halive
      exact (hbonds serial bond hb).2 hs

theorem fails_of_error {e : Fault} (h : (t.report dt).result = .error e) : t.fails dt = true := by
  simp [fails, h, Except.isOk, Except.toBool]

/-- A plant that was destroyed before its turn leaves nothing either. -/
theorem clean_of_destroyed (hw : t.world.Sound) (hp : t.plant.Guest t.world)
    (hdestroyed : t.plant.destroyed) : t.Clean dt := by
  obtain ⟨e, hresult, hstate⟩ := Plant.update_destroyed (w := t.world) hdestroyed dt
  have hreport : (t.report dt).state = (t.world, t.plant) := hstate
  have houtcome : t.outcome dt = (t.world, t.plant) := by
    rw [outcome, if_pos (fails_of_error hresult), hreport, Plant.destroy_again hdestroyed t.world]
  have hgrown : t.grown dt = t.plant := congrArg Prod.snd hreport
  obtain ⟨hpoints, hsprings⟩ := hp.spent hdestroyed
  constructor
  case sound => exact houtcome ▸ hw
  case onward => exact houtcome ▸ .refl t.world
  case numbered => exact houtcome ▸ hgrown ▸ hp.numbered
  case outgrows => exact hgrown ▸ .refl t.plant
  case kept => exact fun id hid => hgrown ▸ hid
  case points =>
    rw [houtcome]
    exact fun id hid => .inl hid
  case bonds =>
    rw [houtcome]
    exact fun serial bond hb => .inl hb
  case gone =>
    rw [houtcome, hgrown, hpoints, hsprings]
    simpa using fun _ => hdestroyed

/-- The turn of a guest is clean, wherever its growth stops. -/
theorem clean (hw : t.world.Sound) (hp : t.plant.Guest t.world) : t.Clean dt := by
  obtain ⟨htight, houtgrows⟩ := Plant.keeps_tight_update dt (t.world, t.plant)
    ⟨Graph.Tight.start hw hp.numbered, Plant.Outgrows.refl t.plant⟩
  have honward := (Plant.lasting_update (World.lasting_since t.world) dt (t.world, t.plant)
    ⟨hw, .refl t.world⟩).onward
  cases hfails : t.fails dt with
  | false => exact clean_of_grown hfails htight houtgrows honward
  | true =>
    cases hliving : t.plant.destroyed with
    | false => exact clean_of_fails hfails ⟨hp.drill, hliving⟩ htight houtgrows honward
    | true => exact clean_of_destroyed hw hp hliving

theorem living (hfails : t.fails dt = false) : t.plant.destroyed = false := by
  refine Bool.eq_false_iff.mpr fun hdestroyed => ?_
  obtain ⟨e, hresult, -⟩ := Plant.update_destroyed (w := t.world) hdestroyed dt
  cases hfails.symm.trans (fails_of_error hresult)

theorem Clean.advanced (h : t.Clean dt) (hfails : t.fails dt = false) :
    ∃ graph, t.grown dt = { t.plant with growth := t.plant.growth.advanced, graph } := by
  obtain ⟨growth, graph, he⟩ := h.outgrows
  have hok : (t.report dt).result = .ok () := by
    unfold fails at hfails
    cases hr : (t.report dt).result with
    | error e => simp [hr, Except.isOk, Except.toBool] at hfails
    | ok done => rfl
  have hgrowth : (t.grown dt).growth = t.plant.growth.advanced := Plant.update_advanced hok
  rw [he] at hgrowth
  cases hgrowth
  exact ⟨graph, he⟩

end Turn

namespace Garden

variable [Scalar α]

/-- The turns of some plants, one after the other. -/
def turns (dt : α) : World α → List (Plant α) → List (Turn α)
  | _, [] => []
  | w, p :: rest => ⟨w, p⟩ :: turns dt (Turn.outcome dt ⟨w, p⟩).1 rest

/-- The world after the turns of some plants. -/
def turned (dt : α) : World α → List (Plant α) → World α
  | w, [] => w
  | w, p :: rest => turned dt (Turn.outcome dt ⟨w, p⟩).1 rest

/-- The plants whose turns do not fail, as they have grown. -/
def survivors (dt : α) (w : World α) (ps : List (Plant α)) : List (Plant α) :=
  ((turns dt w ps).filter fun t => !t.fails dt).map (·.grown dt)

/-- The plants whose turns fail, as they were destroyed. -/
def fallen (dt : α) (w : World α) (ps : List (Plant α)) : List (Plant α) :=
  ((turns dt w ps).filter fun t => t.fails dt).map fun t => (t.outcome dt).2

variable {dt : α} {w w' : World α} {p : Plant α} {ps : List (Plant α)}

/-- Every plant has one turn, in the order of the bed. -/
theorem map_turns : (turns dt w ps).map (·.plant) = ps := by
  induction ps generalizing w with
  | nil => rfl
  | cons p rest ih => exact congrArg (p :: ·) ih

theorem survivors_cons : survivors dt w (p :: ps) =
    (if Turn.fails dt ⟨w, p⟩ then [] else [Turn.grown dt ⟨w, p⟩]) ++
      survivors dt (Turn.outcome dt ⟨w, p⟩).1 ps := by
  cases hfails : Turn.fails dt ⟨w, p⟩ <;> simp [survivors, turns, hfails]

theorem fallen_cons : fallen dt w (p :: ps) =
    (if Turn.fails dt ⟨w, p⟩ then [(Turn.outcome dt ⟨w, p⟩).2] else []) ++
      fallen dt (Turn.outcome dt ⟨w, p⟩).1 ps := by
  cases hfails : Turn.fails dt ⟨w, p⟩ <;> simp [fallen, turns, hfails]

theorem mem_survivors_cons {q : Plant α} : q ∈ survivors dt w (p :: ps) ↔
    Turn.fails dt ⟨w, p⟩ = false ∧ q = Turn.grown dt ⟨w, p⟩ ∨
      q ∈ survivors dt (Turn.outcome dt ⟨w, p⟩).1 ps := by
  rw [survivors_cons, List.mem_append]
  cases Turn.fails dt ⟨w, p⟩ <;> simp

/-- Plants that fail at their turns, and what comes of the others and of their world. -/
structure Isolated (dt : α) (w : World α) (ps : List (Plant α)) (w' : World α) : Prop where
  sound : w'.Sound
  onward : w.Onward w'
  /-- The others are guests of the world as before. -/
  guests : ∀ q ∈ survivors dt w ps, q.Guest w'
  /-- They have grown by one advance each, and nothing else about them but the body has changed. -/
  advanced : ∀ t ∈ turns dt w ps, t.fails dt = false →
    ∃ graph, t.grown dt = { t.plant with growth := t.plant.growth.advanced, graph }
  /-- Those that fail are destroyed, and nothing that they kept is left. -/
  gone : ∀ t ∈ turns dt w ps, t.fails dt → (t.outcome dt).2.destroyed ∧
    (∀ id ∈ (t.grown dt).graph.allPoints, w'.isAlive id = false) ∧
    ∀ serial ∈ (t.grown dt).graph.allSprings, w'.springIsAlive serial = false
  /-- What is left is kept by the others, or was no plant's before. -/
  points : ∀ id, w'.isAlive id → (∃ q ∈ survivors dt w ps, id ∈ q.graph.allPoints) ∨
    w.isAlive id ∧ ∀ p ∈ ps, id ∉ p.graph.allPoints
  /-- New springs join points of one of the others. -/
  bonds : ∀ serial bond, w'.bond? serial = some bond → w.bond? serial = some bond ∨
    ∃ q ∈ survivors dt w ps, ∀ id, bond.meets id → id ∈ q.graph.allPoints

/-- One more turn, before the others. -/
theorem Isolated.cons (h : Isolated dt (Turn.outcome dt ⟨w, p⟩).1 ps w')
    (hclean : Turn.Clean dt ⟨w, p⟩) (hp : p.Guest w) : Isolated dt w (p :: ps) w' := by
  have hfirst : ∀ {id}, Turn.fails dt ⟨w, p⟩ = false → id ∈ (Turn.grown dt ⟨w, p⟩).graph.allPoints →
      ∃ q ∈ survivors dt w (p :: ps), id ∈ q.graph.allPoints := fun hfails hid =>
    ⟨_, mem_survivors_cons.mpr (.inl ⟨hfails, rfl⟩), hid⟩
  constructor
  case sound => exact h.sound
  case onward => exact hclean.onward.trans h.onward
  case guests =>
    intro q hq
    rcases mem_survivors_cons.mp hq with ⟨hfails, rfl⟩ | hq
    · have hliving : p.destroyed = false := Turn.living hfails
      exact hclean.outgrows.guest hp hliving (hclean.numbered.onward h.onward)
    · exact h.guests q hq
  case advanced => exact List.forall_mem_cons.mpr ⟨hclean.advanced, h.advanced⟩
  case gone =>
    refine List.forall_mem_cons.mpr ⟨fun hfails => ?_, h.gone⟩
    obtain ⟨hdestroyed, hpoints, hsprings⟩ := hclean.gone hfails
    refine ⟨hdestroyed, fun id hid => ?_, fun serial hs => ?_⟩
    · refine Bool.eq_false_iff.mpr fun halive => ?_
      cases (h.onward.gone id (hclean.numbered.points id hid) halive).symm.trans (hpoints id hid)
    · refine Bool.eq_false_iff.mpr fun halive => ?_
      have hbefore := h.onward.springGone serial (hclean.numbered.springs serial hs) halive
      cases hbefore.symm.trans (hsprings serial hs)
  case points =>
    intro id hid
    rcases h.points id hid with ⟨q, hq, hkept⟩ | ⟨halive, hrest⟩
    · exact .inl ⟨q, mem_survivors_cons.mpr (.inr hq), hkept⟩
    rcases hclean.points id halive with hwas | ⟨hfails, hnew⟩
    · by_cases hmine : id ∈ p.graph.allPoints
      · -- a point that the plant kept and that is still alive is one of a survivor
        have hgrown := hclean.kept id hmine
        cases hfails : Turn.fails dt ⟨w, p⟩ with
        | false => exact .inl (hfirst hfails hgrown)
        | true => cases ((hclean.gone hfails).2.1 id hgrown).symm.trans halive
      · exact .inr ⟨hwas, List.forall_mem_cons.mpr ⟨hmine, hrest⟩⟩
    · exact .inl (hfirst hfails hnew)
  case bonds =>
    intro serial bond hb
    rcases h.bonds serial bond hb with hb | ⟨q, hq, hends⟩
    · refine (hclean.bonds serial bond hb).imp_right fun hnew => ?_
      exact ⟨_, mem_survivors_cons.mpr (.inl ⟨hnew.1, rfl⟩), hnew.2⟩
    · exact .inr ⟨q, mem_survivors_cons.mpr (.inr hq), hends⟩

/-- The turns of guests keep those that fail apart from the others. -/
theorem isolated_turned (hw : w.Sound) (hps : ∀ p ∈ ps, p.Guest w) :
    Isolated dt w ps (turned dt w ps) := by
  induction ps generalizing w with
  | nil =>
    constructor
    case sound => exact hw
    case onward => exact .refl w
    case points => exact fun id hid => .inr ⟨hid, fun _ hp => absurd hp List.not_mem_nil⟩
    case bonds => exact fun serial bond hb => .inl hb
    all_goals simp [survivors, turns]
  | cons p rest ih =>
    obtain ⟨hp, hrest⟩ := List.forall_mem_cons.mp hps
    have hclean : Turn.Clean dt ⟨w, p⟩ := Turn.clean hw hp
    exact (ih hclean.sound fun q hq => (hrest q hq).onward hclean.onward).cons hclean hp

/-- Pushes and steps after the turns change nothing of this. -/
theorem Isolated.same (h : Isolated dt w ps w') {w'' : World α} (hsince : w'.Since w'')
    (hw : w'.Same w'') : Isolated dt w ps w'' := by
  have hspring : ∀ serial, w''.springIsAlive serial = w'.springIsAlive serial := fun serial => by
    rw [← World.bond?_isSome, ← World.bond?_isSome, hw.bonds]
  exact
    { sound := hsince.sound
      onward := h.onward.trans hsince.onward
      guests := fun q hq => (h.guests q hq).onward hsince.onward
      advanced := h.advanced
      gone := fun t ht hfails => by
        obtain ⟨hdestroyed, hpoints, hsprings⟩ := h.gone t ht hfails
        exact ⟨hdestroyed, fun id hid => (hw.alive id).trans (hpoints id hid),
          fun serial hm => (hspring serial).trans (hsprings serial hm)⟩
      points := fun id hid => h.points id ((hw.alive id).symm.trans hid)
      bonds := fun serial bond hb => h.bonds serial bond ((hw.bonds serial).symm.trans hb) }

/-- A garden in which the plants have had their turns. -/
def tended (dt : α) (g : Garden α) : Garden α :=
  { g with
    world := turned dt g.world g.plants
    plants := survivors dt g.world g.plants
    retired := g.retired ++ fallen dt g.world g.plants }

variable {g : Garden α}

/-- Tending goes on after the turn of the first plant, which stays in the bed unless it fails. -/
theorem tendFrom_cons (dt : α) (before : List (Plant α)) (p : Plant α) (after : List (Plant α))
    (g : Garden α) :
    let t : Turn α := ⟨g.world, p⟩
    let stays := if t.fails dt then [] else [t.grown dt]
    let next := { g with
      world := (t.outcome dt).1
      plants := before ++ stays ++ after
      retired := g.retired ++ if t.fails dt then [(t.outcome dt).2] else [] }
    (tendFrom dt before (p :: after) g).result = (tendFrom dt (before ++ stays) after next).result ∧
      (tendFrom dt before (p :: after) g).state =
        (tendFrom dt (before ++ stays) after next).state := by
  intro t
  have hrun : t.report dt = Plant.update dt (g.world, p) := rfl
  have hsaid : ∀ (n : Note α) (g : Garden α),
    say n g = ⟨.ok (), g, [(Entry.stamp g.journalClock n, g)]⟩ := fun _ _ => rfl
  rw [tendFrom, bind_of_ok (caringAmong_result before p after (Plant.update dt) g),
    caringAmong_state, ← hrun]
  cases hr : (t.report dt).result with
  | ok done =>
    have hfails : t.fails dt = false := by simp [Turn.fails, hr, Except.isOk, Except.toBool]
    simp [hfails, Turn.outcome, Turn.grown]
  | error cause =>
    have hfails : t.fails dt = true := by simp [Turn.fails, hr, Except.isOk, Except.toBool]
    dsimp only
    rw [bind_ok (hsaid _ _), bind_ok (modify_apply _ _), bind_of_ok (retire_result _ _),
      retire_state]
    simp [hfails, Turn.outcome]

/-- Tending some plants gives each its turn, and cannot fail. -/
theorem tendFrom_turns (before after : List (Plant α)) (hplants : g.plants = before ++ after) :
    (tendFrom dt before after g).result = .ok () ∧ (tendFrom dt before after g).state =
      { g with
        world := turned dt g.world after
        plants := before ++ survivors dt g.world after
        retired := g.retired ++ fallen dt g.world after } := by
  induction after generalizing before g with
  | nil => simp [tendFrom, turned, survivors, fallen, turns, ← hplants]
  | cons p after ih =>
    obtain ⟨hresult, hstate⟩ := tendFrom_cons dt before p after g
    refine ⟨hresult.trans (ih _ rfl).1, hstate.trans ((ih _ rfl).2.trans ?_)⟩
    simp [turned, survivors_cons, fallen_cons]

theorem tendAll_tended (dt : α) (g : Garden α) :
    (tendAll dt g).result = .ok () ∧ (tendAll dt g).state = g.tended dt :=
  tendFrom_turns [] g.plants rfl

end Garden
end Arboretum
