import Arboretum.Proofs.Draws
import Arboretum.Proofs.Garden.Turns

/-!
The life of a bed. Whatever is done to a garden, also by others, its plants stay guests of its
world. Plantings that are due cannot stop a tick where the kind of a plant can be drawn.
-/
namespace Arboretum

open Arboretum.Action

variable {α : Type}

namespace Plant

variable {w : World α} {p : Plant α}

/-- A plant that somebody destroys stays a guest, without a body. -/
theorem Guest.destroy (hp : p.Guest w) (hw : w.Sound) :
    (destroy (w, p)).state.2.Guest (destroy (w, p)).state.1 := by
  cases hliving : p.destroyed with
  | true =>
    rw [destroy_again hliving]
    exact hp
  | false =>
    have hfit : p.Fit := ⟨hp.drill, hliving⟩
    obtain ⟨-, hbody, -⟩ := destroy_fit hw hfit
    have hreleased : (building Graph.release (w, p)).result = .ok () :=
      (Graph.release_shed hw p.graph).1
    have hkept : (Plant.destroy (w, p)).state.2 =
        { p with graph := (Plant.destroy (w, p)).state.2.graph, destroyed := true } := by
      rw [destroy_apply hfit, bind_of_ok hreleased]
      rfl
    rw [hbody] at hkept
    rw [hkept]
    exact ⟨hp.drill, hp.movable, hp.shares, .new _ _ _, fun _ => ⟨rfl, rfl⟩⟩

variable [Scalar α]

/-- A plant at work stays a guest, also where it stops. -/
theorem Guest.update (hp : p.Guest w) (hw : w.Sound) (dt : α) :
    (update dt (w, p)).state.2.Guest (update dt (w, p)).state.1 := by
  cases hliving : p.destroyed with
  | true =>
    obtain ⟨e, -, hstate⟩ := update_destroyed (w := w) hliving dt
    rw [hstate]
    exact hp
  | false =>
    obtain ⟨htight, houtgrows⟩ := keeps_tight_update dt (w, p)
      ⟨Graph.Tight.start hw hp.numbered, Outgrows.refl p⟩
    exact houtgrows.guest hp hliving htight.numbered

/-- A plant that is planted in a world that it does not own is a guest there. -/
theorem guest_of_plant (hw : w.Sound) {order : Planting α} {d : Draws α}
    (hshares : order.ownsWorld = false) (h : (plant order (w, d)).result = .ok p) :
    p.Guest (plant order (w, d)).state.1 := by
  obtain ⟨seedling, hsow, hgrown⟩ := of_plant_ok h
  obtain ⟨hdrill, hliving, howns⟩ := sow_fresh hsow
  obtain ⟨origin, scale, hgraph⟩ := (sown_of_sow hsow).graph
  have hseedling : seedling.Guest w := by
    refine ⟨hdrill ▸ rfl, hdrill ▸ rfl, howns.trans hshares, hgraph ▸ .new origin scale w, ?_⟩
    simp [hliving]
  have htight := rooted tight_crew hgrown (.start hw hseedling.numbered)
  have houtgrows := keeps_growing_outgrows (Growth.placeRoots crew) (w, seedling)
    (Outgrows.refl seedling)
  rw [hgrown] at houtgrows
  exact houtgrows.guest hseedling hliving htight.numbered

end Plant

namespace Garden

/-- A garden of guests, with room for one. -/
structure Tidy (g : Garden α) : Prop where
  sound : g.world.Sound
  guests : ∀ p ∈ g.plants, p.Guest g.world
  room : 1 ≤ g.maxPlants

theorem grounded_tidy : Grounded (Tidy (α := α)) :=
  fun _ _ _ _ _ _ _ _ h => ⟨h.sound, h.guests, h.room⟩

/-- A tidy garden at a moment, with a stream that it draws from and some plants beside the bed. -/
structure Waiting (now : Clock α) (stream : Nat → α) (beside : List (Plant α)) (g : Garden α) :
    Prop extends Tidy g where
  beside : ∀ p ∈ beside, p.Guest g.world
  now : g.clock = now
  stream : g.draws.draw = stream

variable {g : Garden α} {p : Plant α} {ps : List (Plant α)} {now : Clock α} {stream : Nat → α}
  {stopped : Garden α → Prop}

theorem Tidy.waiting (h : Tidy g) : Waiting g.clock g.draws.draw [] g :=
  ⟨h, fun _ hp => absurd hp List.not_mem_nil, rfl, rfl⟩

theorem Tidy.onward (h : Tidy g) {w : World α} (hw : g.world.Since w) :
    Tidy { g with world := w } :=
  ⟨hw.sound, fun p hp => (h.guests p hp).onward hw.onward, h.room⟩

theorem Tidy.since (h : Tidy g) : g.world.Since g.world := ⟨h.sound, .refl g.world⟩

theorem Waiting.onward (h : Waiting now stream ps g) {w : World α} (hw : g.world.Since w) :
    Waiting now stream ps { g with world := w } :=
  ⟨h.toTidy.onward hw, fun p hp => (h.beside p hp).onward hw.onward, h.now, h.stream⟩

/-- The bed may be laid out anew. -/
theorem Waiting.bed {qs ps' : List (Plant α)} (h : Waiting now stream ps g)
    (hqs : ∀ q ∈ qs, q.Guest g.world) (hps : ∀ p ∈ ps', p.Guest g.world) :
    Waiting now stream ps' { g with plants := qs } :=
  ⟨⟨h.sound, hqs, h.room⟩, hps, h.now, h.stream⟩

/-- What keeps a garden waiting keeps it tidy. -/
theorem Tidy.after {ρ : Type} {x : Tending α ρ} (h : Tidy g)
    (hx : ∀ {now stream}, Meets (Waiting now stream []) x (Waiting now stream [])
      fun _ => Waiting now stream []) : Tidy (x g).state :=
  (hx.after h.waiting).toTidy

/-- Looking after one plant of the bed leaves the others guests. -/
theorem Tidy.caringAmong {ρ : Type} (h : Tidy g) {before after : List (Plant α)}
    (hplants : g.plants = before ++ p :: after) {x : Plant.Care α ρ}
    (hsince : g.world.Since (x (g.world, p)).state.1)
    (hguest : p.Guest g.world → (x (g.world, p)).state.2.Guest (x (g.world, p)).state.1) :
    Tidy (caringAmong before p after x g).state := by
  rw [caringAmong_state]
  have hguests := h.guests
  rw [hplants] at hguests
  obtain ⟨hbefore, hrest⟩ := List.forall_mem_append.mp hguests
  obtain ⟨hp, hafter⟩ := List.forall_mem_cons.mp hrest
  refine ⟨hsince.sound, List.forall_mem_append.mpr ⟨fun q hq => ?_,
    List.forall_mem_cons.mpr ⟨hguest hp, fun q hq => ?_⟩⟩, h.room⟩
  · exact (hbefore q hq).onward hsince.onward
  · exact (hafter q hq).onward hsince.onward

/-! ### Plants leave -/

theorem waits_retire (p : Plant α) :
    Meets (Waiting now stream ps) (retire p) stopped fun _ => Waiting now stream ps := by
  refine .returns fun g h => ⟨(), retire_result p g, ?_⟩
  have hsince := Plant.lasting_destroy (World.lasting_since g.world) (g.world, p) h.toTidy.since
  have hthen := h.onward hsince
  rw [retire_state]
  exact ⟨⟨hthen.sound, hthen.guests, hthen.room⟩, hthen.beside, hthen.now, hthen.stream⟩

theorem waits_uproot (ps : List (Plant α)) :
    Meets (Waiting now stream ps) (uproot ps) stopped fun _ => Waiting now stream [] := by
  induction ps with
  | nil => exact .pure fun _ h => h
  | cons p rest ih =>
    refine .bind (.modify fun g h => ?_) fun _ => (waits_retire p).bind fun _ => ih
    have hrest := (List.forall_mem_cons.mp h.beside).2
    exact h.bed hrest hrest

theorem waits_clear :
    Meets (Waiting now stream []) (clear (α := α)) stopped fun _ => Waiting now stream [] := by
  unfold clear
  refine .bind .read fun g => ?_
  have hall : ∀ t, g = t ∧ Waiting now stream [] t → Waiting now stream g.plants t := by
    rintro t ⟨rfl, h⟩
    exact ⟨h.toTidy, h.guests, h.now, h.stream⟩
  refine .bind ((waits_uproot g.plants).of_pre hall) fun _ => .bind (.modify fun t h => ?_) fun _ =>
    meets_say _
  exact ⟨⟨h.sound, h.guests, h.room⟩, h.beside, h.now, h.stream⟩

/-- Making room in a bed that is not empty. -/
theorem waits_evictOldest : Meets (fun g => Waiting now stream ps g ∧ g.plants ≠ [])
    evictOldest stopped fun _ => Waiting now stream ps := by
  unfold evictOldest
  refine .bind .read fun g => ?_
  split
  · rename_i hnone
    exact .assume False (fun t ht => ht.2.2 (ht.1 ▸ hnone)) False.elim
  · rename_i oldest rest hplants
    refine .bind (meets_say _) fun _ => .bind (.modify ?_) fun _ => waits_retire oldest
    rintro t ⟨rfl, h, -⟩
    exact h.bed (fun q hq => h.guests q (hplants ▸ List.mem_cons_of_mem oldest hq)) h.beside

/-! ### Plants come -/

/-- What waits beside the bed goes to its end. -/
theorem Waiting.plant (h : Waiting now stream [p] g) : Waiting now stream []
    { g with lastPlanting := some g.clock.seconds, plants := g.plants ++ [p] } := by
  have hall : ∀ q ∈ g.plants ++ [p], q.Guest g.world := fun q hq =>
    (List.mem_append.mp hq).elim (h.guests q) (h.beside q)
  exact ⟨⟨h.sound, hall, h.room⟩, fun _ hq => absurd hq List.not_mem_nil, h.now, h.stream⟩

variable [Scalar α]

/-- A plant that has come up waits beside the bed. -/
theorem waits_grow (spot : Vec α) (seed : Seed α) (qs : List (Plant α)) :
    Meets (fun g => Waiting now stream [] g ∧ g.plants = qs) (grow spot seed).attempt stopped
      fun outcome g => Waiting now stream outcome.toOption.toList g ∧ g.plants = qs := by
  apply Meets.returns
  rintro g ⟨h, hqs⟩
  refine ⟨(grow spot seed g).result, rfl, ?_⟩
  have hstate : ((grow spot seed).attempt g).state = { g with
      world := (Plant.plant (g.planting spot seed) (g.world, g.draws)).state.1
      draws := (Plant.plant (g.planting spot seed) (g.world, g.draws)).state.2 } := rfl
  have hsince := Plant.lasting_plant (World.lasting_since g.world) (g.planting spot seed)
    (g.world, g.draws) h.toTidy.since
  have hstream := Plant.keeps_draws (Draws.steady_stream stream) (g.planting spot seed)
    (g.world, g.draws) h.stream
  have hthen := h.onward hsince
  rw [hstate]
  refine ⟨⟨⟨hthen.sound, hthen.guests, hthen.room⟩, fun p hp => ?_, hthen.now, hstream⟩, hqs⟩
  cases hr : (grow spot seed g).result with
  | error cause => simp [hr, Except.toOption] at hp
  | ok q =>
    have hplanted : (Plant.plant (g.planting spot seed) (g.world, g.draws)).result = .ok q := hr
    have hq : p = q := by simpa [hr, Except.toOption] using hp
    rw [hq]
    exact Plant.guest_of_plant h.sound rfl hplanted

theorem waits_settle {g₀ : Garden α} (hroom : 1 ≤ g₀.maxPlants) (spot : Vec α)
    (choice : Option String × Seed α) :
    Meets (fun g => Waiting now stream [] g ∧ g.plants = g₀.plants) (settle g₀ spot choice) stopped
      fun _ => Waiting now stream [] := by
  unfold settle
  refine (waits_grow spot choice.2 g₀.plants).bind fun outcome => ?_
  cases outcome with
  | error cause => exact (meets_say _).bind fun _ => .pure fun _ h => h.1
  | ok p =>
    dsimp only
    split
    · rename_i hfull
      refine .bind (waits_evictOldest.of_pre fun t h => ⟨h.1, fun hnone => ?_⟩) fun _ =>
        .answer (.modify fun _ h => Waiting.plant h)
      rw [h.2] at hnone
      rw [hnone, List.length_nil] at hfull
      omega
    · exact .answer (.modify fun _ h => h.1.plant)

section
variable (hchoose : ∀ taken,
  (Preset.choose ⟨stream, taken⟩ : Report (Note α) (Draws α) Preset).result.isOk = false →
    ∀ g, Waiting now stream [] g → stopped g)
include hchoose

/-- Only a draw of the kind can stop a planting. -/
theorem waits_choice (kind : Option String) (grammar : Option (Grammar α)) (qs : List (Plant α)) :
    Meets (fun g => Waiting now stream [] g ∧ g.plants = qs) (choice kind grammar) stopped
      fun _ g => Waiting now stream [] g ∧ g.plants = qs := by
  have hdrawn : Meets (fun g => Waiting now stream [] g ∧ g.plants = qs)
      (drawing (α := α) Preset.choose) stopped
      fun _ g => Waiting now stream [] g ∧ g.plants = qs := by
    rintro g ⟨h, hqs⟩
    have hstream := Draws.keeps_choose (ν := Note α) (Draws.steady_stream stream) Preset.all
      .outsidePresets g.draws h.stream
    have hthen : Waiting now stream [] ((drawing (α := α) Preset.choose) g).state :=
      ⟨⟨h.sound, h.guests, h.room⟩, h.beside, h.now, hstream⟩
    refine ⟨fun e he => hchoose g.draws.taken ?_ _ hthen, fun _ _ => ⟨hthen, hqs⟩⟩
    have hresult : (Preset.choose g.draws : Report (Note α) (Draws α) Preset).result =
        .error e := he
    rw [← h.stream, hresult]
    rfl
  unfold choice
  split
  · exact .pure fun _ h => h
  · exact .pure fun _ h => h
  · unfold pickKind
    refine .bind (.bind .read fun g => ?_) fun _ => .pure fun _ h => h
    split
    · exact .pure fun _ h => h.2
    · exact .bind (hdrawn.of_pre fun _ h => h.2) fun _ => .pure fun _ h => h

theorem waits_createPlant (spot : Vec α) (kind : Option String) (grammar : Option (Grammar α)) :
    Meets (Waiting now stream []) (createPlant spot kind grammar) stopped
      fun _ => Waiting now stream [] := by
  rw [createPlant_eq]
  refine .bind .read fun g => ?_
  split
  · exact .pure fun _ h => h.2
  · refine .assume (1 ≤ g.maxPlants) (fun t h => h.1 ▸ h.2.room) fun hroom => ?_
    refine .bind ((waits_choice hchoose kind grammar g.plants).of_pre ?_) fun choice =>
      waits_settle hroom spot choice
    rintro t ⟨rfl, h⟩
    exact ⟨h, rfl⟩

theorem waits_plantNext (entry : Pending α) (rest : List (Pending α)) :
    Meets (Waiting now stream []) (plantNext entry rest) stopped
      fun _ => Waiting now stream [] := by
  have hsite : Meets (Waiting now stream []) (site rest) stopped
      fun _ => Waiting now stream [] := by
    refine .returns fun g h => ⟨_, rfl, ?_⟩
    exact ⟨⟨h.sound, h.guests, h.room⟩, h.beside, h.now, h.stream⟩
  unfold plantNext
  refine hsite.bind fun spot => (waits_createPlant hchoose spot _ _).bind fun planted => ?_
  split
  · exact meets_say _
  · exact .pure fun _ h => h

theorem waits_plantDue (time : α) (entries : List (Pending α)) :
    Meets (Waiting now stream []) (plantDue time entries) stopped
      fun _ => Waiting now stream [] := by
  induction entries with
  | nil => exact .pure fun _ h => h
  | cons entry rest ih =>
    rw [plantDue_cons]
    split
    · exact (waits_plantNext hchoose entry rest).bind fun _ => ih
    · exact .pure fun _ h => h

end

/-! ### Whatever is done -/

theorem tidy_createPlant (h : Tidy g) (spot : Vec α) (kind : Option String)
    (grammar : Option (Grammar α)) : Tidy (createPlant spot kind grammar g).state :=
  h.after (waits_createPlant (fun _ _ _ hg => hg) spot kind grammar)

theorem tidy_plantDue (h : Tidy g) (time : α) (entries : List (Pending α)) :
    Tidy (plantDue time entries g).state :=
  h.after (waits_plantDue (fun _ _ _ hg => hg) time entries)

theorem Tidy.tended (h : Tidy g) (dt : α) : Tidy (g.tended dt) := by
  have hisolated : Isolated dt g.world g.plants (turned dt g.world g.plants) :=
    isolated_turned h.sound h.guests
  exact ⟨hisolated.sound, hisolated.guests, h.room⟩

theorem tidy_update (h : Tidy g) (dt : α) : Tidy (update dt g).state := by
  have hpush : ∀ (g : Garden α) p force,
      Tidy g → Tidy { g with world := (World.push p force g.world).state } := fun g p force h =>
    h.onward ((World.lasting_since g.world).push p force g.world h.since)
  have hstep : ∀ g : Garden α, Tidy g →
      Tidy { g with world := g.world.step dt, clock := g.clock.advance dt } := fun g h =>
    grounded_tidy _ _ _ _ _ _ _ _ (h.onward ((World.lasting_since g.world).step dt h.since))
  have htick : Keeps Tidy (do
      tendAll dt
      let g ← Action.read
      let points ← Action.ofExcept g.movable
      applyForces points
      Action.modify fun g => { g with world := g.world.step dt, clock := g.clock.advance dt }) := by
    have htend : Keeps Tidy (tendAll (α := α) dt) := by
      intro g h
      rw [(tendAll_tended dt g).2]
      exact h.tended dt
    exact .bind htend fun _ => .bind .read fun g => .bind (.ofExcept _) fun points =>
      .bind (keeps_applyForces grounded_tidy.aside hpush points) fun _ => .modify hstep
  unfold update
  rw [read_bind]
  have hplanted := tidy_plantDue h g.clock.seconds g.pending
  exact after_bind hplanted fun _ _ => htick _ hplanted

theorem tidy_act (h : Tidy g) (d : Deed α) : Tidy (d.act g).state := by
  cases d with
  | theme name => exact Keeps.bind (keeps_setTheme grounded_tidy.aside name) (fun _ => .pure _) g h
  | nextTheme => exact Keeps.bind (keeps_cycleTheme grounded_tidy.aside) (fun _ => .pure _) g h
  | plant spot kind grammar =>
    have hplanted := tidy_createPlant h spot kind grammar
    exact after_bind hplanted fun _ _ => hplanted
  | schedule asked kind =>
    exact Keeps.bind (keeps_schedule grounded_tidy.aside asked kind) (fun _ => .pure _) g h
  | clear => exact h.after waits_clear
  | reset =>
    have hcleared : Tidy (clear g).state := h.after waits_clear
    have hrewound : Tidy { (clear g).state with
        lastPlanting := none, clock := (clear g).state.clock.rewind } :=
      grounded_tidy _ _ _ _ _ _ _ _ hcleared
    exact after_bind hcleared fun _ _ => hrewound
  | tick dt => exact tidy_update h dt
  | draw => exact Keeps.bind keeps_frames (fun _ => .pure _) g h
  | wind => exact Keeps.bind (keeps_toggleWind grounded_tidy.aside) (fun _ => .pure _) g h

/-- A garden that any use leads to. Others may call on its world and step it, let one of its plants
grow or destroy it, set what is neither its world nor its bed, and make plants fail, but not where
they are destroyed or tell which points move. -/
inductive Lived : Garden α → Prop where
  | new (width height : α) {maxPlants : Int} (cooldown rate : α) (scaleRange : α × α) (divisor : α)
    (draws : Draws α) (clocked : Bool) (hroom : 1 ≤ maxPlants) :
    Lived (.new width height maxPlants cooldown rate scaleRange divisor draws clocked)
  | deed {g : Garden α} (h : Lived g) (d : Deed α) : Lived (d.act g).state
  | grow {g : Garden α} (h : Lived g) {before after : List (Plant α)} {p : Plant α}
    (hplants : g.plants = before ++ p :: after) (dt : α) :
    Lived (caringAmong before p after (Plant.update dt) g).state
  | destroy {g : Garden α} (h : Lived g) {before after : List (Plant α)} {p : Plant α}
    (hplants : g.plants = before ++ p :: after) :
    Lived (caringAmong before p after Plant.destroy g).state
  | drill {g : Garden α} (h : Lived g) (drill : Plant α → Drill)
    (hdrill : ∀ p, (drill p).destroy = none ∧ (drill p).movable = none) :
    Lived { g with plants := g.plants.map fun p => { p with drill := drill p } }
  | edit {g : Garden α} (h : Lived g) (e : Edit α {p : Point α // g.world.Sees p} Spring) :
    Lived { g with world := (e.run Subtype.val id g.world).state }
  | step {g : Garden α} (h : Lived g) (dt : α) : Lived { g with world := g.world.step dt }
  | set {g g' : Garden α} (h : Lived g) (hw : g'.world = g.world) (hplants : g'.plants = g.plants)
    (hroom : 1 ≤ g'.maxPlants) : Lived g'

/-- A garden that lives has room for points. -/
theorem Lived.ready (h : Lived g) : g.world.Ready := by
  have hl : World.Lasting (α := α) World.Ready := World.lasting_ready
  induction h with
  | new => exact .new 0 _ (by decide)
  | deed _ d ih => exact Deed.lasting_act hl d _ ih
  | @grow g _ _ _ p _ dt ih => exact Plant.lasting_update hl dt (g.world, p) ih
  | @destroy g _ _ _ p _ ih => exact Plant.lasting_destroy hl (g.world, p) ih
  | drill _ _ _ ih => exact ih
  | edit _ e ih =>
    exact hl.changes ih
      (World.changes_run ih.toSound id Subtype.property e fun _ _ _ _ => trivial)
  | step _ dt ih => exact hl.step dt ih
  | set _ hw _ _ ih => exact hw ▸ ih

theorem Lived.tidy (h : Lived g) : Tidy g := by
  induction h with
  | new width height cooldown rate scaleRange divisor draws clocked hroom =>
    have hworld := World.Sound.new 0 { Setting.default with bounds := some ⟨0, ⟨width, height⟩⟩ }
      World.defaultCapacity
    exact ⟨hworld, fun _ hp => absurd hp List.not_mem_nil, hroom⟩
  | deed _ d ih => exact tidy_act ih d
  | @grow g _ _ _ p hplants dt ih =>
    have hsince := Plant.lasting_update (World.lasting_since g.world) dt (g.world, p) ih.since
    exact ih.caringAmong hplants hsince fun hp => hp.update ih.sound dt
  | @destroy g _ _ _ p hplants ih =>
    have hsince := Plant.lasting_destroy (World.lasting_since g.world) (g.world, p) ih.since
    exact ih.caringAmong hplants hsince fun hp => hp.destroy ih.sound
  | drill _ drill hdrill ih =>
    refine ⟨ih.sound, fun q hq => ?_, ih.room⟩
    obtain ⟨p, hp, rfl⟩ := List.mem_map.mp hq
    have hguest := ih.guests p hp
    exact { hguest with drill := (hdrill p).1, movable := (hdrill p).2 }
  | edit _ e ih =>
    exact ih.onward ((World.lasting_since _).changes ih.since
      (World.changes_run ih.sound id Subtype.property e fun _ _ _ _ => trivial))
  | step _ dt ih => exact ih.onward ((World.lasting_since _).step dt ih.since)
  | set _ hw hplants hroom ih =>
    exact ⟨hw ▸ ih.sound, fun p hp => hw ▸ ih.guests p (hplants ▸ hp), hroom⟩

end Garden
end Arboretum
