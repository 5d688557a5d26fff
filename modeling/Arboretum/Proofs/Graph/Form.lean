import Arboretum.Proofs.Graph.Strands
import Arboretum.Proofs.Quadtree.Nearest
import Arboretum.Proofs.World.Nature

/-!
The form of a body: which cells have joints and which of them are pinned, what strands and braces
join, and how many fruits hang. What is built decides on it alone, wherever the body stands and
however it has swayed.
-/
namespace Arboretum

open Arboretum.Action

variable {α : Type}

/-- A body without its place and its motion. -/
structure Form (α : Type) where
  /-- The cells that have joints, oldest first, and which of them are pinned. -/
  joints : List (Cell × Bool)
  /-- The cells that the strand of each numbered segment joins. -/
  strands : List (Int × Cell × Cell)
  /-- The cells that each brace joins, and its length at rest. -/
  braces : List (Cell × Cell × α)
  fruits : Nat

namespace Form

def bare : Form α := ⟨[], [], [], 0⟩

def cells (f : Form α) : List Cell := f.joints.map (·.1)

/-- Are the joints of two cells braced, either way round? -/
def Braced (f : Form α) (p q : Cell) : Prop :=
  (p, q) ∈ f.braces.map (fun b => (b.1, b.2.1)) ∨ (q, p) ∈ f.braces.map (fun b => (b.1, b.2.1))

instance (f : Form α) (p q : Cell) : Decidable (f.Braced p q) :=
  inferInstanceAs (Decidable (_ ∨ _))

/-- The joint of a cell, made if there is none yet, and pinned if it has to be. -/
def joint (cell : Cell) (fixed : Bool) (f : Form α) : Form α :=
  if cell ∈ f.cells then
    { f with joints := f.joints.map fun j => if j.1 = cell then (j.1, j.2 || fixed) else j }
  else { f with joints := f.joints ++ [(cell, fixed)] }

section
variable [Scalar α]

def segment (s : Segment α) (index : Int) (f : Form α) : Form α :=
  match s.cells with
  | .ok (start, tip) =>
    if start = tip then f
    else
      let jointed := (f.joint start s.isRoot).joint tip s.isRoot
      { jointed with strands := Graph.put index (start, tip) jointed.strands }
  | .error _ => f

def brace (scale : α) (o : Segment α × Segment α) (f : Form α) : Form α :=
  match Cell.of o.1.tip, Cell.of o.2.tip with
  | .ok p, .ok q =>
    if p ∈ f.cells ∧ q ∈ f.cells ∧ p ≠ q ∧ ¬ f.Braced p q ∧
        ¬ (o.1.length * scale < Graph.leastLength ∨ o.2.length * scale < Graph.leastLength) then
      match oppositeSide (o.1.length * scale) (o.2.length * scale)
          (Scalar.abs (o.1.heading - o.2.heading)) with
      | .ok rest => { f with braces := f.braces ++ [(p, q, rest)] }
      | .error _ => f
    else f
  | _, _ => f

/-- The pairs of segments that leave a common cell with a joint. -/
def openings (f : Form α) (groups : List (Cell × List (Segment α))) :
    List (Segment α × Segment α) :=
  (groups.filter fun group => group.1 ∈ f.cells).flatMap fun group => Graph.pairs group.2

def braceAll (scale : α) (segments : List (Segment α)) (f : Form α) : Form α :=
  match Graph.grouped [] segments with
  | .ok groups => (f.openings groups).foldl (fun f o => f.brace scale o) f
  | .error _ => f

/-- Fruits hang from a body that has any joint. -/
def hang (fruits : List (Fruit α)) (f : Form α) : Form α :=
  if f.joints.isEmpty then f else { f with fruits := f.fruits + fruits.length }

end

theorem foldl_fruits {ι : Type} (fruits : List ι) (f : Form α) :
    fruits.foldl (fun f _ => { f with fruits := f.fruits + 1 }) f =
      { f with fruits := f.fruits + fruits.length } := by
  induction fruits generalizing f with
  | nil => rfl
  | cons fruit rest ih =>
    rw [List.foldl_cons, ih, List.length_cons, Nat.add_right_comm, Nat.add_assoc]

end Form

namespace Graph

/-- The cell that a point is the joint of. -/
def cell? (g : Graph α) (id : Nat) : Option Cell := (g.joints.find? fun j => j.2 == id).map (·.1)

/-- The cells that a spring of a body was made between, and its length at rest. -/
def span? (s : World α × Graph α) (serial : Nat) : Option (Cell × Cell × α) :=
  (s.1.made? serial).bind fun bond =>
    (s.2.cell? bond.a).bind fun a => (s.2.cell? bond.b).map fun b => (a, b, bond.rest)

/-- A body in a world has a form. -/
structure Shaped (s : World α × Graph α) (f : Form α) : Prop where
  fitted : Fitted s.1 s.2
  joints : s.2.joints.map (fun j => (s.1.pinned? j.2).map (j.1, ·)) = f.joints.map some
  strands : s.2.strands.map (fun e => (span? s e.2.1).map fun b => (e.1, b.1, b.2.1)) =
    f.strands.map some
  braces : s.2.braces.map (span? s) = f.braces.map some

/-! ### Lists of what is known -/

/-- What is known of the entries of a list stays so where nothing known is forgotten. -/
theorem map_some_of_stays {β δ : Type} {xs : List β} {ys : List δ} {known known' : β → Option δ}
    (h : xs.map known = ys.map some)
    (hstays : ∀ x ∈ xs, ∀ y, known x = some y → known' x = some y) :
    xs.map known' = ys.map some := by
  rw [← h]
  refine List.map_congr_left fun x hx => ?_
  have hmem : known x ∈ ys.map some := h ▸ List.mem_map_of_mem hx
  obtain ⟨y, -, hy⟩ := List.mem_map.mp hmem
  rw [← hy]
  exact hstays x hx y hy.symm

theorem of_map_some {β δ : Type} {xs : List β} {ys : List δ} {known : β → Option δ}
    (h : xs.map known = ys.map some) (y : δ) : y ∈ ys ↔ ∃ x ∈ xs, known x = some y := by
  have hmem : some y ∈ ys.map some ↔ y ∈ ys := by simp
  rw [← hmem, ← h, List.mem_map]

/-- An entry is put in its place in both of two lists that go together. -/
theorem map_put {κ β δ : Type} [BEq κ] [LawfulBEq κ] {known : κ × β → Option (κ × δ)}
    (hkeys : ∀ e d, known e = some d → d.1 = e.1) {key : κ} {value : β} {value' : δ}
    (hvalue : known (key, value) = some (key, value')) {xs : List (κ × β)} {ys : List (κ × δ)}
    (h : xs.map known = ys.map some) :
    (put key value xs).map known = (put key value' ys).map some := by
  induction xs generalizing ys with
  | nil =>
    cases ys with
    | nil => simp [put, hvalue]
    | cons y ys => cases h
  | cons x xs ih =>
    cases ys with
    | nil => cases h
    | cons y ys =>
      obtain ⟨k, v⟩ := x
      obtain ⟨k', v'⟩ := y
      rw [List.map_cons, List.map_cons, List.cons_eq_cons] at h
      obtain ⟨hfirst, hrest⟩ := h
      obtain rfl : k' = k := hkeys _ _ hfirst
      unfold put
      by_cases hk : k' == key
      · obtain rfl := eq_of_beq hk
        simp [hvalue, hrest]
      · simp [hk, hfirst, ih hrest]

/-! ### Cells and their joints -/

section
variable {w w' : World α} {g : Graph α} {f : Form α}

/-- An entry is found by its key where no two have the same. -/
theorem find?_of_key {β κ : Type} [BEq κ] [LawfulBEq κ] {key : β → κ} {xs : List β}
    (h : (xs.map key).Nodup) {x : β} (hx : x ∈ xs) :
    xs.find? (fun y => key y == key x) = some x := by
  cases hfound : xs.find? fun y => key y == key x with
  | none => simpa using List.find?_eq_none.mp hfound x hx
  | some y =>
    have hkey : key y = key x := by simpa using List.find?_some hfound
    rw [List.inj_on_of_nodup_map h (List.mem_of_find?_eq_some hfound) hx hkey]

theorem Fitted.joint?_eq_some (h : Fitted w g) {cell : Cell} {id : Nat} :
    g.joint? cell = some id ↔ (cell, id) ∈ g.joints := by
  refine ⟨mem_of_joint?, fun hmem => ?_⟩
  have hfound := find?_of_key h.cells hmem
  rw [joint?, hfound]
  rfl

theorem Fitted.cell?_eq_some (h : Fitted w g) {cell : Cell} {id : Nat} :
    g.cell? id = some cell ↔ (cell, id) ∈ g.joints := by
  constructor
  · intro hcell
    obtain ⟨j, hj, he⟩ := Option.map_eq_some_iff.mp hcell
    have hid : j.2 = id := by simpa using List.find?_some hj
    rw [← he, ← hid]
    exact List.mem_of_find?_eq_some hj
  · intro hmem
    have hfound := find?_of_key h.points hmem
    rw [cell?, hfound]
    rfl

theorem Fitted.cell?_of_joint? (h : Fitted w g) {cell : Cell} {id : Nat}
    (hj : g.joint? cell = some id) : g.cell? id = some cell :=
  h.cell?_eq_some.mpr (mem_of_joint? hj)

theorem span?_eq_some {s : World α × Graph α} {serial : Nat} {b : Cell × Cell × α} :
    span? s serial = some b ↔ ∃ bond, s.1.made? serial = some bond ∧
      s.2.cell? bond.a = some b.1 ∧ s.2.cell? bond.b = some b.2.1 ∧ bond.rest = b.2.2 := by
  obtain ⟨p, q, rest⟩ := b
  simp only [span?, Option.bind_eq_some_iff, Option.map_eq_some_iff, Prod.mk.injEq]
  constructor
  · rintro ⟨bond, hmade, a, ha, c, hc, rfl, rfl, hrest⟩
    exact ⟨bond, hmade, ha, hc, hrest⟩
  · rintro ⟨bond, hmade, ha, hc, hrest⟩
    exact ⟨bond, hmade, p, ha, q, hc, rfl, rfl, hrest⟩

theorem Shaped.mem_cells {s : World α × Graph α} (h : Shaped s f) (cell : Cell) :
    cell ∈ f.cells ↔ (s.2.joint? cell).isSome := by
  rw [joint?_isSome, Form.cells, List.mem_map, List.mem_map]
  constructor
  · intro hcell
    obtain ⟨d, hd, he⟩ := hcell
    obtain ⟨j, hj, hknown⟩ := (of_map_some h.joints d).mp hd
    obtain ⟨_, _, rfl⟩ := Option.map_eq_some_iff.mp hknown
    exact ⟨j, hj, he⟩
  · intro hcell
    obtain ⟨j, hj, he⟩ := hcell
    have hmem := List.mem_map_of_mem (f := fun j => (s.1.pinned? j.2).map (j.1, ·)) hj
    rw [h.joints, List.mem_map] at hmem
    obtain ⟨d, hd, hknown⟩ := hmem
    obtain ⟨_, _, rfl⟩ := Option.map_eq_some_iff.mp hknown.symm
    exact ⟨_, hd, he⟩

end

/-- A body of a scale in a world takes a form; what is noted as braced are the ends of its braces,
and where searches find something, the fruits hang. -/
structure Embodies [Scalar α] (scale : α) (s : World α × Graph α) (f : Form α) : Prop where
  shaped : Shaped s f
  sound : s.1.Sound
  scale : s.2.scale = scale
  pairs : s.2.braces.map (fun serial => (s.1.made? serial).map fun bond =>
    (min bond.a bond.b, max bond.a bond.b)) = s.2.braced.reverse.map some
  fruits : PointIndex.Finds α → s.2.hangings.length = f.fruits

namespace Embodies

variable [Scalar α] {scale : α} {w w' : World α} {g : Graph α} {f : Form α}

theorem new (hw : w.Sound) (origin : Vec α) (scale : α) :
    Embodies scale (w, .new origin scale) .bare :=
  ⟨⟨.new w origin scale, rfl, rfl, rfl⟩, hw, rfl, rfl, fun _ => rfl⟩

/-- What becomes of the joints of a body, its strands and braces join what they joined. -/
theorem rejoint (h : Embodies scale (w, g) f) {joints : List (Cell × Nat)}
    {pinned : List (Cell × Bool)} (hs : w'.Sound) (hfitted : Fitted w' { g with joints })
    (hmade : ∀ serial < w.links.size, w'.made? serial = w.made? serial)
    (hmore : g.joints ⊆ joints)
    (hpinned : joints.map (fun j => (w'.pinned? j.2).map (j.1, ·)) = pinned.map some) :
    Embodies scale (w', { g with joints }) { f with joints := pinned } := by
  have hsaved {serial : Nat} {bond : Bond α} (hb : w.made? serial = some bond) :
      w'.made? serial = some bond := (hmade serial (World.made?_lt hb)).trans hb
  have hcell {id : Nat} {cell : Cell} (hc : g.cell? id = some cell) :
      ({ g with joints } : Graph α).cell? id = some cell :=
    hfitted.cell?_eq_some.mpr (hmore (h.shaped.fitted.cell?_eq_some.mp hc))
  have hspan (serial : Nat) (b : Cell × Cell × α) (hb : span? (w, g) serial = some b) :
      span? (w', { g with joints }) serial = some b := by
    obtain ⟨bond, hmade, ha, hb, hrest⟩ := span?_eq_some.mp hb
    exact span?_eq_some.mpr ⟨bond, hsaved hmade, hcell ha, hcell hb, hrest⟩
  refine ⟨⟨hfitted, hpinned, ?_, ?_⟩, hs, h.scale, ?_, h.fruits⟩
  · refine map_some_of_stays h.shaped.strands fun e _ d hd => ?_
    obtain ⟨b, hb, rfl⟩ := Option.map_eq_some_iff.mp hd
    exact Option.map_eq_some_iff.mpr ⟨b, hspan _ b hb, rfl⟩
  · exact map_some_of_stays h.shaped.braces fun serial _ => hspan serial
  · refine map_some_of_stays h.pairs fun serial _ pair hpair => ?_
    obtain ⟨bond, hb, rfl⟩ := Option.map_eq_some_iff.mp hpair
    exact Option.map_eq_some_iff.mpr ⟨bond, hsaved hb, rfl⟩

/-- What leaves the joints alive, and pinned or not as they are, leaves the form. -/
theorem world (h : Embodies scale (w, g) f) (hs : w'.Sound)
    (hpinned : ∀ j ∈ g.joints, w'.pinned? j.2 = w.pinned? j.2)
    (hmade : ∀ serial < w.links.size, w'.made? serial = w.made? serial) :
    Embodies scale (w', g) f := by
  have hfitted : Fitted w' g := by
    refine h.shaped.fitted.world fun j hj => ?_
    rw [← World.pinned?_isSome hs, hpinned j hj, World.pinned?_isSome h.sound]
    exact h.shaped.fitted.alive j hj
  refine h.rejoint hs hfitted hmade (List.Subset.refl _) ?_
  rw [← h.shaped.joints]
  exact List.map_congr_left fun j hj => by rw [hpinned j hj]

theorem lt_of_joint (h : Embodies scale (w, g) f) {j : Cell × Nat} (hj : j ∈ g.joints) :
    j.2 < w.slots.size := World.isAlive_lt (h.shaped.fitted.alive j hj)

/-- A world makes room, or has a new point that is no joint. -/
theorem roomy (h : Embodies scale (w, g) f) : Embodies scale (w.roomy, g) f :=
  h.world h.sound.roomy (fun _ _ => World.pinned?_roomy h.sound _)
    fun serial _ => World.made?_roomy w serial

theorem seat (h : Embodies scale (w, g) f) (hroom : w.count < w.capacity) (p : Particle α) :
    Embodies scale (w.seat p, g) f := by
  refine h.world (h.sound.seat hroom p) (fun j hj => ?_) fun _ _ => rfl
  rw [World.pinned?_seat h.sound hroom, if_neg (Nat.ne_of_lt (h.lt_of_joint hj))]

theorem link (h : Embodies scale (w, g) f) {a b : Nat} (hne : a ≠ b) (ha : w.isAlive a)
    (hb : w.isAlive b) (stiffness damping rest : α) :
    Embodies scale (w.link a b stiffness damping rest, g) f := by
  refine h.world (h.sound.link hne ha hb stiffness damping rest) (fun _ _ => rfl) ?_
  intro serial hlt
  rw [World.made?_link, if_neg (Nat.ne_of_lt hlt)]

/-- A new point can be the joint of a cell that has none. -/
theorem add (h : Embodies scale (w, g) f) (hroom : w.count < w.capacity) {cell : Cell}
    (hcell : g.joint? cell = none) (p : Particle α) :
    Embodies scale (w.seat p, { g with joints := g.joints ++ [(cell, w.slots.size)] })
      (f.joint cell p.pinned) := by
  have hnew : cell ∉ f.cells := by
    rw [h.shaped.mem_cells, hcell]
    exact Bool.false_ne_true
  unfold Form.joint
  rw [if_neg hnew]
  refine (h.seat hroom p).rejoint (h.sound.seat hroom p) (h.shaped.fitted.add hcell p)
    (fun _ _ => rfl) (List.subset_append_left _ _) ?_
  rw [List.map_append, List.map_append, (h.seat hroom p).shaped.joints]
  simp [World.pinned?_seat h.sound hroom]

/-- The joint that a cell has is pinned, if it has to be. -/
theorem refit (h : Embodies scale (w, g) f) {cell : Cell} {id : Nat}
    (hj : g.joint? cell = some id) (fixed : Bool) (hs : w'.Sound)
    (hpinned : ∀ x, w'.pinned? x = if x = id then (w.pinned? x).map (· || fixed) else w.pinned? x)
    (hmade : ∀ serial, w'.made? serial = w.made? serial) :
    Embodies scale (w', g) (f.joint cell fixed) := by
  have hold : cell ∈ f.cells := by
    rw [h.shaped.mem_cells, hj]
    rfl
  have hmem := h.shaped.fitted.joint?_eq_some.mp hj
  have hfitted : Fitted w' g := by
    refine h.shaped.fitted.world fun j hj => ?_
    rw [← World.pinned?_isSome hs, hpinned]
    split
    · rw [Option.isSome_map, World.pinned?_isSome h.sound]
      exact h.shaped.fitted.alive j hj
    · rw [World.pinned?_isSome h.sound]
      exact h.shaped.fitted.alive j hj
  unfold Form.joint
  rw [if_pos hold]
  refine h.rejoint hs hfitted (fun serial _ => hmade serial) (List.Subset.refl _) ?_
  -- the joint of the cell is the one whose point it is
  have hone (j : Cell × Nat) (hj : j ∈ g.joints) : j.2 = id ↔ j.1 = cell :=
    h.shaped.fitted.joint_eq (h.shaped.fitted.joint?_eq_some.mpr hj)
      (h.shaped.fitted.joint?_eq_some.mpr hmem)
  have hmapped := congrArg (List.map (Option.map fun j : Cell × Bool =>
    if j.1 = cell then (j.1, j.2 || fixed) else j)) h.shaped.joints
  simp only [List.map_map, Function.comp_def, Option.map_some] at hmapped
  rw [List.map_map, Function.comp_def, ← hmapped]
  refine List.map_congr_left fun j hj => ?_
  rw [hpinned]
  by_cases hcell : j.1 = cell
  · simp [hcell, (hone j hj).mpr hcell, Option.map_map, Function.comp_def]
  · simp [hcell, mt (hone j hj).mp hcell, Option.map_map, Function.comp_def]

/-- A new spring between two joints spans their cells. -/
theorem span?_link (h : Embodies scale (w, g) f) {p q : Cell} {a b : Nat}
    (hp : g.joint? p = some a) (hq : g.joint? q = some b) (stiffness damping rest : α) :
    span? (w.link a b stiffness damping rest, g) w.links.size = some (p, q, rest) := by
  have hfitted := h.shaped.fitted
  refine span?_eq_some.mpr ⟨⟨a, b, stiffness, damping, rest⟩, ?_, hfitted.cell?_of_joint? hp,
    hfitted.cell?_of_joint? hq, rfl⟩
  exact (World.made?_link ..).trans (if_pos rfl)

theorem strand (h : Embodies scale (w, g) f) {serial : Nat} {p q : Cell} {rest : α}
    (hspan : span? (w, g) serial = some (p, q, rest)) (index : Int) (s : Segment α) :
    Embodies scale (w, { g with strands := put index (serial, s) g.strands })
      { f with strands := put index (p, q) f.strands } := by
  obtain ⟨⟨hfitted, hjoints, hstrands, hbraces⟩, hsound, hscale, hpairs, hfruits⟩ := h
  refine ⟨⟨⟨hfitted.cells, hfitted.points, hfitted.alive⟩, hjoints, ?_, hbraces⟩, hsound, hscale,
    hpairs, hfruits⟩
  refine map_put (fun e d hd => ?_) ?_ hstrands
  · obtain ⟨_, _, rfl⟩ := Option.map_eq_some_iff.mp hd
    rfl
  · exact Option.map_eq_some_iff.mpr ⟨(p, q, rest), hspan, rfl⟩

/-- The ends of a new brace are noted with it. -/
theorem brace (h : Embodies scale (w, g) f) {serial : Nat} {bond : Bond α} {p q : Cell} {rest : α}
    (hmade : w.made? serial = some bond) (hspan : span? (w, g) serial = some (p, q, rest)) :
    Embodies scale (w, { g with
        braced := (min bond.a bond.b, max bond.a bond.b) :: g.braced
        braces := g.braces ++ [serial] })
      { f with braces := f.braces ++ [(p, q, rest)] } := by
  obtain ⟨⟨hfitted, hjoints, hstrands, hbraces⟩, hsound, hscale, hpairs, hfruits⟩ := h
  refine ⟨⟨⟨hfitted.cells, hfitted.points, hfitted.alive⟩, hjoints, hstrands, ?_⟩, hsound, hscale,
    ?_, hfruits⟩
  · rw [List.map_append, List.map_append, List.map_singleton, List.map_singleton, ← hbraces,
      ← hspan]
    rfl
  · rw [List.map_append, List.reverse_cons, List.map_append, List.map_singleton, hmade, ← hpairs]
    rfl

theorem hanging (h : Embodies scale (w, g) f) (hanging : Hanging α) :
    Embodies scale (w, { g with hangings := g.hangings ++ [hanging] })
      { f with fruits := f.fruits + 1 } := by
  obtain ⟨⟨hfitted, hjoints, hstrands, hbraces⟩, hsound, hscale, hpairs, hfruits⟩ := h
  refine ⟨⟨⟨hfitted.cells, hfitted.points, hfitted.alive⟩, hjoints, hstrands, hbraces⟩, hsound,
    hscale, hpairs, fun hfinds => ?_⟩
  rw [List.length_append, hfruits hfinds]
  rfl

/-- Where searches may find nothing, fruits are not counted. -/
theorem uncounted (h : Embodies scale (w, g) f) (hfinds : ¬ PointIndex.Finds α) (fruits : Nat) :
    Embodies scale (w, g) { f with fruits } :=
  ⟨⟨h.shaped.fitted, h.shaped.joints, h.shaped.strands, h.shaped.braces⟩, h.sound, h.scale,
    h.pairs, fun hf => absurd hf hfinds⟩

/-- Two joints are noted as braced just if their cells are. -/
theorem braced_iff (h : Embodies scale (w, g) f) {p q : Cell} {a b : Nat}
    (hp : g.joint? p = some a) (hq : g.joint? q = some b) :
    (min a b, max a b) ∈ g.braced ↔ f.Braced p q := by
  have hfitted := h.shaped.fitted
  have hcell {c : Cell} {id : Nat} : g.cell? id = some c ↔ g.joint? c = some id :=
    hfitted.cell?_eq_some.trans hfitted.joint?_eq_some.symm
  rw [← List.mem_reverse, of_map_some h.pairs]
  constructor
  · rintro ⟨serial, hserial, hpair⟩
    obtain ⟨bond, hmade, hends⟩ := Option.map_eq_some_iff.mp hpair
    have hmem := List.mem_map_of_mem (f := span? (w, g)) hserial
    rw [h.shaped.braces, List.mem_map] at hmem
    obtain ⟨b', hb', hspan⟩ := hmem
    obtain ⟨bond', hmade', hA, hB, -⟩ := span?_eq_some.mp hspan.symm
    cases hmade.symm.trans hmade'
    have hin : (b'.1, b'.2.1) ∈ f.braces.map fun b => (b.1, b.2.1) := List.mem_map_of_mem hb'
    -- the ends of the brace are the two joints, one way or the other
    have hsame : bond.a = a ∧ bond.b = b ∨ bond.a = b ∧ bond.b = a := by
      simp only [Prod.mk.injEq] at hends
      omega
    rcases hsame with ⟨ha, hb⟩ | ⟨ha, hb⟩
    · rw [ha, hcell.mpr hp, Option.some.injEq] at hA
      rw [hb, hcell.mpr hq, Option.some.injEq] at hB
      left
      rwa [hA, hB]
    · rw [ha, hcell.mpr hq, Option.some.injEq] at hA
      rw [hb, hcell.mpr hp, Option.some.injEq] at hB
      right
      rwa [hA, hB]
  · have hfound {c d : Cell} {i j : Nat} (hc : g.joint? c = some i) (hd : g.joint? d = some j)
        (hin : (c, d) ∈ f.braces.map fun b => (b.1, b.2.1)) :
        ∃ serial ∈ g.braces, (w.made? serial).map (fun bond =>
          (min bond.a bond.b, max bond.a bond.b)) = some (min i j, max i j) := by
      obtain ⟨b', hb', he⟩ := List.mem_map.mp hin
      obtain ⟨serial, hserial, hspan⟩ := (of_map_some h.shaped.braces b').mp hb'
      obtain ⟨bond, hmade, hA, hB, -⟩ := span?_eq_some.mp hspan
      cases he
      cases (hcell.mp hA).symm.trans hc
      cases (hcell.mp hB).symm.trans hd
      exact ⟨serial, hserial, Option.map_eq_some_iff.mpr ⟨bond, hmade, rfl⟩⟩
    rintro (hin | hin)
    · exact hfound hp hq hin
    · rw [min_comm, max_comm]
      exact hfound hq hp hin

end Embodies
end Graph
end Arboretum
