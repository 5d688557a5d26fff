import Arboretum.Proofs.Graph.Lasting
import Arboretum.Proofs.Graph.Ledger

/-!
Building keeps the books: whatever a builder is asked for, and also where it stops, its body owns
what was made.
-/
namespace Arboretum.Graph

open Arboretum.Action

variable {α : Type}

/-- A builder at work since the world was `w₀` and its body owned `l`; it remembers some of its
points. -/
structure Tended (l : Ledger) (w₀ : World α) (spare known : List Nat) (s : World α × Graph α) :
    Prop where
  sound : s.1.Sound
  grew : w₀.Grew s.1
  owns : Owns (l.grown w₀ s.1) spare s.1 s.2
  known : ∀ id ∈ known, id ∈ s.2.allPoints ∨ id ∈ spare

namespace Tended

variable {l : Ledger} {w₀ w w' : World α} {spare known : List Nat} {g g' : Graph α}

theorem mine {s : World α × Graph α} (h : Tended l w₀ spare known s) {id : Nat}
    (hid : id ∈ known) : id ∈ (l.grown w₀ s.1).points :=
  (h.owns.kept id).mpr (h.known id hid)

theorem start (hw : w.Sound) (h : Owns l [] w g) : Tended l w [] [] (w, g) where
  sound := hw
  grew := .refl w
  owns := by
    rw [Ledger.grown_same (.refl w)]
    exact h
  known _ hid := absurd hid List.not_mem_nil

theorem new (hw : w.Sound) (origin : Vec α) (scale : α) :
    Tended ⟨[], []⟩ w [] [] (w, Graph.new origin scale) :=
  .start hw (.new origin scale w)

theorem same (h : Tended l w₀ spare known (w, g)) (hs : w'.Sound) (hw : w.Same w') :
    Tended l w₀ spare known (w', g) where
  sound := hs
  grew := h.grew.trans hw.grew
  owns := by
    have ho := h.owns.same hw
    rwa [← Ledger.grown_same (l := l.grown w₀ w) hw, Ledger.grown_grown h.grew hw.grew] at ho
  known := h.known

theorem seat (h : Tended l w₀ [] known (w, g)) (hroom : w.count < w.capacity) (p : Particle α) :
    Tended l w₀ [w.slots.size] known (w.seat p, g) where
  sound := h.sound.seat hroom p
  grew := h.grew.trans (World.grew_seat w p)
  owns := by
    have ho := h.owns.seat h.sound p
    rwa [Ledger.grown_grown h.grew (World.grew_seat w p)] at ho
  known id hid := .inl ((h.known id hid).resolve_right List.not_mem_nil)

theorem link (h : Tended l w₀ spare known (w, g)) {a b : Nat}
    (ha : a ∈ (l.grown w₀ w).points) (hb : b ∈ (l.grown w₀ w).points) (hne : a ≠ b)
    (stiffness damping rest : α) :
    Tended l w₀ spare known (w.link a b stiffness damping rest, g) where
  sound := h.sound.link hne (h.owns.alive a ha) (h.owns.alive b hb) stiffness damping rest
  grew := h.grew.trans (World.grew_link w a b stiffness damping rest)
  owns := by
    have ho := h.owns.link ha hb stiffness damping rest
    rwa [Ledger.grown_grown h.grew (World.grew_link w a b stiffness damping rest)] at ho
  known := h.known

theorem record {spare' known' : List Nat} (h : Tended l w₀ spare known (w, g))
    (hkept : ∀ id, id ∈ g'.allPoints ∨ id ∈ spare' ↔ id ∈ g.allPoints ∨ id ∈ spare)
    (htracked : ∀ serial ∈ g'.allSprings,
      serial ∈ g.allSprings ∨ serial ∈ (l.grown w₀ w).springs)
    (hknown : ∀ id ∈ known', id ∈ known ∨ id ∈ spare) :
    Tended l w₀ spare' known' (w, g') where
  sound := h.sound
  grew := h.grew
  owns :=
    { kept := fun id => (h.owns.kept id).trans (hkept id).symm
      alive := h.owns.alive
      tracked := fun serial hs => (htracked serial hs).elim (h.owns.tracked serial) id
      joins := h.owns.joins
      meets := h.owns.meets
      pointsOnce := h.owns.pointsOnce
      springsOnce := h.owns.springsOnce }
  known id hid := (hkept id).mpr ((hknown id hid).elim (h.known id) .inr)

theorem forget {s : World α × Graph α} {id : Nat} (h : Tended l w₀ spare (id :: known) s) :
    Tended l w₀ spare known s :=
  ⟨h.sound, h.grew, h.owns, (List.forall_mem_cons.mp h.known).2⟩

end Tended

variable {l : Ledger} {w₀ : World α} {spare known : List Nat}

theorem keeps_pin (p : Point α) :
    Keeps (Tended l w₀ spare known) (inWorld (World.pin p)) := by
  rintro ⟨w, g⟩ h
  exact h.same (h.sound.pin p) (World.same_pin p w)

section
variable [Scalar α]

theorem meets_addPoint (spot : Vec α) (mass : α) (fixed : Bool) :
    Meets (Tended l w₀ [] known) (inWorld (World.addPoint spot mass fixed))
      (Tended l w₀ [] known) fun id s => Tended l w₀ [id] known s ∧ id ∉ known := by
  rintro ⟨w, g⟩ h
  obtain ⟨notes, he⟩ := World.addPoint_apply spot mass fixed w
  have hsame := World.same_roomy w
  have hroomy := h.same h.sound.roomy hsame
  simp only [inWorld_result, inWorld_state, he]
  split
  · exact ⟨fun _ _ => hroomy, fun _ ha => (by cases ha)⟩
  · rename_i hroom
    refine ⟨fun _ he => (by cases he), fun id ha => ?_⟩
    cases ha
    refine ⟨hsame.points ▸ hroomy.seat (Nat.lt_of_not_le hroom) _, fun hid => ?_⟩
    exact Nat.lt_irrefl _ (World.isAlive_lt (h.owns.alive _ (h.mine hid)))

/-- A spring between two points of the builder is its own; two different ones can be joined. -/
theorem meets_addSpring {kept : World α × Graph α → Prop} {w : World α} {g : Graph α}
    (h : Tended l w₀ spare known (w, g)) {a b : Nat} (ha : a ∈ (l.grown w₀ w).points)
    (hb : b ∈ (l.grown w₀ w).points) (stiffness : α) (rest : Option α) (damping : α) :
    Meets (· = (w, g))
      (inWorld (World.addSpring (some (w.point a)) (some (w.point b)) stiffness rest damping))
      kept fun made s => Tended l w₀ spare known s ∧
        (∀ serial, made = some serial → serial ∈ (l.grown w₀ s.1).springs) ∧
        (a ≠ b → made.isSome) := by
  refine .returns fun s hs => ?_
  subst hs
  obtain ⟨notes, he⟩ :=
    World.addSpring_apply (some (w.point a)) (some (w.point b)) stiffness rest damping w
  obtain ⟨p, hp⟩ := Option.isSome_iff_exists.mp
    ((h.sound.particle?_isSome a).trans (h.owns.alive a ha))
  obtain ⟨q, hq⟩ := Option.isSome_iff_exists.mp
    ((h.sound.particle?_isSome b).trans (h.owns.alive b hb))
  have hj := World.joinable?_point h.sound a b
  simp only [hp, hq, Option.bind_some] at hj
  simp only [inWorld_result, inWorld_state, he, hj]
  by_cases hab : a = b
  · rw [if_pos hab]
    exact ⟨none, rfl, h, fun _ hn => (by cases hn), fun hne => absurd hab hne⟩
  · rw [if_neg hab]
    refine ⟨some w.links.size, rfl, h.link ha hb hab _ _ _, ?_, fun _ => rfl⟩
    intro serial hs
    cases hs
    exact Ledger.mem_springs_grown.mpr (.inr ⟨h.grew.springs, by simp [World.link]⟩)

theorem meets_jointAt (cell : Cell) (spot : Vec α) (mass : α) (fixed : Bool) :
    Meets (Tended l w₀ [] known) (jointAt cell spot mass fixed) (Tended l w₀ [] known)
      fun id => Tended l w₀ [] (id :: known) := by
  refine Meets.each fun s h => ?_
  obtain ⟨w, g⟩ := s
  have hknown {id : Nat} (hj : g.joint? cell = some id) : Tended l w₀ [] (id :: known) (w, g) :=
    ⟨h.sound, h.grew, h.owns, List.forall_mem_cons.mpr ⟨.inl (joint?_mem hj), h.known⟩⟩
  apply meets_jointAt_of
  case hnew =>
    intro _
    refine ((meets_addPoint spot mass fixed).one h).weaken fun id t ht => ht.1.record ?_ ?_ ?_
    · intro x
      rw [mem_allPoints_joint, List.mem_singleton, List.mem_nil_iff, or_false]
    · exact fun _ hs => .inl hs
    · exact fun x hx => (List.mem_cons.mp hx).symm.imp_right List.mem_singleton.mpr
  case hlost => exact fun _ _ _ _ _ => h
  case hfound => exact fun _ hj _ => hknown hj
  case hpinned =>
    intro id _ hj _ _ _
    exact ((keeps_pin (w.point id)).meets.stop fun _ ht => ht.forget).one (hknown hj)

theorem keeps_materialize (s : Segment α) (index : Option Int) :
    Keeps (Tended l w₀ [] []) (materialize s index) := by
  apply keeps_materialize_of (Tended l w₀ [])
  case hforget => exact fun _ _ _ h => h.forget
  case hjoint => exact fun _ cell spot mass => meets_jointAt cell spot mass s.isRoot
  case hspring =>
    intro a b w g stiffness rest h
    have ha := h.mine (List.mem_cons_of_mem b List.mem_cons_self)
    have hb := h.mine List.mem_cons_self
    refine (meets_addSpring h.forget.forget ha hb stiffness rest _).weaken fun made t ht => ?_
    obtain ⟨ht, hserial, _⟩ := ht
    refine ⟨ht, fun serial i hmade => ht.record (fun _ => Iff.rfl) ?_ fun _ hid => .inl hid⟩
    intro spring hs
    rcases mem_allSprings_strand hs with hs | rfl
    · exact .inl hs
    · exact .inr (hserial _ hmade)

theorem keeps_brace (a b : Segment α) : Keeps (Tended l w₀ [] []) (brace a b) := by
  apply keeps_brace_of
  intro w g tipA tipB p q stiffness rest h hopen
  have hp := (h.owns.kept p).mpr (.inl (joint?_mem hopen.joints.1))
  have hq := (h.owns.kept q).mpr (.inl (joint?_mem hopen.joints.2))
  refine (meets_addSpring h hp hq stiffness _ _).weaken fun made t ht => ?_
  obtain ⟨ht, hserial, _⟩ := ht
  refine ⟨ht, fun serial hmade => ht.record (fun _ => Iff.rfl) ?_ fun _ hid => .inl hid⟩
  intro spring hs
  rcases mem_allSprings_brace.mp hs with hs | rfl
  · exact .inl hs
  · exact .inr (hserial _ hmade)

theorem keeps_addBraces (segments : List (Segment α)) :
    Keeps (Tended l w₀ [] []) (addBraces segments) := keeps_addBraces_of keeps_brace

/-- A fruit hangs from a joint that the builder knows, so that its spring is always made. -/
theorem keeps_hang {index : PointIndex α Nat} (hindex : ∀ place q,
    index.nearest place PointIndex.defaultHalf = some q → q.2 ∈ known) (f : Fruit α) :
    Keeps (Tended l w₀ [] known) (hang index f) := by
  apply Meets.keeps
  refine Meets.each fun s h => ?_
  apply meets_hang_of fun joint point t =>
    joint ∈ known ∧ Tended l w₀ [point] known t ∧ point ∉ known
  case hunhung => exact fun _ => h
  case hpoint =>
    intro q hq
    exact ((meets_addPoint _ _ _).one h).weaken fun _ _ ht => ⟨hindex _ q hq, ht⟩
  case hspring =>
    intro joint point w g hseated
    obtain ⟨hjoint, hw, hnew⟩ := hseated
    have hne : joint ≠ point := fun he => hnew (he ▸ hjoint)
    have hpoint := (hw.owns.kept point).mpr (.inr List.mem_cons_self)
    refine (meets_addSpring hw (hw.mine hjoint) hpoint _ _ _).weaken fun made t ht => ?_
    obtain ⟨ht, hserial, hmade⟩ := ht
    refine ⟨fun hnone => ?_, fun spring hs => ht.record ?_ ?_ fun _ hid => .inl hid⟩
    · rw [hnone] at hmade
      cases hmade hne
    · intro x
      rw [mem_allPoints_hanging, List.mem_singleton, List.mem_nil_iff, or_false]
    · intro serial hmem
      rcases mem_allSprings_hanging.mp hmem with hmem | rfl
      · exact .inl hmem
      · exact .inr (hserial _ hs)

theorem keeps_hangAll (fruits : List (Fruit α)) :
    Keeps (Tended l w₀ [] []) (hangAll fruits) := by
  apply Meets.keeps
  refine Meets.each fun s h => ?_
  obtain ⟨w, g⟩ := s
  have hknown : Tended l w₀ [] (g.joints.map (·.2)) (w, g) :=
    ⟨h.sound, h.grew, h.owns, fun _ hid => .inl (List.mem_append_left _ hid)⟩
  have hempty : ∀ t, Tended l w₀ [] (g.joints.map (·.2)) t → Tended l w₀ [] [] t := fun t ht =>
    ⟨ht.sound, ht.grew, ht.owns, fun _ hid => absurd hid List.not_mem_nil⟩
  apply meets_hangAll_of
  case hnone => exact fun _ => h
  case hstop => exact fun _ _ => h
  case hall =>
    intro _ index _ _ hindex
    have hall : Keeps (Tended l w₀ [] (g.joints.map (·.2))) (forEach fruits (hang index)) :=
      .forEach fruits fun f _ => keeps_hang (fun _ _ hq => (joint_of_nearest hindex hq).1) f
    exact ((hall.meets.stop hempty).one hknown).weaken fun _ => hempty

end
end Arboretum.Graph
