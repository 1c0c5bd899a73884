import FrameMachine.Proofs.Cells
import FrameMachine.Proofs.Effect

/-!
# Declarations

A declaration makes one new cell, in the frame that its scope addresses (`declare_eq`), and leaves all cells
that there are. The new cell comes before every cell of the same name that the reference could have designated,
so it shadows them, and no other reference gets to it before the cell that it designates (`Extends.designates`).
-/

namespace FrameMachine

def Scope.place : Scope → Place
  | .gf => .global
  | .lf => .stacked 0
  | .tf => .temporary

/-- The cell of a name in the addressed frame itself. -/
def Variable.ownCell (x : Variable) : Cell := ⟨x.scope.place, x.name⟩

theorem Variable.eq_of_ownCell_stacked {x : Variable} {name : String} {k : Nat}
    (h : x.ownCell = ⟨.stacked k, name⟩) : x = ⟨.lf, name⟩ := by
  obtain ⟨scope, name'⟩ := x
  cases scope <;> simp_all [ownCell, Scope.place]

theorem Variable.eq_of_ownCell_temporary {x : Variable} {name : String}
    (h : x.ownCell = ⟨.temporary, name⟩) : x = ⟨.tf, name⟩ := by
  obtain ⟨scope, name'⟩ := x
  cases scope <;> simp_all [ownCell, Scope.place]

namespace Frames

/-! ## Missing frames and taken names -/

theorem declare_eq (s : Frames) (x : Variable) :
    s.declare x = match s.frame? x.scope.place with
      | none => .error (.frameNotAvailable x.scope)
      | some f =>
        if f.declares x.name then .error (.variableRedeclared x) else .ok (s.update x.ownCell none) := by
  obtain ⟨scope, name⟩ := x
  cases scope with
  | gf =>
    by_cases h : s.global.declares name = true
    · simp [declare, declareIn, frame?, Scope.place, h, Except.map]
    · simp [declare, declareIn, frame?, Scope.place, h, Except.map, update, Variable.ownCell]
  | lf =>
    cases hs : s.locals with
    | nil => simp [declare, frame?, Scope.place, hs]
    | cons f fs =>
      by_cases h : f.declares name = true
      · simp [declare, declareIn, frame?, Scope.place, hs, h, Except.map]
      · simp [declare, declareIn, frame?, Scope.place, hs, h, Except.map, update, Variable.ownCell]
  | tf =>
    cases hs : s.temporary with
    | none => simp [declare, frame?, Scope.place, hs]
    | some t =>
      by_cases h : t.declares name = true
      · simp [declare, declareIn, frame?, Scope.place, hs, h, Except.map]
      · simp [declare, declareIn, frame?, Scope.place, hs, h, Except.map, update, Variable.ownCell]

theorem declare_cases (s : Frames) (x : Variable) :
    s.frame? x.scope.place = none ∧ s.declare x = .error (.frameNotAvailable x.scope) ∨
      ∃ f, s.frame? x.scope.place = some f ∧
        (f.declares x.name = true ∧ s.declare x = .error (.variableRedeclared x) ∨
          f.declares x.name = false ∧ s.declare x = .ok (s.update x.ownCell none)) := by
  rw [declare_eq]
  cases s.frame? x.scope.place with
  | none => simp
  | some f => by_cases hf : f.declares x.name = true <;> simp [hf]

theorem visible_of_missing {s : Frames} {k : Scope} (h : s.frame? k.place = none) :
    s.visible k = .error (.frameNotAvailable k) := by
  cases k with
  | gf => cases h
  | lf =>
    have hs : s.locals = [] := by simpa [frame?, Scope.place] using h
    simp [visible, hs]
  | tf =>
    have hs : s.temporary = none := h
    simp [visible, hs]

theorem visible_of_frame {s : Frames} {k : Scope} {f : Frame} (h : s.frame? k.place = some f) :
    ∃ rest, s.visible k = .ok (f :: rest) := by
  cases k with
  | gf =>
    obtain rfl := Option.some.inj h
    exact ⟨[], rfl⟩
  | lf =>
    obtain ⟨fs, hs⟩ : ∃ fs, s.locals = f :: fs := by
      cases hs : s.locals <;> simp_all [frame?, Scope.place]
    exact ⟨fs ++ [s.global], by simp [visible, hs]⟩
  | tf =>
    have hs : s.temporary = some f := h
    exact ⟨[s.global], by simp [visible, hs]⟩

theorem lookup_eq_missing_iff {s : Frames} {x : Variable} {k : Scope} :
    s.lookup x = .error (.frameNotAvailable k) ↔ s.frame? x.scope.place = none ∧ k = x.scope := by
  unfold lookup
  cases hf : s.frame? x.scope.place with
  | none => simp [visible_of_missing hf, bind, Except.bind, eq_comm]
  | some f =>
    obtain ⟨rest, hrest⟩ := visible_of_frame hf
    cases hfound : (f :: rest).findSome? (·.find? x.name) <;> simp [hrest, hfound, bind, Except.bind]

/-! ## New cells -/

/-- The second store has one more cell, without a value, and otherwise the same frames and cells. -/
structure Extends (s : Frames) (c : Cell) (s' : Frames) : Prop where
  fresh : s.cell? c = none
  cell : s'.cell? c = some none
  others : ∀ d, d ≠ c → s'.cell? d = s.cell? d
  frames : ∀ place, (s'.frame? place).isSome = (s.frame? place).isSome

theorem extends_update {s : Frames} {c : Cell} {f : Frame} (hframe : s.frame? c.place = some f)
    (hfresh : f.declares c.name = false) : s.Extends c (s.update c none) := by
  obtain ⟨place, name⟩ := c
  refine ⟨?_, ?_, ?_, ?_⟩
  · simpa [cell?, hframe, Frame.declares] using hfresh
  · simp [cell?, frame_update, hframe, Frame.find_insert_self]
  · rintro ⟨place', name'⟩ hne
    by_cases hplace : place' = place
    · subst hplace
      have hother : name' ≠ name := fun hname => hne (by rw [hname])
      simp [cell?, frame_update, hframe, Frame.find_insert_of_ne f hother]
    · simp [cell?, frame_update, hplace]
  · intro place'
    by_cases hplace : place' = place
    · simp [frame_update, hplace]
    · simp [frame_update, hplace]

section
variable {s s' : Frames} {x : Variable} (h : s.Extends x.ownCell s')
include h

theorem Extends.isSome {d : Cell} (hd : (s.cell? d).isSome = true) : (s'.cell? d).isSome = true := by
  have hne : d ≠ x.ownCell := by
    rintro rfl
    simp [h.fresh] at hd
  rw [h.others d hne]
  exact hd

theorem Extends.designates_own : s'.Designates x x.ownCell := by
  have hcell : (s'.cell? x.ownCell).isSome = true := by simp [h.cell]
  obtain ⟨scope, name⟩ := x
  cases scope with
  | gf => exact .gf hcell
  | lf => exact .lf hcell fun k hk => absurd hk (Nat.not_lt_zero k)
  | tf => exact .tf hcell

theorem Extends.designates {y : Variable} (hne : y ≠ x) {d : Cell} (hy : s.Designates y d) :
    s'.Designates y d := by
  have hstacked : ∀ {name : String}, y = ⟨.lf, name⟩ → ∀ k, s.cell? ⟨.stacked k, name⟩ = none →
      s'.cell? ⟨.stacked k, name⟩ = none := by
    rintro name rfl k hk
    rw [h.others _ fun heq => hne (Variable.eq_of_ownCell_stacked heq.symm).symm]
    exact hk
  cases hy with
  | gf hd => exact .gf (h.isSome hd)
  | lf hd habove => exact .lf (h.isSome hd) fun k hk => hstacked rfl k (habove k hk)
  | lfGlobal hlocals hnone hd =>
    refine .lfGlobal ?_ (fun k => hstacked rfl k (hnone k)) (h.isSome hd)
    have htop := h.frames (.stacked 0)
    cases hs : s.locals <;> cases hs' : s'.locals <;> simp_all [frame?]
  | tf hd => exact .tf (h.isSome hd)
  | @tfGlobal name htemporary hnone hd =>
    refine .tfGlobal ?_ ?_ (h.isSome hd)
    · have htop := h.frames .temporary
      cases hs : s.temporary <;> cases hs' : s'.temporary <;> simp_all [frame?]
    · rw [h.others _ fun heq => hne (Variable.eq_of_ownCell_temporary heq.symm).symm]
      exact hnone

theorem Extends.lookup_own : s'.lookup x = .ok none := by
  obtain ⟨w, hw, hlookup⟩ := lookup_designated h.designates_own
  rw [h.cell] at hw
  rw [hlookup, Option.some.inj hw]

theorem Extends.lookup {y : Variable} (hne : y ≠ x) {w : Option Value} (hw : s.lookup y = .ok w) :
    s'.lookup y = .ok w ∧ ∃ d, s.Designates y d ∧ s'.Designates y d := by
  rcases designates_or_unresolved s y with ⟨d, hd⟩ | ⟨herror, -⟩
  · obtain ⟨v, hv, hlookup⟩ := lookup_designated hd
    have hd' := h.designates hne hd
    obtain ⟨v', hv', hlookup'⟩ := lookup_designated hd'
    have hnew : d ≠ x.ownCell := by
      rintro rfl
      rw [h.fresh] at hv
      cases hv
    rw [h.others d hnew, hv] at hv'
    rw [← hw, hlookup, hlookup', Option.some.inj hv']
    exact ⟨rfl, d, hd, hd'⟩
  · rw [hw] at herror
    cases herror

end

/-! ## Declaring -/

theorem perform_declare (p : Program) (i : Instruction) (x : Variable) (m : Machine) :
    Action.perform p i (.declare x) m = match m.frames.declare x with
      | .error f => .error f m
      | .ok s => .ok none { m with frames := s } := by
  have hdecides : Action.perform p i (.declare x) m = _ := Action.decides_perform p i (.declare x) m
  rw [hdecides, Operation.effect]
  cases m.frames.declare x <;> rfl

/-- Declaring fails exactly if the addressed frame is missing or has the name. Otherwise the new cell shadows
those of its name, and every other reference keeps its cell. -/
theorem declare_exact (s : Frames) (x : Variable) :
    (∀ k, s.declare x = .error (.frameNotAvailable k) ↔ s.lookup x = .error (.frameNotAvailable k)) ∧
      (∀ y, s.declare x = .error (.variableRedeclared y) ↔
        y = x ∧ ∃ f, s.frame? x.scope.place = some f ∧ f.declares x.name = true) ∧
      (∀ f, s.declare x = .error f →
        (f = .frameNotAvailable x.scope ∨ f = .variableRedeclared x) ∧
          ∀ p i (m : Machine), m.frames = s → Action.perform p i (.declare x) m = .error f m) ∧
      ∀ s', s.declare x = .ok s' →
        (∀ p i (m : Machine), m.frames = s →
          Action.perform p i (.declare x) m = .ok none { m with frames := s' }) ∧
        s'.lookup x = .ok none ∧ s'.Designates x x.ownCell ∧
        (∀ c, c ≠ x.ownCell → s'.cell? c = s.cell? c) ∧
        ∀ y, y ≠ x → ∀ w, s.lookup y = .ok w →
          s'.lookup y = .ok w ∧ ∃ c, s.Designates y c ∧ s'.Designates y c := by
  refine ⟨fun k => ?_, fun y => ?_, fun f hf => ⟨?_, ?_⟩, fun s' hs' => ⟨?_, ?_⟩⟩
  · rw [lookup_eq_missing_iff]
    rcases declare_cases s x with ⟨hframe, h⟩ | ⟨f, hframe, ⟨-, h⟩ | ⟨-, h⟩⟩ <;> simp [hframe, h, eq_comm]
  · rcases declare_cases s x with ⟨hframe, h⟩ | ⟨f, hframe, ⟨hf, h⟩ | ⟨hf, h⟩⟩
    · simp [hframe, h]
    · simp only [h, Except.error.injEq, Fault.variableRedeclared.injEq]
      exact ⟨fun heq => ⟨heq.symm, f, hframe, hf⟩, fun heq => heq.1.symm⟩
    · simp [hframe, h, hf]
  · rcases declare_cases s x with ⟨-, h⟩ | ⟨g, -, ⟨-, h⟩ | ⟨-, h⟩⟩ <;> rw [h] at hf <;> cases hf <;> simp
  · rintro p i m rfl
    rw [perform_declare, hf]
  · rintro p i m rfl
    rw [perform_declare, hs']
  · have hextends : s.Extends x.ownCell s' := by
      rcases declare_cases s x with ⟨-, h⟩ | ⟨f, hframe, ⟨-, h⟩ | ⟨hf, h⟩⟩ <;> rw [h] at hs' <;> cases hs'
      exact extends_update hframe hf
    exact ⟨hextends.lookup_own, hextends.designates_own, hextends.others, fun y hy w => hextends.lookup hy⟩

/-- The topmost local frame does not have the name, which two frames below it and the global frame declare. -/
theorem shadowed_declare :
    ∃ s', shadowed.declare ⟨.lf, "x"⟩ = .ok s' ∧ shadowed.lookup ⟨.lf, "x"⟩ = .ok (some (.int 2)) ∧
      s'.lookup ⟨.lf, "x"⟩ = .ok none ∧ s'.cell? ⟨.stacked 1, "x"⟩ = some (some (.int 2)) ∧
      s'.lookup ⟨.tf, "x"⟩ = .ok (some (.int 1)) := by
  rcases declare_cases shadowed ⟨.lf, "x"⟩ with ⟨hframe, -⟩ | ⟨f, hframe, ⟨hf, -⟩ | ⟨-, h⟩⟩
  · cases hframe
  · obtain rfl := Option.some.inj hframe
    cases hf
  · obtain ⟨-, hown, -, hothers, hlookup⟩ := (declare_exact shadowed ⟨.lf, "x"⟩).2.2.2 _ h
    exact ⟨_, h, rfl, hown, hothers _ (by decide), (hlookup ⟨.tf, "x"⟩ (by decide) _ rfl).1⟩

end Frames

end FrameMachine
