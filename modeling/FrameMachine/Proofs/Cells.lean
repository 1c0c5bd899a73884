import FrameMachine.Proofs.Visibility
import Mathlib.Data.Nat.Find

/-!
# Cells

A cell is a name in one of the frames. A reference designates at most one cell (`Designates`), which
does not mention how it is searched for. Looking a variable up and setting it both go to that cell
(`lookup_designated`, `set_designated`), and setting it replaces its content and nothing else, so every
other reference is resolved as before.
-/

namespace FrameMachine

/-! ## One name of a frame -/

theorem lookup_insertEntry_of_ne {α : Type} {name other : String} (hne : other ≠ name) (a : α)
    (l : List (String × α)) : (insertEntry name a l).lookup other = l.lookup other := by
  induction l with
  | nil => simp [insertEntry, hne]
  | cons e rest ih =>
    unfold insertEntry
    by_cases hlt : name < e.1
    · rw [if_pos hlt, List.lookup_cons, beq_false_of_ne hne]
    · rw [if_neg hlt]
      by_cases heq : name = e.1
      · rw [if_pos heq, List.lookup_cons, List.lookup_cons, ← heq, beq_false_of_ne hne]
      · rw [if_neg heq, List.lookup_cons, List.lookup_cons, ih]

theorem map_fst_insertEntry {α : Type} {name : String} {l : List (String × α)} (a : α)
    (hsorted : l.Pairwise (·.1 < ·.1)) (h : (l.lookup name).isSome = true) :
    (insertEntry name a l).map (·.1) = l.map (·.1) := by
  induction l with
  | nil => cases h
  | cons e rest ih =>
    obtain ⟨hfirst, hrest⟩ := List.pairwise_cons.mp hsorted
    unfold insertEntry
    by_cases heq : name = e.1
    · subst heq
      rw [if_neg (String.lt_irrefl e.1), if_pos rfl, List.map_cons, List.map_cons]
    · rw [List.lookup_cons, beq_false_of_ne heq] at h
      obtain ⟨b, hb⟩ := Option.isSome_iff_exists.mp h
      -- The name stands further on, so it is not smaller than the first one.
      have hgt : e.1 < name := by
        obtain ⟨l₁, l₂, rfl, -⟩ := List.lookup_eq_some_iff.mp hb
        exact hfirst (name, b) (by simp)
      have hlt : ¬ name < e.1 := fun hlt => String.lt_irrefl _ (String.lt_trans hlt hgt)
      rw [if_neg hlt, if_neg heq, List.map_cons, List.map_cons, ih hrest h]

namespace Frame

def names (f : Frame) : List String := f.entries.map (·.1)

theorem find_insert_of_ne (f : Frame) {name other : String} (hne : other ≠ name) (v : Option Value) :
    (f.insert name v).find? other = f.find? other := lookup_insertEntry_of_ne hne v f.entries

theorem names_insert {f : Frame} {name : String} (h : (f.find? name).isSome = true) (v : Option Value) :
    (f.insert name v).names = f.names := map_fst_insertEntry v f.sorted h

end Frame

/-! ## Cells of the frames -/

inductive Place where
  | global
  /-- A local frame, by its distance from the topmost one. -/
  | stacked (depth : Nat)
  | temporary
deriving DecidableEq

structure Cell where
  place : Place
  name : String
deriving DecidableEq

namespace Frames

def frame? (s : Frames) : Place → Option Frame
  | .global => some s.global
  | .stacked depth => s.locals[depth]?
  | .temporary => s.temporary

def cell? (s : Frames) (c : Cell) : Option (Option Value) := (s.frame? c.place).bind (·.find? c.name)

/-- The cell that a reference designates. A local or temporary frame has to exist for a reference to
fall back to the global frame. -/
inductive Designates (s : Frames) : Variable → Cell → Prop
  | gf {name : String} : (s.cell? ⟨.global, name⟩).isSome = true → Designates s ⟨.gf, name⟩ ⟨.global, name⟩
  | lf {name : String} {depth : Nat} : (s.cell? ⟨.stacked depth, name⟩).isSome = true →
      (∀ k < depth, s.cell? ⟨.stacked k, name⟩ = none) → Designates s ⟨.lf, name⟩ ⟨.stacked depth, name⟩
  | lfGlobal {name : String} : s.locals ≠ [] → (∀ k, s.cell? ⟨.stacked k, name⟩ = none) →
      (s.cell? ⟨.global, name⟩).isSome = true → Designates s ⟨.lf, name⟩ ⟨.global, name⟩
  | tf {name : String} : (s.cell? ⟨.temporary, name⟩).isSome = true →
      Designates s ⟨.tf, name⟩ ⟨.temporary, name⟩
  | tfGlobal {name : String} : s.temporary ≠ none → s.cell? ⟨.temporary, name⟩ = none →
      (s.cell? ⟨.global, name⟩).isSome = true → Designates s ⟨.tf, name⟩ ⟨.global, name⟩

/-- The second store has another content in one cell, and otherwise the same frames with the same names
and contents. -/
structure Replaces (s : Frames) (c : Cell) (v : Option Value) (s' : Frames) : Prop where
  cell : s'.cell? c = some v
  others : ∀ d, d ≠ c → s'.cell? d = s.cell? d
  names : ∀ place, (s'.frame? place).map Frame.names = (s.frame? place).map Frame.names

def update (s : Frames) (c : Cell) (v : Option Value) : Frames :=
  match c.place with
  | .global => { s with global := s.global.insert c.name v }
  | .stacked depth => { s with locals := s.locals.modify depth (·.insert c.name v) }
  | .temporary => { s with temporary := s.temporary.map (·.insert c.name v) }

theorem frame_update (s : Frames) (c : Cell) (v : Option Value) (place : Place) :
    (s.update c v).frame? place =
      if place = c.place then (s.frame? place).map (·.insert c.name v) else s.frame? place := by
  obtain ⟨target, name⟩ := c
  cases target with
  | global => cases place <;> simp [update, frame?]
  | temporary => cases place <;> simp [update, frame?]
  | stacked depth =>
    cases place with
    | global => simp [update, frame?]
    | temporary => simp [update, frame?]
    | stacked k =>
      by_cases hk : depth = k
      · simp [update, frame?, hk]
      · simp [update, frame?, hk, Ne.symm hk]

theorem replaces_update {s : Frames} {c : Cell} (h : (s.cell? c).isSome = true) (v : Option Value) :
    s.Replaces c v (s.update c v) := by
  obtain ⟨place, name⟩ := c
  obtain ⟨f, hframe, hname⟩ : ∃ f, s.frame? place = some f ∧ (f.find? name).isSome = true := by
    cases hframe : s.frame? place with
    | none => simp [cell?, hframe] at h
    | some f => exact ⟨f, rfl, by simpa [cell?, hframe] using h⟩
  refine ⟨?_, ?_, ?_⟩
  · simp [cell?, frame_update, hframe, Frame.find_insert_self]
  · rintro ⟨place', name'⟩ hne
    by_cases hplace : place' = place
    · subst hplace
      have hother : name' ≠ name := fun hname => hne (by rw [hname])
      simp [cell?, frame_update, hframe, Frame.find_insert_of_ne f hother]
    · simp [cell?, frame_update, hplace]
  · intro place'
    by_cases hplace : place' = place
    · subst hplace
      simp [frame_update, hframe, Frame.names_insert hname]
    · simp [frame_update, hplace]

/-! ## The designated cell -/

theorem Designates.isSome {s : Frames} {x : Variable} {c : Cell} (h : s.Designates x c) :
    (s.cell? c).isSome = true := by
  cases h with
  | gf hc => exact hc
  | lf hc => exact hc
  | lfGlobal _ _ hc => exact hc
  | tf hc => exact hc
  | tfGlobal _ _ hc => exact hc

theorem Designates.unique {s : Frames} {x : Variable} {c d : Cell} (hc : s.Designates x c)
    (hd : s.Designates x d) : d = c := by
  cases hc with
  | gf => cases hd; rfl
  | @lf name depth hdepth habove =>
    cases hd with
    | @lf _ depth' hdepth' habove' =>
      -- Of two different depths the smaller one would be above the other.
      rcases Nat.lt_trichotomy depth depth' with hlt | rfl | hlt
      · rw [habove' depth hlt] at hdepth
        cases hdepth
      · rfl
      · rw [habove depth' hlt] at hdepth'
        cases hdepth'
    | lfGlobal _ hnone =>
      rw [hnone depth] at hdepth
      cases hdepth
  | lfGlobal _ hnone =>
    cases hd with
    | @lf _ depth hdepth =>
      rw [hnone depth] at hdepth
      cases hdepth
    | lfGlobal => rfl
  | tf hcell =>
    cases hd with
    | tf => rfl
    | tfGlobal _ hnone =>
      rw [hnone] at hcell
      cases hcell
  | tfGlobal _ hnone =>
    cases hd with
    | tf hcell =>
      rw [hnone] at hcell
      cases hcell
    | tfGlobal => rfl

/-- The two stores have the same cells, whatever these contain. -/
structure SameCells (s s' : Frames) : Prop where
  cells : ∀ c, (s'.cell? c).isSome = (s.cell? c).isSome
  locals : s'.locals = [] ↔ s.locals = []
  temporary : s'.temporary = none ↔ s.temporary = none

theorem SameCells.symm {s s' : Frames} (h : s.SameCells s') : s'.SameCells s :=
  ⟨fun c => (h.cells c).symm, h.locals.symm, h.temporary.symm⟩

theorem SameCells.cell_eq_none {s s' : Frames} (h : s.SameCells s') {c : Cell} (hc : s.cell? c = none) :
    s'.cell? c = none := by
  have hcell := h.cells c
  rw [hc] at hcell
  simpa using hcell

theorem SameCells.designates {s s' : Frames} (h : s.SameCells s') {x : Variable} {c : Cell}
    (hx : s.Designates x c) : s'.Designates x c := by
  cases hx with
  | gf hc => exact .gf ((h.cells _).trans hc)
  | lf hc habove => exact .lf ((h.cells _).trans hc) fun k hk => h.cell_eq_none (habove k hk)
  | lfGlobal hlocals hnone hc =>
    exact .lfGlobal (mt h.locals.mp hlocals) (fun k => h.cell_eq_none (hnone k)) ((h.cells _).trans hc)
  | tf hc => exact .tf ((h.cells _).trans hc)
  | tfGlobal htemporary hnone hc =>
    exact .tfGlobal (mt h.temporary.mp htemporary) (h.cell_eq_none hnone) ((h.cells _).trans hc)

theorem Replaces.sameCells {s s' : Frames} {c : Cell} {v : Option Value} (hc : (s.cell? c).isSome = true)
    (h : s.Replaces c v s') : s.SameCells s' := by
  refine ⟨?_, ?_, ?_⟩
  · intro d
    by_cases hd : d = c
    · rw [hd, h.cell, hc, Option.isSome_some]
    · rw [h.others d hd]
  · have hfirst := congrArg Option.isNone (h.names (.stacked 0))
    cases hs : s.locals <;> cases hs' : s'.locals <;> simp [frame?, hs, hs'] at hfirst ⊢
  · have htemporary := congrArg Option.isNone (h.names .temporary)
    cases hs : s.temporary <;> cases hs' : s'.temporary <;> simp [frame?, hs, hs'] at htemporary ⊢

/-! ## Searching a list of frames -/

def nameAt? (fs : List Frame) (name : String) (k : Nat) : Option (Option Value) := fs[k]?.bind (·.find? name)

theorem findSome_of_first {fs : List Frame} {name : String} {depth : Nat} {w : Option Value}
    (h : nameAt? fs name depth = some w) (habove : ∀ k < depth, nameAt? fs name k = none) :
    fs.findSome? (·.find? name) = some w := by
  induction fs generalizing depth with
  | nil => cases h
  | cons f fs ih =>
    cases depth with
    | zero =>
      have hf : f.find? name = some w := by simpa [nameAt?] using h
      simp [hf]
    | succ depth =>
      have hf : f.find? name = none := by simpa [nameAt?] using habove 0 (Nat.succ_pos _)
      rw [List.findSome?_cons, hf]
      apply ih (by simpa [nameAt?] using h)
      intro k hk
      simpa [nameAt?] using habove (k + 1) (Nat.succ_lt_succ hk)

theorem setFirst_of_first {fs : List Frame} {name : String} {depth : Nat}
    (h : (nameAt? fs name depth).isSome = true) (habove : ∀ k < depth, nameAt? fs name k = none)
    (v : Option Value) : setFirst name v fs = some (fs.modify depth (·.insert name v)) := by
  induction fs generalizing depth with
  | nil => cases h
  | cons f fs ih =>
    cases depth with
    | zero =>
      have hf : f.declares name = true := by simpa [Frame.declares, nameAt?] using h
      simp [setFirst, hf]
    | succ depth =>
      have hf : f.declares name = false := by
        simpa [Frame.declares, nameAt?] using habove 0 (Nat.succ_pos _)
      have hfirst := ih (by simpa [nameAt?] using h) fun k hk => by
        simpa [nameAt?] using habove (k + 1) (Nat.succ_lt_succ hk)
      simp [setFirst, hf, hfirst]

theorem declares_of_none {fs : List Frame} {name : String} (h : ∀ k, nameAt? fs name k = none) :
    ∀ f ∈ fs, f.declares name = false := by
  intro f hf
  obtain ⟨k, hk⟩ := List.mem_iff_getElem?.mp hf
  have hnone := h k
  rw [nameAt?, hk] at hnone
  simpa [Frame.declares] using hnone

/-! ## Looking up and setting -/

theorem lookup_designated {s : Frames} {x : Variable} {c : Cell} (h : s.Designates x c) :
    ∃ w, s.cell? c = some w ∧ s.lookup x = .ok w := by
  obtain ⟨w, hw⟩ := Option.isSome_iff_exists.mp h.isSome
  refine ⟨w, hw, ?_⟩
  cases h with
  | gf =>
    have hglobal : s.global.find? _ = some w := hw
    simp [lookup, visible, hglobal, bind, Except.bind]
  | @lf name depth _ habove =>
    have hne : s.locals ≠ [] := by
      intro hnil
      simp [cell?, frame?, hnil] at hw
    have hfound : s.locals.findSome? (·.find? name) = some w := findSome_of_first hw habove
    simp [lookup, visible, hne, hfound, bind, Except.bind]
  | @lfGlobal name hne hnone =>
    have hglobal : s.global.find? name = some w := hw
    have hfound := findSome_eq_none_iff.mpr (declares_of_none hnone)
    simp [lookup, visible, hne, hfound, hglobal, bind, Except.bind]
  | @tf name =>
    cases ht : s.temporary with
    | none => simp [cell?, frame?, ht] at hw
    | some t =>
      have hfound : t.find? name = some w := by simpa [cell?, frame?, ht] using hw
      simp [lookup, visible, ht, hfound, bind, Except.bind]
  | @tfGlobal name hne hnone =>
    cases ht : s.temporary with
    | none => exact absurd ht hne
    | some t =>
      have hglobal : s.global.find? name = some w := hw
      have hfound : t.find? name = none := by simpa [cell?, frame?, ht] using hnone
      simp [lookup, visible, ht, hfound, hglobal, bind, Except.bind]

theorem setGlobal_of_cell {s : Frames} {name : String} (h : (s.cell? ⟨.global, name⟩).isSome = true)
    (scope : Scope) (v : Option Value) :
    s.setGlobal ⟨scope, name⟩ v = .ok (s.update ⟨.global, name⟩ v) := if_pos h

theorem set_designated {s : Frames} {x : Variable} {c : Cell} (h : s.Designates x c) (v : Option Value) :
    s.set x v = .ok (s.update c v) := by
  cases h with
  | gf hcell => exact setGlobal_of_cell hcell .gf v
  | @lf name depth hcell habove =>
    have hne : s.locals ≠ [] := by
      intro hnil
      simp [cell?, frame?, hnil] at hcell
    simp [set, hne, setFirst_of_first hcell habove, update]
  | @lfGlobal name hne hnone hcell =>
    simp [set, hne, setFirst_eq_none_iff.mpr (declares_of_none hnone), setGlobal_of_cell hcell]
  | @tf name hcell =>
    cases ht : s.temporary with
    | none => simp [cell?, frame?, ht] at hcell
    | some t =>
      have hdeclares : t.declares name = true := by simpa [Frame.declares, cell?, frame?, ht] using hcell
      simp [set, ht, hdeclares, update]
  | @tfGlobal name hne hnone hcell =>
    cases ht : s.temporary with
    | none => exact absurd ht hne
    | some t =>
      have hdeclares : t.declares name = false := by simpa [Frame.declares, cell?, frame?, ht] using hnone
      simp [set, ht, hdeclares, setGlobal_of_cell hcell]

/-! ## References that designate no cell -/

theorem exists_designated {s : Frames} {x : Variable} {fs : List Frame} (hvisible : s.visible x.scope = .ok fs)
    (h : ∃ f ∈ fs, f.declares x.name = true) : ∃ c, s.Designates x c := by
  obtain ⟨scope, name⟩ := x
  obtain ⟨f, hf, hdeclares⟩ := h
  cases scope with
  | gf =>
    obtain rfl := Except.ok.inj hvisible
    obtain rfl := List.mem_singleton.mp hf
    exact ⟨_, .gf hdeclares⟩
  | lf =>
    simp only [visible] at hvisible
    split at hvisible
    · cases hvisible
    · rename_i hlocals
      obtain rfl := Except.ok.inj hvisible
      by_cases hdepth : ∃ depth, (s.cell? ⟨.stacked depth, name⟩).isSome = true
      · refine ⟨_, .lf (Nat.find_spec hdepth) fun k hk => ?_⟩
        simpa using Nat.find_min hdepth hk
      · have hnone : ∀ k, s.cell? ⟨.stacked k, name⟩ = none := by simpa using hdepth
        rcases List.mem_append.mp hf with hf | hf
        · rw [declares_of_none hnone f hf] at hdeclares
          cases hdeclares
        · obtain rfl := List.mem_singleton.mp hf
          exact ⟨_, .lfGlobal (by simpa using hlocals) hnone hdeclares⟩
  | tf =>
    simp only [visible] at hvisible
    split at hvisible
    · cases hvisible
    · rename_i t ht
      obtain rfl := Except.ok.inj hvisible
      by_cases hcell : (s.cell? ⟨.temporary, name⟩).isSome = true
      · exact ⟨_, .tf hcell⟩
      · have hnone : s.cell? ⟨.temporary, name⟩ = none := by simpa using hcell
        refine ⟨_, .tfGlobal (by simp [ht]) hnone ?_⟩
        rcases List.mem_cons.mp hf with rfl | hf
        · exact absurd (by simpa [Frame.declares, cell?, frame?, ht] using hdeclares) hcell
        · obtain rfl := List.mem_singleton.mp hf
          exact hdeclares

theorem set_of_invisible {s : Frames} {x : Variable} {f : Fault} (h : s.visible x.scope = .error f)
    (v : Option Value) : s.set x v = .error f := by
  obtain ⟨scope, name⟩ := x
  cases scope with
  | gf => cases h
  | lf =>
    simp only [visible] at h
    split at h
    · rename_i hlocals
      simpa [set, hlocals] using h
    · cases h
  | tf =>
    simp only [visible] at h
    split at h
    · rename_i ht
      simpa [set, ht] using h
    · cases h

/-- The fault of a reference that designates no cell. -/
def unresolved (s : Frames) (x : Variable) : Fault :=
  match s.visible x.scope with
  | .error f => f
  | .ok _ => .undeclaredVariable x

theorem designates_or_unresolved (s : Frames) (x : Variable) :
    (∃ c, s.Designates x c) ∨
      s.lookup x = .error (s.unresolved x) ∧ ∀ v, s.set x v = .error (s.unresolved x) := by
  cases hvisible : s.visible x.scope with
  | error f =>
    refine Or.inr ⟨?_, fun v => ?_⟩
    · simp [lookup, unresolved, hvisible, bind, Except.bind]
    · rw [set_of_invisible hvisible]
      simp [unresolved, hvisible]
  | ok fs =>
    by_cases hdeclares : ∃ f ∈ fs, f.declares x.name = true
    · exact Or.inl (exists_designated hvisible hdeclares)
    · have hnone : ∀ f ∈ fs, f.declares x.name = false := by simpa using hdeclares
      refine Or.inr ⟨?_, fun v => ?_⟩
      · simp [lookup, unresolved, hvisible, findSome_eq_none_iff.mpr hnone, bind, Except.bind]
      · rcases set_of_visible hvisible v with ⟨-, -, hsome⟩ | ⟨hset, -⟩
        · exact absurd hsome hdeclares
        · simp [hset, unresolved, hvisible]

theorem SameCells.unresolved {s s' : Frames} (h : s.SameCells s') (x : Variable) :
    s'.unresolved x = s.unresolved x := by
  obtain ⟨scope, name⟩ := x
  cases scope with
  | gf => rfl
  | lf =>
    by_cases hlocals : s.locals = []
    · simp [Frames.unresolved, visible, hlocals, h.locals.mpr hlocals]
    · simp [Frames.unresolved, visible, hlocals, mt h.locals.mp hlocals]
  | tf =>
    by_cases ht : s.temporary = none
    · simp [Frames.unresolved, visible, ht, h.temporary.mpr ht]
    · obtain ⟨t, ht'⟩ := Option.ne_none_iff_exists'.mp ht
      obtain ⟨t', ht''⟩ := Option.ne_none_iff_exists'.mp (mt h.temporary.mp ht)
      simp [Frames.unresolved, visible, ht', ht'']

/-! ## References after a change -/

theorem Replaces.lookup {s s' : Frames} {c : Cell} {v : Option Value} (hc : (s.cell? c).isSome = true)
    (h : s.Replaces c v s') (y : Variable) :
    (s.Designates y c → s'.lookup y = .ok v) ∧ (¬ s.Designates y c → s'.lookup y = s.lookup y) := by
  have hsame := h.sameCells hc
  refine ⟨fun hy => ?_, fun hy => ?_⟩
  · obtain ⟨w, hw, hlookup⟩ := lookup_designated (hsame.designates hy)
    rw [h.cell] at hw
    rw [hlookup, Option.some.inj hw]
  · rcases designates_or_unresolved s y with ⟨d, hd⟩ | ⟨hlookup, -⟩
    · have hne : d ≠ c := by
        rintro rfl
        exact hy hd
      obtain ⟨w, hw, hlookup⟩ := lookup_designated hd
      obtain ⟨w', hw', hlookup'⟩ := lookup_designated (hsame.designates hd)
      rw [h.others d hne, hw] at hw'
      rw [hlookup, hlookup', Option.some.inj hw']
    · rcases designates_or_unresolved s' y with ⟨d, hd⟩ | ⟨hlookup', -⟩
      · obtain ⟨w, -, hfound⟩ := lookup_designated (hsame.symm.designates hd)
        rw [hlookup] at hfound
        cases hfound
      · rw [hlookup, hlookup', hsame.unresolved]

/-- Looking a variable up, setting it and assigning it go to the cell that it designates and touch no other, or
fail with the same fault. -/
theorem lookup_set_agree (s : Frames) (x : Variable) (v : Value) :
    (∃ c, s.Designates x c ∧ (∀ d, s.Designates x d → d = c) ∧
      (∃ w, s.cell? c = some w ∧ s.lookup x = .ok w) ∧
      (∀ u, ∃ s', s.set x u = .ok s' ∧ s.Replaces c u s') ∧
      ∃ s', s.assign x v = .ok s' ∧ s.Replaces c (some v) s' ∧
        ∀ y, (s.Designates y c → s'.lookup y = .ok (some v)) ∧
          (¬ s.Designates y c → s'.lookup y = s.lookup y)) ∨
    (∀ c, ¬ s.Designates x c) ∧
      ∃ f, s.lookup x = .error f ∧ (∀ u, s.set x u = .error f) ∧ s.assign x v = .error f := by
  rcases designates_or_unresolved s x with ⟨c, hc⟩ | ⟨hlookup, hset⟩
  · have hreplaces : ∀ u, s.Replaces c u (s.update c u) := replaces_update hc.isSome
    refine Or.inl ⟨c, hc, fun d hd => hc.unique hd, lookup_designated hc, ?_, ?_⟩
    · exact fun u => ⟨_, set_designated hc u, hreplaces u⟩
    · exact ⟨_, set_designated hc (some v), hreplaces _, (hreplaces _).lookup hc.isSome⟩
  · refine Or.inr ⟨fun c hc => ?_, _, hlookup, hset, hset (some v)⟩
    obtain ⟨w, -, hfound⟩ := lookup_designated hc
    rw [hlookup] at hfound
    cases hfound

/-- The topmost local frame is empty, the two below it and the global frame declare one name. -/
def shadowed : Frames where
  global := Frame.empty.insert "x" (some (.int 1))
  locals := [Frame.empty, Frame.empty.insert "x" (some (.int 2)), Frame.empty.insert "x" none]
  temporary := some Frame.empty

theorem shadowed_designates : shadowed.Designates ⟨.lf, "x"⟩ ⟨.stacked 1, "x"⟩ := by
  refine .lf rfl fun k hk => ?_
  obtain rfl : k = 0 := by omega
  rfl

theorem shadowed_assign :
    ∃ s', shadowed.assign ⟨.lf, "x"⟩ (.int 7) = .ok s' ∧ s'.cell? ⟨.stacked 1, "x"⟩ = some (some (.int 7)) ∧
      s'.cell? ⟨.stacked 2, "x"⟩ = some none ∧ s'.lookup ⟨.lf, "x"⟩ = .ok (some (.int 7)) ∧
      s'.lookup ⟨.tf, "x"⟩ = .ok (some (.int 1)) := by
  rcases lookup_set_agree shadowed ⟨.lf, "x"⟩ (.int 7) with
    ⟨c, hc, -, -, -, s', hs', hreplaces, hlookup⟩ | ⟨hnone, -⟩
  · obtain rfl := shadowed_designates.unique hc
    have hother : ¬ shadowed.Designates ⟨.tf, "x"⟩ ⟨.stacked 1, "x"⟩ := nofun
    exact ⟨s', hs', hreplaces.cell, hreplaces.others _ (by decide), (hlookup _).1 hc, (hlookup _).2 hother⟩
  · exact absurd shadowed_designates (hnone _)

end Frames

end FrameMachine
