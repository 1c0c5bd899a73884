import FrameMachine.Frames.Store
import Mathlib.Data.List.Basic

/-!
# Looking up and setting agree

Setting a variable searches the frames that are visible from its scope as looking it up does
(`set_of_visible`), so a variable that is found can be assigned (`assign_of_lookup`) and is then found
with its new value (`lookup_of_assign`).
-/

namespace FrameMachine

theorem lookup_insertEntry_self {α : Type} (name : String) (a : α) (l : List (String × α)) :
    (insertEntry name a l).lookup name = some a := by
  induction l with
  | nil => simp [insertEntry]
  | cons e rest ih =>
    unfold insertEntry
    by_cases hlt : name < e.1
    · rw [if_pos hlt, List.lookup_cons_self]
    · rw [if_neg hlt]
      by_cases heq : name = e.1
      · rw [if_pos heq, List.lookup_cons_self]
      · rw [if_neg heq, List.lookup_cons, beq_false_of_ne heq]
        exact ih

theorem Frame.find_insert_self (f : Frame) (name : String) (v : Option Value) :
    (f.insert name v).find? name = some v := lookup_insertEntry_self name v f.entries

namespace Frames

theorem findSome_eq_none_iff {name : String} {fs : List Frame} :
    fs.findSome? (·.find? name) = none ↔ ∀ f ∈ fs, f.declares name = false := by
  rw [List.findSome?_eq_none_iff]
  simp [Frame.declares]

theorem setFirst_eq_none_iff {name : String} {v : Option Value} {fs : List Frame} :
    setFirst name v fs = none ↔ ∀ f ∈ fs, f.declares name = false := by
  induction fs with
  | nil => simp [setFirst]
  | cons f fs ih =>
    rw [setFirst, List.forall_mem_cons]
    by_cases hf : f.declares name = true
    · simp [hf]
    · simp [hf, ih]

theorem setFirst_eq_some {name : String} {v : Option Value} {fs gs : List Frame}
    (h : setFirst name v fs = some gs) :
    ∃ (k : Nat) (hk : k < fs.length), fs[k].declares name = true ∧
      (∀ f ∈ fs.take k, f.declares name = false) ∧ gs = fs.set k (fs[k].insert name v) := by
  induction fs generalizing gs with
  | nil => cases h
  | cons f fs ih =>
    rw [setFirst] at h
    by_cases hf : f.declares name = true
    · rw [if_pos hf] at h
      obtain rfl := Option.some.inj h
      exact ⟨0, Nat.zero_lt_succ _, hf, by simp, rfl⟩
    · rw [if_neg hf, Option.map_eq_some_iff] at h
      obtain ⟨rest, hrest, rfl⟩ := h
      obtain ⟨k, hk, hdeclares, hbefore, rfl⟩ := ih hrest
      refine ⟨k + 1, Nat.succ_lt_succ hk, hdeclares, ?_, rfl⟩
      rw [List.take_succ_cons, List.forall_mem_cons]
      exact ⟨by simpa using hf, hbefore⟩

/-! ## Faults of the two -/

theorem setGlobal_cases {s : Frames} {x : Variable} {before : List Frame}
    (hbefore : ∀ f ∈ before, f.declares x.name = false) (v : Option Value) :
    (∃ s', s.setGlobal x v = .ok s' ∧ ∃ f ∈ before ++ [s.global], f.declares x.name = true) ∨
      s.setGlobal x v = .error (.undeclaredVariable x) ∧
        ∀ f ∈ before ++ [s.global], f.declares x.name = false := by
  unfold setGlobal
  by_cases hglobal : s.global.declares x.name = true
  · rw [if_pos hglobal]
    exact Or.inl ⟨_, rfl, s.global, by simp, hglobal⟩
  · rw [if_neg hglobal]
    refine Or.inr ⟨rfl, fun f hf => ?_⟩
    rcases List.mem_append.mp hf with hf | hf
    · exact hbefore f hf
    · rw [List.mem_singleton.mp hf]
      simpa using hglobal

theorem set_of_visible {s : Frames} {x : Variable} {fs : List Frame} (h : s.visible x.scope = .ok fs)
    (v : Option Value) :
    (∃ s', s.set x v = .ok s' ∧ ∃ f ∈ fs, f.declares x.name = true) ∨
      s.set x v = .error (.undeclaredVariable x) ∧ ∀ f ∈ fs, f.declares x.name = false := by
  obtain ⟨scope, name⟩ := x
  cases scope with
  | gf =>
    obtain rfl := Except.ok.inj h
    exact @setGlobal_cases s ⟨.gf, name⟩ [] (by simp) v
  | lf =>
    simp only [visible] at h
    split at h
    · cases h
    · rename_i hlocals
      obtain rfl := Except.ok.inj h
      simp only [set, hlocals, Bool.false_eq_true, ite_false]
      cases hfirst : setFirst name v s.locals with
      | none => exact setGlobal_cases (setFirst_eq_none_iff.mp hfirst) v
      | some gs =>
        obtain ⟨k, hk, hdeclares, -⟩ := setFirst_eq_some hfirst
        exact Or.inl ⟨_, rfl, s.locals[k], by simp, hdeclares⟩
  | tf =>
    simp only [visible] at h
    split at h
    · cases h
    · rename_i t ht
      obtain rfl := Except.ok.inj h
      simp only [set, ht]
      by_cases hdeclares : t.declares name = true
      · rw [if_pos hdeclares]
        exact Or.inl ⟨_, rfl, t, by simp, hdeclares⟩
      · rw [if_neg hdeclares]
        exact @setGlobal_cases s ⟨.tf, name⟩ [t] (by simpa using hdeclares) v

theorem set_of_lookup {s : Frames} {x : Variable} {w : Option Value} (h : s.lookup x = .ok w)
    (v : Option Value) : ∃ s', s.set x v = .ok s' := by
  unfold lookup at h
  cases hvisible : s.visible x.scope with
  | error f => rw [hvisible] at h; cases h
  | ok fs =>
    rcases set_of_visible hvisible v with ⟨s', hs', -⟩ | ⟨-, hnone⟩
    · exact ⟨s', hs'⟩
    · simp only [hvisible, bind, Except.bind, findSome_eq_none_iff.mpr hnone] at h
      cases h

theorem assign_of_lookup {s : Frames} {x : Variable} {w : Option Value} (h : s.lookup x = .ok w)
    (v : Value) : ∃ s', s.assign x v = .ok s' := set_of_lookup h (some v)

/-! ## Looking up what has been set -/

theorem findSome_setFirst {name : String} {v : Option Value} {fs gs : List Frame}
    (h : setFirst name v fs = some gs) (rest : List Frame) :
    (gs ++ rest).findSome? (·.find? name) = some v := by
  induction fs generalizing gs with
  | nil => cases h
  | cons f fs ih =>
    rw [setFirst] at h
    by_cases hf : f.declares name = true
    · rw [if_pos hf] at h
      obtain rfl := Option.some.inj h
      simp [Frame.find_insert_self]
    · rw [if_neg hf, Option.map_eq_some_iff] at h
      obtain ⟨gs, hgs, rfl⟩ := h
      have hnone : f.find? name = none := by simpa [Frame.declares] using hf
      rw [List.cons_append, List.findSome?_cons, hnone]
      exact ih hgs

theorem findSome_setGlobal {s s' : Frames} {x : Variable} {v : Option Value} (h : s.setGlobal x v = .ok s')
    {before : List Frame} (hbefore : ∀ f ∈ before, f.declares x.name = false) :
    s' = { s with global := s.global.insert x.name v } ∧
      (before ++ [s'.global]).findSome? (·.find? x.name) = some v := by
  unfold setGlobal at h
  split at h
  · cases h
    refine ⟨rfl, ?_⟩
    rw [List.findSome?_append, findSome_eq_none_iff.mpr hbefore]
    simp [Frame.find_insert_self]
  · cases h

theorem lookup_of_set {s s' : Frames} {x : Variable} {v : Option Value} (h : s.set x v = .ok s') :
    s'.lookup x = .ok v := by
  suffices hfind : ∃ fs, s'.visible x.scope = .ok fs ∧ fs.findSome? (·.find? x.name) = some v by
    obtain ⟨fs, hvisible, hfound⟩ := hfind
    simp [lookup, hvisible, hfound, bind, Except.bind]
  obtain ⟨scope, name⟩ := x
  cases scope with
  | gf =>
    obtain ⟨rfl, hfound⟩ := @findSome_setGlobal s s' ⟨.gf, name⟩ v h [] (by simp)
    exact ⟨_, rfl, hfound⟩
  | lf =>
    simp only [set] at h
    split at h
    · cases h
    · rename_i hlocals
      cases hfirst : setFirst name v s.locals with
      | none =>
        rw [hfirst] at h
        obtain ⟨rfl, hfound⟩ := findSome_setGlobal h (setFirst_eq_none_iff.mp hfirst)
        exact ⟨_, by simp [visible, hlocals], hfound⟩
      | some gs =>
        rw [hfirst] at h
        cases h
        obtain ⟨k, hk, -, -, hgs⟩ := setFirst_eq_some hfirst
        have hne : gs.isEmpty = false := by
          rw [hgs]
          simpa using hlocals
        exact ⟨gs ++ [s.global], by simp [visible, hne], findSome_setFirst hfirst [s.global]⟩
  | tf =>
    simp only [set] at h
    split at h
    · cases h
    · rename_i t ht
      split at h
      · cases h
        exact ⟨[t.insert name v, s.global], rfl, by simp [Frame.find_insert_self]⟩
      · rename_i hdeclares
        obtain ⟨rfl, hfound⟩ := @findSome_setGlobal s s' ⟨.tf, name⟩ v h [t] (by simpa using hdeclares)
        exact ⟨[t, s.global.insert name v], by simp [visible, ht], hfound⟩

theorem lookup_of_assign {s s' : Frames} {x : Variable} {v : Value} (h : s.assign x v = .ok s') :
    s'.lookup x = .ok (some v) := lookup_of_set h

end Frames

end FrameMachine
