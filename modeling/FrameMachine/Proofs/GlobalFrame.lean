import FrameMachine.Proofs.CallerFrames
import FrameMachine.Proofs.Precedence

/-!
# The global frame

An instruction leaves the global frame as it is, declares a name in it, or gives a value to one of its cells
(`global_step`). So names and values stay in it. A name is declared from the first `DEFVAR` of it on, and it has
a value from the first assignment on that goes to its cell, by whichever reference.
-/

namespace FrameMachine

/-! ## Names and values -/

namespace Frame

variable {f : Frame} {name other : String} {v : Option Value}

theorem mem_names_insert : other ∈ (f.insert name v).names ↔ other = name ∨ other ∈ f.names := by
  rw [← isSome_find_iff, ← isSome_find_iff]
  by_cases hother : other = name
  · simp [hother, find_insert_self]
  · simp [hother, find_insert_of_ne]

theorem declares_iff : f.declares name = true ↔ name ∈ f.names := isSome_find_iff

theorem grows_insert_value (w : Value) : f.Grows (f.insert name (some w)) := by
  refine ⟨fun other hmem => mem_names_insert.mpr (Or.inr hmem), fun other u hu => ?_⟩
  by_cases hother : other = name
  · exact ⟨w, by rw [hother, find_insert_self]⟩
  · exact ⟨u, by rw [find_insert_of_ne f hother, hu]⟩

end Frame

namespace Frames

variable {s s' : Frames} {x : Variable}

theorem declare_gf_eq_ok {name : String} (h : s.declare ⟨.gf, name⟩ = .ok s') :
    s.global.declares name = false ∧ s'.global = s.global.insert name none := by
  obtain ⟨g, hg, rfl⟩ := ok_of_map h
  exact declareIn_eq_ok hg

theorem global_of_declare (h : s.declare x = .ok s') :
    (∃ name, x = ⟨.gf, name⟩ ∧ s.global.declares name = false ∧ s'.global = s.global.insert name none) ∨
      s'.global = s.global := by
  obtain ⟨scope, name⟩ := x
  cases scope with
  | gf => exact Or.inl ⟨name, rfl, declare_gf_eq_ok h⟩
  | lf | tf =>
    simp only [declare] at h
    split at h
    · cases h
    · obtain ⟨g, -, rfl⟩ := ok_of_map h
      exact Or.inr rfl

theorem global_update (c : Cell) (v : Option Value) :
    (s.update c v).global = if c.place = .global then s.global.insert c.name v else s.global := by
  obtain ⟨place, name⟩ := c
  cases place <;> rfl

theorem lookup_global {name : String} {w : Option Value} (h : s.global.find? name = some w) :
    s.lookup ⟨.gf, name⟩ = .ok w := by
  simp [lookup, visible, h, bind, Except.bind]

end Frames

/-! ## Steps -/

section
variable {p : Program} {i : Instruction} {m : Machine} {op : Operation} {e : Effect}

theorem Operation.Yields.assign (h : op.Yields p i m e) {x : Variable} (hx : op.destination? = some x) :
    ∃ v, m.frames.assign x v = .ok (e.apply m).frames := by
  cases h with
  | move _ _ hs | typeOf _ _ hs | pop _ _ hs | compute _ _ _ hs | setChar _ _ hs | read _ hs =>
    obtain rfl := Option.some.inj hx
    exact ⟨_, hs⟩
  | _ => cases hx

end

namespace Machine

/-- The next instruction is an operation that succeeds. -/
def Performs (p : Program) (m : Machine) (op : Operation) : Prop :=
  ∃ i, p.get? m.pc = some i ∧ i.operation = .ok op ∧ (m.execute p 1).2 = none

def DeclaresGlobal (p : Program) (m : Machine) (name : String) : Prop := m.Performs p (.declare ⟨.gf, name⟩)

/-- The next instruction assigns to a cell of the global frame, by any reference that designates it. -/
def AssignsGlobal (p : Program) (m : Machine) (name : String) : Prop :=
  ∃ op x, m.Performs p op ∧ op.destination? = some x ∧ m.frames.Designates x ⟨.global, name⟩

/-- What an instruction makes of the global frame. -/
inductive GlobalStep (p : Program) (m : Machine) : Frame → Prop
  | keep : GlobalStep p m m.frames.global
  | declare {name : String} : m.DeclaresGlobal p name → m.frames.global.declares name = false →
      GlobalStep p m (m.frames.global.insert name none)
  | assign {name : String} {v : Value} : m.AssignsGlobal p name →
      GlobalStep p m (m.frames.global.insert name (some v))

section
variable {p : Program} {m : Machine} {name : String}

theorem collect_of_performs {op : Operation} (h : m.Performs p op) : ∃ t, Labels.collect p = .ok t := by
  obtain ⟨i, -, -, hnone⟩ := h
  exact collect_of_execute hnone

theorem yields_of_performs (hm : m.Collected p) {op : Operation} (h : m.Performs p op)
    (hlabel : ∀ name, op ≠ .label name) :
    ∃ i e, op.Yields p i (m.advance i) e ∧ (m.execute p 1).1 = e.apply (m.advance i) := by
  obtain ⟨labels, hcollect⟩ := collect_of_performs h
  obtain ⟨i, hi, hop, hnone⟩ := h
  rw [execute_one hm hcollect] at hnone ⊢
  have hopcode : i.opcode ≠ .label := by
    intro hopcode
    obtain ⟨name, rfl⟩ := label_of_operation hop hopcode
    exact hlabel name rfl
  obtain ⟨op', e, hop', hyields, hnext⟩ := step_yields hi hopcode hnone
  obtain rfl := Except.ok.inj (hop.symm.trans hop')
  exact ⟨i, e, hyields, hnext⟩

theorem global_step (hm : m.Collected p) : m.GlobalStep p (m.execute p 1).1.frames.global := by
  cases hcollect : Labels.collect p with
  | error f =>
    rw [execute_of_error hcollect]
    exact .keep
  | ok labels =>
    have hone := execute_one hm hcollect
    rw [hone]
    rcases step_performs p m with hsame | ⟨i, op, e, hi, hop, -, hyields, hstep⟩
    · rw [hsame.frames]
      exact .keep
    · have hperforms : m.Performs p op := ⟨i, hi, hop, by rw [hone, hstep]⟩
      rw [hstep]
      -- The operations with a destination all end in the same assignment.
      cases hx : op.destination? with
      | some x =>
        obtain ⟨v, hassign⟩ := hyields.assign hx
        obtain ⟨⟨place, name⟩, hc, hupdate⟩ := Frames.update_of_assign hassign
        simp only [hupdate, Frames.global_update]
        by_cases hplace : place = .global
        · subst hplace
          rw [if_pos rfl]
          exact .assign ⟨op, x, hperforms, hx, hc⟩
        · rw [if_neg hplace]
          exact .keep
      | none =>
        cases hyields with
        | pushFrame hs =>
          obtain ⟨t, -, heq⟩ := Frames.push_eq_ok hs
          simp only [Effect.apply, heq]
          exact .keep
        | popFrame hs =>
          obtain ⟨f, fs, -, heq⟩ := Frames.pop_eq_ok hs
          simp only [Effect.apply, heq]
          exact .keep
        | declare hs =>
          rcases Frames.global_of_declare hs with ⟨name, rfl, hnew, hglobal⟩ | hglobal
          · simp only [Effect.apply, hglobal]
            exact .declare hperforms hnew
          · simp only [Effect.apply, hglobal]
            exact .keep
        | move | typeOf | pop | compute | setChar | read => cases hx
        | _ => exact .keep

theorem GlobalStep.grows {f : Frame} (h : m.GlobalStep p f) : m.frames.global.Grows f := by
  cases h with
  | keep => exact .refl _
  | declare _ hnew => exact Frame.grows_insert hnew
  | assign => exact Frame.grows_insert_value _

theorem GlobalStep.declared {f : Frame} (h : m.GlobalStep p f) (hname : name ∈ f.names) :
    name ∈ m.frames.global.names ∨ m.DeclaresGlobal p name := by
  cases h with
  | keep => exact Or.inl hname
  | declare hdeclares =>
    rcases Frame.mem_names_insert.mp hname with rfl | hname
    · exact Or.inr hdeclares
    · exact Or.inl hname
  | assign hassigns =>
    obtain ⟨op, x, -, -, hc⟩ := hassigns
    rw [Frame.names_insert hc.isSome] at hname
    exact Or.inl hname

theorem GlobalStep.defined {f : Frame} {v : Value} (h : m.GlobalStep p f) (hv : f.find? name = some (some v)) :
    (∃ w, m.frames.global.find? name = some (some w)) ∨ m.AssignsGlobal p name := by
  cases h with
  | keep => exact Or.inl ⟨v, hv⟩
  | @declare other =>
    by_cases hother : name = other
    · rw [hother, Frame.find_insert_self] at hv
      cases hv
    · rw [Frame.find_insert_of_ne _ hother] at hv
      exact Or.inl ⟨v, hv⟩
  | @assign other w hassigns =>
    by_cases hother : name = other
    · rw [hother]
      exact Or.inr hassigns
    · rw [Frame.find_insert_of_ne _ hother] at hv
      exact Or.inl ⟨v, hv⟩

theorem declared_of_declaresGlobal (hm : m.Collected p) (h : m.DeclaresGlobal p name) :
    name ∈ (m.execute p 1).1.frames.global.names := by
  obtain ⟨i, e, hyields, hnext⟩ := yields_of_performs hm h nofun
  rw [hnext]
  cases hyields with
  | declare hs =>
    obtain ⟨-, hglobal⟩ := Frames.declare_gf_eq_ok hs
    simp only [Effect.apply, hglobal]
    exact Frame.mem_names_insert.mpr (Or.inl rfl)

theorem defined_of_assignsGlobal (hm : m.Collected p) (h : m.AssignsGlobal p name) :
    ∃ v, (m.execute p 1).1.frames.global.find? name = some (some v) := by
  obtain ⟨op, x, hperforms, hx, hc⟩ := h
  have hlabel : ∀ name, op ≠ .label name := by
    rintro name rfl
    cases hx
  obtain ⟨i, e, hyields, hnext⟩ := yields_of_performs hm hperforms hlabel
  obtain ⟨v, hassign⟩ := hyields.assign hx
  obtain ⟨c, hc', hupdate⟩ := Frames.update_of_assign hassign
  obtain rfl := hc.unique hc'
  refine ⟨v, ?_⟩
  rw [hnext, hupdate, Frames.global_update, if_pos rfl, Frame.find_insert_self]

theorem failsWith_redeclared {i : Instruction} (hi : p.get? m.pc = some i)
    (hop : i.operation = .ok (.declare ⟨.gf, name⟩)) (hname : name ∈ m.frames.global.names) :
    m.FailsWith p (.variableRedeclared ⟨.gf, name⟩) := by
  have hopcode : i.opcode ≠ .label := by
    rw [← opcode_of_operation hop]
    nofun
  have hdeclares : (m.advance i).frames.global.declares name = true := Frame.declares_iff.mpr hname
  refine failsWith_of_effect hi ?_
  simp [Instruction.effect, hopcode, hop, Operation.effect, Frames.declare, Frames.declareIn, hdeclares, bind,
    Except.bind, Except.map]

theorem not_denies_global {s : Frames} {v : Value} (hv : s.global.find? name = some (some v)) :
    ¬ s.Denies (.undeclaredVariable ⟨.gf, name⟩) ∧ ¬ s.Denies (.uninitializedVariable ⟨.gf, name⟩) := by
  have hlookup := Frames.lookup_global hv
  constructor
  · intro h
    cases h with
    | undeclared h => cases hlookup.symm.trans h
  · intro h
    cases h with
    | uninitialized h => cases hlookup.symm.trans h

end

/-! ## Runs -/

section
variable {p : Program}

theorem holds_after_iff {P Q : Machine → Prop} (m : Machine) (hzero : ¬ P (m.after p 0))
    (hstep : ∀ n, n.Collected p → (P (n.execute p 1).1 ↔ P n ∨ Q n)) (t : Nat) :
    P (m.after p t) ↔ ∃ s < t, Q (m.after p s) := by
  induction t with
  | zero => simp [hzero]
  | succ t ih =>
    rw [after, hstep _ (collected_after m t), ih]
    constructor
    · rintro (⟨s, hs, hQ⟩ | hQ)
      · exact ⟨s, by omega, hQ⟩
      · exact ⟨t, by omega, hQ⟩
    · rintro ⟨s, hs, hQ⟩
      rcases Nat.lt_succ_iff_lt_or_eq.mp hs with hlt | rfl
      · exact Or.inl ⟨s, hlt, hQ⟩
      · exact Or.inr hQ

theorem declared_execute {m : Machine} (hm : m.Collected p) (name : String) :
    name ∈ (m.execute p 1).1.frames.global.names ↔
      name ∈ m.frames.global.names ∨ m.DeclaresGlobal p name := by
  constructor
  · exact (global_step hm).declared
  · rintro (hname | hdeclares)
    · exact (global_step hm).grows.declared name hname
    · exact declared_of_declaresGlobal hm hdeclares

theorem defined_execute {m : Machine} (hm : m.Collected p) (name : String) :
    (∃ v, (m.execute p 1).1.frames.global.find? name = some (some v)) ↔
      (∃ v, m.frames.global.find? name = some (some v)) ∨ m.AssignsGlobal p name := by
  constructor
  · rintro ⟨v, hv⟩
    exact (global_step hm).defined hv
  · rintro (⟨v, hv⟩ | hassigns)
    · exact (global_step hm).grows.defined name v hv
    · exact defined_of_assignsGlobal hm hassigns

theorem grows_after (m : Machine) {s t : Nat} (h : s ≤ t) :
    (m.after p s).frames.global.Grows (m.after p t).frames.global := by
  induction h with
  | refl => exact .refl _
  | @step t _ ih => exact ih.trans (global_step (collected_after m t)).grows

end

section
variable (p : Program) (input : Input) (device : Device)

theorem declared_iff (name : String) (t : Nat) :
    let m := start input device
    name ∈ (m.after p t).frames.global.names ↔ ∃ s < t, (m.after p s).DeclaresGlobal p name := by
  intro m
  refine holds_after_iff (P := fun n => name ∈ n.frames.global.names) (Q := fun n => n.DeclaresGlobal p name)
    m ?_ ?_ t
  · obtain ⟨labels, hzero⟩ := exists_after_zero p m
    rw [hzero]
    exact List.not_mem_nil
  · intro n hn
    exact declared_execute hn name

theorem defined_iff (name : String) (t : Nat) :
    let m := start input device
    (∃ v, (m.after p t).frames.global.find? name = some (some v)) ↔
      ∃ s < t, (m.after p s).AssignsGlobal p name := by
  intro m
  refine holds_after_iff (P := fun n => ∃ v, n.frames.global.find? name = some (some v))
    (Q := fun n => n.AssignsGlobal p name) m ?_ ?_ t
  · obtain ⟨labels, hzero⟩ := exists_after_zero p m
    rw [hzero]
    nofun
  · intro n hn
    exact defined_execute hn name

end

/-- The global frame loses nothing: a name is in it from its `DEFVAR` on, and has a value from the first
assignment to its cell on. -/
theorem global_frame_grows (p : Program) (input : Input) (device : Device) :
    let m := start input device
    (∀ fuel (fuels : List Nat), ∃ t,
      fuels.foldl (fun n fuel => (n.execute p fuel).1) (m.execute p fuel).1 = m.after p t) ∧
    (∀ s t, s ≤ t → (m.after p s).frames.global.Grows (m.after p t).frames.global) ∧
    (∀ t name,
      (name ∈ (m.after p t).frames.global.names ↔ ∃ s < t, (m.after p s).DeclaresGlobal p name) ∧
      ((∃ v, (m.after p t).frames.global.find? name = some (some v)) ↔
        ∃ s < t, (m.after p s).AssignsGlobal p name)) ∧
    ∀ s t name, s < t →
      ((m.after p s).DeclaresGlobal p name → ∀ i, p.get? (m.after p t).pc = some i →
        i.operation = .ok (.declare ⟨.gf, name⟩) →
        ((m.after p t).execute p 1).2 =
          some (.error ⟨(m.after p t).pc, .variableRedeclared ⟨.gf, name⟩⟩)) ∧
      ((m.after p s).AssignsGlobal p name → ∀ fuel next f,
        (m.after p t).execute p fuel = (next, some (.error f)) →
        f.fault ≠ .undeclaredVariable ⟨.gf, name⟩ ∧ f.fault ≠ .uninitializedVariable ⟨.gf, name⟩) := by
  intro m
  refine ⟨executions_eq_after m, fun s t => grows_after m, fun t name => ⟨?_, ?_⟩, ?_⟩
  · exact declared_iff p input device name t
  · exact defined_iff p input device name t
  intro s t name hst
  refine ⟨?_, ?_⟩
  · intro hdeclares i hi hop
    obtain ⟨labels, hcollect⟩ := collect_of_performs hdeclares
    have hname := (declared_iff p input device name t).mpr ⟨s, hst, hdeclares⟩
    rw [execute_after hcollect]
    exact failsWith_redeclared hi hop hname
  · intro hassigns fuel next f h
    obtain ⟨labels, hcollect⟩ : ∃ labels, Labels.collect p = .ok labels := by
      obtain ⟨op, x, hperforms, -⟩ := hassigns
      exact collect_of_performs hperforms
    obtain ⟨k, hlast⟩ := step_of_execute hcollect h
    rw [after_add] at hlast
    obtain ⟨v, hv⟩ := (defined_iff p input device name (t + k)).mpr ⟨s, by omega, hassigns⟩
    obtain ⟨i, -, hindex, -⟩ := step_fault hlast
    have hfails : (m.after p (t + k)).FailsWith p f.fault := by
      rw [FailsWith, hlast, ← hindex]
    obtain ⟨hundeclared, huninitialized⟩ := not_denies_global hv
    constructor
    · intro hf
      rw [hf] at hfails
      exact hundeclared (denies_of_failsWith hfails rfl)
    · intro hf
      rw [hf] at hfails
      exact huninitialized (denies_of_failsWith hfails rfl)

/-- Assigns to a global variable through the temporary frame, and declares it once more before it is written. -/
def borrowed : Program where
  instructions := [
    ⟨1, .defvar, [⟨0, .var, "GF@x"⟩]⟩,
    ⟨2, .createframe, []⟩,
    ⟨3, .move, [⟨0, .var, "TF@x"⟩, ⟨1, .literal .int, "1"⟩]⟩,
    ⟨4, .defvar, [⟨0, .var, "GF@x"⟩]⟩,
    ⟨5, .write, [⟨0, .var, "GF@x"⟩]⟩,
    ⟨6, .write, [⟨0, .var, "LF@x"⟩]⟩]
  ordered := by decide
  positive := by decide
  placed := by decide

theorem borrowed_grows :
    let m := start Input.empty Device.reliable
    (m.after borrowed 2).AssignsGlobal borrowed "x" ∧
      ((m.after borrowed 3).execute borrowed 1).2 = some (.error ⟨3, .variableRedeclared ⟨.gf, "x"⟩⟩) ∧
      (∃ v, (m.after borrowed 6).frames.global.find? "x" = some (some v)) ∧
      ((m.after borrowed 4).execute borrowed 2).2 = some (.error ⟨5, .frameNotAvailable .lf⟩) ∧
      ∀ fuel next f, (m.after borrowed 4).execute borrowed fuel = (next, some (.error f)) →
        f.fault ≠ .undeclaredVariable ⟨.gf, "x"⟩ ∧ f.fault ≠ .uninitializedVariable ⟨.gf, "x"⟩ := by
  intro m
  have hdeclares : (m.after borrowed 0).DeclaresGlobal borrowed "x" := ⟨_, rfl, rfl, by decide +kernel⟩
  have hassigns : (m.after borrowed 2).AssignsGlobal borrowed "x" :=
    ⟨.move ⟨.tf, "x"⟩ (.literal (.int 1)), ⟨.tf, "x"⟩, ⟨_, rfl, rfl, by decide +kernel⟩, rfl,
      .tfGlobal (by decide +kernel) (by decide +kernel) (by decide +kernel)⟩
  obtain ⟨-, -, hdefined, hlater⟩ := global_frame_grows borrowed Input.empty Device.reliable
  refine ⟨hassigns, ?_, ?_, by decide +kernel, ?_⟩
  · exact (hlater 0 3 "x" (by decide)).1 hdeclares _ rfl rfl
  · rw [(hdefined 6 "x").2]
    exact ⟨2, by decide, hassigns⟩
  · exact (hlater 2 4 "x" (by decide)).2 hassigns

end Machine

end FrameMachine
