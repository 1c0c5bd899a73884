import FrameMachine.Proofs.Lockstep

/-!
# Which fault comes first

A step fails with the fault of the arguments, which depend on the instruction alone, or with one of a later stage
(`fails_of_failsWith`). So the fault of a step tells what the stages before its own have found
(`fault_precedence`).
-/

namespace FrameMachine

theorem Instruction.stage_of_operation {i : Instruction} {f : Fault} (h : i.operation = .error f) :
    f.stage = .arguments := by
  rw [Fault.stage_eq_arguments_iff]
  rcases operation_fault h with hcategory | ⟨a, -, -, rfl⟩
  · exact Or.inl hcategory
  · exact Or.inr ⟨a.text, rfl⟩

/-! ## Steps -/

namespace Machine

def FailsWith (p : Program) (m : Machine) (f : Fault) : Prop := (m.step p).2 = some (.error ⟨m.pc, f⟩)

section
variable {p : Program} {m : Machine} {i : Instruction} {f : Fault} (hi : p.get? m.pc = some i)
include hi

theorem failsWith_of_effect (h : i.effect p (m.advance i) = .error f) : m.FailsWith p f := by
  rw [FailsWith, step_of_get hi, h]
  rfl

theorem effect_of_failsWith (h : m.FailsWith p f) (hf : f.stage ≠ .outside) :
    i.effect p (m.advance i) = .error f := by
  have hstep := step_cases p m
  rw [h] at hstep
  generalize (m.step p).1 = next at hstep
  cases hstep with
  | fault hj he =>
    obtain rfl := Option.some.inj (hi.symm.trans hj)
    exact he
  | refused => exact absurd rfl hf

theorem ne_label_of_failsWith (h : m.FailsWith p f) (hf : f.stage ≠ .outside) : i.opcode ≠ .label :=
  opcode_ne_label (effect_of_failsWith hi h hf) nofun

variable (hlabel : i.opcode ≠ .label)
include hlabel

theorem failsWith_of_operation (h : i.operation = .error f) : m.FailsWith p f := by
  refine failsWith_of_effect hi ?_
  simp only [Instruction.effect, hlabel, ite_false, h]
  rfl

theorem fails_of_failsWith (h : m.FailsWith p f) (hf : f.stage ≠ .outside) :
    i.operation = .error f ∨ ∃ op, i.operation = .ok op ∧ op.Fails m.labels m.frames f := by
  have heffect := effect_of_failsWith hi h hf
  simp only [Instruction.effect, hlabel, ite_false] at heffect
  rcases error_of_bind heffect with hop | ⟨op, hop, heffect⟩
  · exact Or.inl hop
  · have hfails := Operation.fails_of_effect hop heffect
    exact Or.inr ⟨op, hop, hfails⟩

theorem operation_of_failsWith (h : m.FailsWith p f) (hf : f.stage = .arguments) : i.operation = .error f := by
  rcases fails_of_failsWith hi hlabel h (by rw [hf]; nofun) with hop | ⟨op, -, hfails⟩
  · exact hop
  · exact absurd hf hfails.stage_ne.1

theorem operation_ok_of_failsWith {stage : Stage} (h : m.FailsWith p f) (hf : f.stage = stage)
    (hinside : stage ≠ .outside) (hlater : stage ≠ .arguments) :
    ∃ op, i.operation = .ok op ∧ op.Fails m.labels m.frames f := by
  subst hf
  rcases fails_of_failsWith hi hlabel h hinside with hop | hfails
  · exact absurd (Instruction.stage_of_operation hop) hlater
  · exact hfails

theorem failsWith_undefinedLabel {op : Operation} {name : String} (hop : i.operation = .ok op)
    (hname : op.label? = some name) (hnone : m.labels.find? name = none) :
    m.FailsWith p (.undefinedLabel name) := by
  have htarget : (m.advance i).labels.target name = .error (.undefinedLabel name) := by
    have hfind : (m.advance i).labels.find? name = none := hnone
    rw [Labels.target, hfind]
  refine failsWith_of_effect hi ?_
  simp only [Instruction.effect, hlabel, ite_false, hop]
  cases op with
  | call n | jump n | jumpIf _ n =>
    obtain rfl := Option.some.inj hname
    simp only [bind, Except.bind, Operation.effect, htarget]
  | label n => exact absurd (opcode_of_operation hop).symm hlabel
  | _ => cases hname

end

theorem denies_of_failsWith {p : Program} {m : Machine} {f : Fault} (h : m.FailsWith p f)
    (hf : f.stage = .access) : m.frames.Denies f := by
  obtain ⟨i, hi, -⟩ := step_fault (Prod.ext rfl h)
  have hlabel := ne_label_of_failsWith hi h (by rw [hf]; nofun)
  obtain ⟨op, -, hfails⟩ := operation_ok_of_failsWith hi hlabel h hf nofun nofun
  cases hfails with
  | access _ _ hdenies => exact hdenies
  | label | mismatch => cases hf
  | shortage hshortage => cases (Fault.stage_of_missingValue hshortage).symm.trans hf
  | value hvalue => cases hvalue.symm.trans hf

/-- The order of the checks, as the fault of a step shows it: each fault says what the checks before its own
have found. -/
structure ChecksInOrder (p : Program) (m : Machine) (i : Instruction) : Prop where
  index : ∀ e, (m.step p).2 = some (.error e) → e.index = m.pc
  arguments : ∀ f, i.operation = .error f ↔ f.stage = .arguments ∧ m.FailsWith p f
  everywhere : ∀ f, f.stage = .arguments → m.FailsWith p f →
    ∀ (p' : Program) (m' : Machine), p'.get? m'.pc = some i → m'.FailsWith p' f
  label : ∀ name, m.FailsWith p (.undefinedLabel name) ↔
    ∃ op, i.operation = .ok op ∧ op.label? = some name ∧ m.labels.find? name = none
  access : ∀ f, f.stage = .access → m.FailsWith p f → ∃ op, i.operation = .ok op ∧ op.LabelKnown m.labels
  operands : ∀ f, f.stage = .operands → m.FailsWith p f →
    ∃ op, i.operation = .ok op ∧ op.LabelKnown m.labels ∧ op.Resolved m.frames
  mismatch : ∀ opcode types, m.FailsWith p (.typeMismatch opcode types) →
    opcode = i.opcode ∧ i.opcode.accepts types = false ∧
      ∃ op vs, i.operation = .ok op ∧ Symbol.values m.frames op.sources = .ok vs ∧ types = vs.map Value.type
  values : ∀ f, f.stage = .values → m.FailsWith p f →
    ∃ op vs, i.operation = .ok op ∧ op.LabelKnown m.labels ∧ op.Resolved m.frames ∧
      Symbol.values m.frames op.sources = .ok vs ∧ i.opcode.accepts (vs.map Value.type) = true

theorem fault_precedence (p : Program) (m : Machine) (i : Instruction) (hi : p.get? m.pc = some i)
    (hlabel : i.opcode ≠ .label) : ChecksInOrder p m i where
  index := by
    intro e he
    obtain ⟨-, -, hindex, -⟩ := step_fault (Prod.ext rfl he)
    exact hindex
  arguments := by
    intro f
    constructor
    · intro hop
      exact ⟨Instruction.stage_of_operation hop, failsWith_of_operation hi hlabel hop⟩
    · rintro ⟨hf, h⟩
      exact operation_of_failsWith hi hlabel h hf
  everywhere := by
    intro f hf h p' m' hi'
    exact failsWith_of_operation hi' hlabel (operation_of_failsWith hi hlabel h hf)
  label := by
    intro name
    constructor
    · intro h
      obtain ⟨op, hop, hfails⟩ := operation_ok_of_failsWith hi hlabel h rfl nofun nofun
      cases hfails with
      | label hname hnone => exact ⟨op, hop, hname, hnone⟩
      | access hf | shortage hf | value hf => cases hf
    · rintro ⟨op, hop, hname, hnone⟩
      exact failsWith_undefinedLabel hi hlabel hop hname hnone
  access := by
    intro f hf h
    obtain ⟨op, hop, hfails⟩ := operation_ok_of_failsWith hi hlabel h hf nofun nofun
    cases hfails with
    | label => cases hf
    | access _ hknown | shortage _ hknown | mismatch hknown | value _ hknown => exact ⟨op, hop, hknown⟩
  operands := by
    intro f hf h
    obtain ⟨op, hop, hfails⟩ := operation_ok_of_failsWith hi hlabel h hf nofun nofun
    cases hfails with
    | label => cases hf
    | access haccess => cases haccess.symm.trans hf
    | shortage _ hknown hresolved | mismatch hknown hresolved | value _ hknown hresolved =>
      exact ⟨op, hop, hknown, hresolved⟩
  mismatch := by
    intro opcode types h
    obtain ⟨op, hop, hfails⟩ := operation_ok_of_failsWith hi hlabel h rfl nofun nofun
    rw [← opcode_of_operation hop]
    cases hfails with
    | access hf | shortage hf | value hf => cases hf
    | mismatch _ _ hvs haccepts => exact ⟨rfl, haccepts, op, _, hop, hvs, rfl⟩
  values := by
    intro f hf h
    obtain ⟨op, hop, hfails⟩ := operation_ok_of_failsWith hi hlabel h hf nofun nofun
    rw [← opcode_of_operation hop]
    cases hfails with
    | label | mismatch => cases hf
    | access haccess => cases haccess.symm.trans hf
    | shortage hshortage => cases (Fault.stage_of_missingValue hshortage).symm.trans hf
    | value _ hknown hresolved hvs haccepts => exact ⟨op, _, hop, hknown, hresolved, hvs, haccepts⟩

/-- Each of the last three instructions is wrong in two ways: label and variable, type and zero, escape and
variable. -/
def colliding : Program where
  instructions := [
    ⟨1, .defvar, [⟨0, .var, "GF@n"⟩]⟩,
    ⟨2, .jumpifeq, [⟨0, .label, "missing"⟩, ⟨1, .var, "GF@none"⟩, ⟨2, .literal .int, "0"⟩]⟩,
    ⟨3, .idiv, [⟨0, .var, "GF@n"⟩, ⟨1, .literal .bool, "true"⟩, ⟨2, .literal .int, "0"⟩]⟩,
    ⟨4, .concat, [⟨0, .var, "GF@none"⟩, ⟨1, .literal .string, "\\1"⟩, ⟨2, .literal .int, "0"⟩]⟩]
  ordered := by decide
  positive := by decide
  placed := by decide

theorem colliding_precedence :
    let m := start Input.empty Device.reliable
    (m.after colliding 1).FailsWith colliding (.undefinedLabel "missing") ∧
      (m.after colliding 2).FailsWith colliding (.typeMismatch .idiv [.bool, .int]) ∧
      Opcode.idiv.accepts [.bool, .int] = false ∧
      ∀ i, colliding.get? 3 = some i → ∀ (p : Program) (n : Machine), p.get? n.pc = some i →
        n.FailsWith p (.invalidEscape "\\1") := by
  intro m
  have hjump := fault_precedence colliding (m.after colliding 1) _ (by decide +kernel : _ = some
    ⟨2, .jumpifeq, [⟨0, .label, "missing"⟩, ⟨1, .var, "GF@none"⟩, ⟨2, .literal .int, "0"⟩]⟩) nofun
  have hidiv := fault_precedence colliding (m.after colliding 2) _ (by decide +kernel : _ = some
    ⟨3, .idiv, [⟨0, .var, "GF@n"⟩, ⟨1, .literal .bool, "true"⟩, ⟨2, .literal .int, "0"⟩]⟩) nofun
  have hconcat := fault_precedence colliding (m.after colliding 3) _ (by decide +kernel : _ = some
    ⟨4, .concat, [⟨0, .var, "GF@none"⟩, ⟨1, .literal .string, "\\1"⟩, ⟨2, .literal .int, "0"⟩]⟩) nofun
  have hfails : (m.after colliding 2).FailsWith colliding (.typeMismatch .idiv [.bool, .int]) := by
    unfold FailsWith
    decide +kernel
  refine ⟨?_, hfails, (hidiv.mismatch _ _ hfails).2.1, ?_⟩
  · exact (hjump.label "missing").mpr ⟨_, by rfl, by rfl, by decide +kernel⟩
  · intro i hi
    obtain rfl := Option.some.inj hi
    exact hconcat.everywhere _ rfl ((hconcat.arguments _).mp (by decide +kernel)).2

end Machine

end FrameMachine
