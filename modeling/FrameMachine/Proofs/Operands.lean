import FrameMachine.Labels
import FrameMachine.Proofs.Loadable

/-!
# Reading the operands of an instruction

Arguments of the right kinds are read as operands of the right shapes, from which every opcode can make
an operation (`ofOperands_of_fits`). Reading an instruction therefore fails only for a structural reason
or an escape (`operation_fault`), and a written instruction only for a forbidden escape
(`operation_of_written`).
-/

namespace FrameMachine

def Operand.fits : Operand → Shape → Bool
  | .var _, .var => true
  | .var _, .symb => true
  | .literal _, .symb => true
  | .label _, .label => true
  | .type _, .type => true
  | _, _ => false

def OperandsFit (os : List Operand) (shapes : List Shape) : Prop :=
  List.Forall₂ (fun o shape => Operand.fits o shape = true) os shapes

/-- The ways in which reading an argument can go. -/
inductive Argument.Reads (a : Argument) : Except Defect Operand → Prop
  | var {x : Variable} : a.kind = .var → Variable.ofText? a.text = some x → Reads a (.ok (.var x))
  | label : a.kind = .label → a.text ≠ "" → Reads a (.ok (.label a.text))
  | type {t : DataType} : a.kind = .type → DataType.ofName? a.text = some t → Reads a (.ok (.type t))
  | literal {t : DataType} {v : Value} : a.kind = .literal t → Value.ofPayload? t a.text = some v →
      Reads a (.ok (.literal v))
  | noVariable : a.kind = .var → Variable.ofText? a.text = none →
      Reads a (.error (.invalidVariable a.text))
  | noLabel : a.kind = .label → a.text = "" → Reads a (.error (.invalidLiteral .label a.text))
  | noType : a.kind = .type → DataType.ofName? a.text = none → Reads a (.error (.invalidTypeName a.text))
  | noString : a.kind = .literal .string → Value.ofPayload? .string a.text = none →
      Reads a (.error (.invalidEscape a.text))
  | noLiteral {t : DataType} : a.kind = .literal t → t ≠ .string → Value.ofPayload? t a.text = none →
      Reads a (.error (.invalidLiteral (.literal t) a.text))

theorem reads_operand (a : Argument) : a.Reads a.operand := by
  unfold Argument.operand
  cases hkind : a.kind with
  | var =>
    cases hx : Variable.ofText? a.text with
    | some x => exact .var hkind hx
    | none => exact .noVariable hkind hx
  | label =>
    by_cases htext : a.text = ""
    · simpa [htext] using Argument.Reads.noLabel hkind htext
    · simpa [htext] using Argument.Reads.label hkind htext
  | type =>
    cases ht : DataType.ofName? a.text with
    | some t => exact .type hkind ht
    | none => exact .noType hkind ht
  | literal t =>
    dsimp only
    cases hv : Value.ofPayload? t a.text with
    | some v => exact .literal hkind hv
    | none =>
      by_cases ht : t = .string
      · subst ht
        exact .noString hkind hv
      · simpa [ht] using Argument.Reads.noLiteral hkind ht hv

theorem operand_fits {a : Argument} {shape : Shape} {o : Operand} (hfits : a.kind.fits shape = true)
    (h : a.operand = .ok o) : o.fits shape = true := by
  have hreads := reads_operand a
  rw [h] at hreads
  cases hreads with
  | var hkind =>
    rw [hkind] at hfits
    cases shape with
    | var | symb => rfl
    | _ => cases hfits
  | label hkind =>
    rw [hkind] at hfits
    cases shape with
    | label => rfl
    | _ => cases hfits
  | type hkind =>
    rw [hkind] at hfits
    cases shape with
    | type => rfl
    | _ => cases hfits
  | literal hkind =>
    rw [hkind] at hfits
    cases shape with
    | symb => rfl
    | _ => cases hfits

theorem operand_defect {a : Argument} {d : Defect} (h : a.operand = .error d) :
    (Instruction.faultOfDefect d).category = .structural ∨
      a.kind = .literal .string ∧ d = .invalidEscape a.text := by
  have hreads := reads_operand a
  rw [h] at hreads
  cases hreads with
  | noString hkind => exact Or.inr ⟨hkind, rfl⟩
  | _ => exact Or.inl rfl

/-! ## Shapes -/

theorem misfit_eq_none_iff {op : Opcode} {p : Nat} {as : List Argument} {shapes : List Shape}
    (hlength : as.length = shapes.length) :
    Instruction.misfit? op p as shapes = none ↔
      List.Forall₂ (fun a shape => a.kind.fits shape = true) as shapes := by
  induction as generalizing p shapes with
  | nil =>
    obtain rfl := List.length_eq_zero_iff.mp hlength.symm
    simp [Instruction.misfit?]
  | cons a as ih =>
    cases shapes with
    | nil => cases hlength
    | cons shape shapes =>
      rw [Instruction.misfit?, List.forall₂_cons]
      by_cases hfits : a.kind.fits shape = true
      · rw [if_pos hfits, ih (Nat.succ.inj hlength)]
        simp [hfits]
      · rw [if_neg hfits]
        simp [hfits]

theorem misfit_category {op : Opcode} {p : Nat} {as : List Argument} {shapes : List Shape} {f : Fault}
    (h : Instruction.misfit? op p as shapes = some f) : f.category = .structural := by
  induction as generalizing p shapes with
  | nil => cases h
  | cons a as ih =>
    cases shapes with
    | nil => cases h
    | cons shape shapes =>
      rw [Instruction.misfit?] at h
      split at h
      · exact ih h
      · obtain rfl := Option.some.inj h
        rfl

theorem checkShapes_ok_iff {i : Instruction} :
    i.checkShapes = .ok () ↔
      List.Forall₂ (fun a shape => a.kind.fits shape = true) i.arguments i.opcode.shapes := by
  unfold Instruction.checkShapes
  by_cases hlength : i.arguments.length = i.opcode.arity
  · rw [if_neg (by simpa using hlength), ← @misfit_eq_none_iff i.opcode 0 _ _ hlength]
    cases Instruction.misfit? i.opcode 0 i.arguments i.opcode.shapes with
    | none => simp
    | some f => simp
  · rw [if_pos hlength]
    simp only [reduceCtorEq, false_iff]
    intro h
    exact hlength h.length_eq

theorem checkShapes_category {i : Instruction} {f : Fault} (h : i.checkShapes = .error f) :
    f.category = .structural := by
  unfold Instruction.checkShapes at h
  split at h
  · obtain rfl := Except.error.inj h
    rfl
  · split at h
    · rename_i g hg
      obtain rfl := Except.error.inj h
      exact misfit_category hg
    · cases h

/-! ## Lists of operands -/

theorem readOperands_forall {as : List Argument} {os : List Operand}
    (h : Instruction.readOperands as = .ok os) : List.Forall₂ (fun a o => a.operand = .ok o) as os := by
  induction as generalizing os with
  | nil =>
    obtain rfl := Except.ok.inj h
    exact List.Forall₂.nil
  | cons a as ih =>
    rw [Instruction.readOperands] at h
    split at h
    · cases h
    · rename_i o ho
      cases hrest : Instruction.readOperands as with
      | error f => rw [hrest] at h; cases h
      | ok rest =>
        rw [hrest] at h
        obtain rfl := Except.ok.inj h
        exact List.Forall₂.cons ho (ih hrest)

theorem readOperands_fits {as : List Argument} {shapes : List Shape} {os : List Operand}
    (hfits : List.Forall₂ (fun a shape => a.kind.fits shape = true) as shapes)
    (h : Instruction.readOperands as = .ok os) : OperandsFit os shapes := by
  have hos := readOperands_forall h
  clear h
  induction hfits generalizing os with
  | nil =>
    cases hos
    exact List.Forall₂.nil
  | cons ha _ ih =>
    cases hos with
    | cons ho hrest => exact List.Forall₂.cons (operand_fits ha ho) (ih hrest)

theorem exists_of_mem_forall₂ {α β : Type} {R : α → β → Prop} {as : List α} {bs : List β}
    (h : List.Forall₂ R as bs) {a : α} (ha : a ∈ as) : ∃ b ∈ bs, R a b := by
  induction h with
  | nil => cases ha
  | @cons x b xs bs hb _ ih =>
    rcases List.mem_cons.mp ha with rfl | ha
    · exact ⟨b, List.mem_cons_self .., hb⟩
    · obtain ⟨c, hc, hr⟩ := ih ha
      exact ⟨c, List.mem_cons_of_mem _ hc, hr⟩

theorem readOperands_error {as : List Argument} {f : Fault} (h : Instruction.readOperands as = .error f) :
    ∃ a ∈ as, ∃ d, a.operand = .error d ∧ f = Instruction.faultOfDefect d := by
  induction as with
  | nil => cases h
  | cons a as ih =>
    rw [Instruction.readOperands] at h
    split at h
    · rename_i d hd
      exact ⟨a, List.mem_cons_self .., d, hd, (Except.error.inj h).symm⟩
    · cases hrest : Instruction.readOperands as with
      | error g =>
        rw [hrest] at h
        obtain ⟨b, hb, hd⟩ := ih (by rw [hrest]; exact h)
        exact ⟨b, List.mem_cons_of_mem _ hb, hd⟩
      | ok rest => rw [hrest] at h; cases h

/-! ## Operations -/

section
variable {os : List Operand}

theorem nullary_of_fits {op : Operation} (h : OperandsFit os []) : Operation.nullary op os = some op := by
  cases h
  rfl

theorem var_of_fits {o : Operand} (h : o.fits .var = true) : ∃ x, o = .var x := by
  cases o with
  | var x => exact ⟨x, rfl⟩
  | _ => cases h

theorem label_of_fits {o : Operand} (h : o.fits .label = true) : ∃ name, o = .label name := by
  cases o with
  | label name => exact ⟨name, rfl⟩
  | _ => cases h

theorem type_of_fits {o : Operand} (h : o.fits .type = true) : ∃ t, o = .type t := by
  cases o with
  | type t => exact ⟨t, rfl⟩
  | _ => cases h

theorem symbol_of_fits {o : Operand} (h : o.fits .symb = true) : ∃ a, o.symbol? = some a := by
  cases o with
  | var x => exact ⟨.var x, rfl⟩
  | literal v => exact ⟨.literal v, rfl⟩
  | _ => cases h

theorem onVariable_of_fits {f : Variable → Operation} (h : OperandsFit os [.var]) :
    ∃ x, Operation.onVariable f os = some (f x) := by
  rcases h with _ | ⟨h₁, ⟨⟩⟩
  obtain ⟨x, rfl⟩ := var_of_fits h₁
  exact ⟨x, rfl⟩

theorem onLabel_of_fits {f : String → Operation} (h : OperandsFit os [.label]) :
    ∃ name, Operation.onLabel f os = some (f name) := by
  rcases h with _ | ⟨h₁, ⟨⟩⟩
  obtain ⟨name, rfl⟩ := label_of_fits h₁
  exact ⟨name, rfl⟩

theorem onSymbol_of_fits {f : Symbol → Operation} (h : OperandsFit os [.symb]) :
    ∃ a, Operation.onSymbol f os = some (f a) := by
  rcases h with _ | ⟨h₁, ⟨⟩⟩
  obtain ⟨a, ha⟩ := symbol_of_fits h₁
  exact ⟨a, by simp [Operation.onSymbol, ha]⟩

theorem onVariableSymbol_of_fits {f : Variable → Symbol → Operation} (h : OperandsFit os [.var, .symb]) :
    ∃ x a, Operation.onVariableSymbol f os = some (f x a) := by
  rcases h with _ | ⟨h₁, _ | ⟨h₂, ⟨⟩⟩⟩
  obtain ⟨x, rfl⟩ := var_of_fits h₁
  obtain ⟨a, ha⟩ := symbol_of_fits h₂
  exact ⟨x, a, by simp [Operation.onVariableSymbol, ha]⟩

theorem onVariableType_of_fits {f : Variable → DataType → Operation} (h : OperandsFit os [.var, .type]) :
    ∃ x t, Operation.onVariableType f os = some (f x t) ∧ .type t ∈ os := by
  rcases h with _ | ⟨h₁, _ | ⟨h₂, ⟨⟩⟩⟩
  obtain ⟨x, rfl⟩ := var_of_fits h₁
  obtain ⟨t, rfl⟩ := type_of_fits h₂
  exact ⟨x, t, rfl, by simp⟩

theorem onVariableSymbols_of_fits {f : Variable → Symbol → Symbol → Operation}
    (h : OperandsFit os [.var, .symb, .symb]) :
    ∃ x a b, Operation.onVariableSymbols f os = some (f x a b) := by
  rcases h with _ | ⟨h₁, _ | ⟨h₂, _ | ⟨h₃, ⟨⟩⟩⟩⟩
  obtain ⟨x, rfl⟩ := var_of_fits h₁
  obtain ⟨a, ha⟩ := symbol_of_fits h₂
  obtain ⟨b, hb⟩ := symbol_of_fits h₃
  exact ⟨x, a, b, by simp [Operation.onVariableSymbols, ha, hb]⟩

theorem onLabelSymbols_of_fits {f : String → Symbol → Symbol → Operation}
    (h : OperandsFit os [.label, .symb, .symb]) :
    ∃ name a b, Operation.onLabelSymbols f os = some (f name a b) := by
  rcases h with _ | ⟨h₁, _ | ⟨h₂, _ | ⟨h₃, ⟨⟩⟩⟩⟩
  obtain ⟨name, rfl⟩ := label_of_fits h₁
  obtain ⟨a, ha⟩ := symbol_of_fits h₂
  obtain ⟨b, hb⟩ := symbol_of_fits h₃
  exact ⟨name, a, b, by simp [Operation.onLabelSymbols, ha, hb]⟩

theorem ofOperands_of_fits {op : Opcode} (h : OperandsFit os op.shapes) :
    ∃ r, Operation.ofOperands? op os = some r ∧ ∀ x t, r = .read x t → .type t ∈ os := by
  cases op with
  | createframe | pushframe | popframe | «return» | «break» => exact ⟨_, nullary_of_fits h, nofun⟩
  | defvar | pops =>
    obtain ⟨x, hx⟩ := onVariable_of_fits h
    exact ⟨_, hx, nofun⟩
  | call | label | jump =>
    obtain ⟨name, hname⟩ := onLabel_of_fits h
    exact ⟨_, hname, nofun⟩
  | pushs | write | exit | dprint =>
    obtain ⟨a, ha⟩ := onSymbol_of_fits h
    exact ⟨_, ha, nofun⟩
  | move | not | int2char | strlen | type =>
    obtain ⟨x, a, ha⟩ := onVariableSymbol_of_fits h
    exact ⟨_, ha, nofun⟩
  | read =>
    obtain ⟨x, t, ht, hmem⟩ := onVariableType_of_fits h
    refine ⟨_, ht, fun y u hread => ?_⟩
    obtain ⟨-, rfl⟩ := Operation.read.inj hread
    exact hmem
  | add | sub | mul | idiv | lt | gt | eq | and | or | stri2int | concat | getchar | setchar =>
    obtain ⟨x, a, b, hab⟩ := onVariableSymbols_of_fits h
    exact ⟨_, hab, nofun⟩
  | jumpifeq | jumpifneq =>
    obtain ⟨name, a, b, hab⟩ := onLabelSymbols_of_fits h
    exact ⟨_, hab, nofun⟩

end

/-! ## Instructions -/

/-- The ways in which reading an instruction can go. -/
inductive Instruction.Reads (i : Instruction) : Except Fault Operation → Prop
  | misfit {f : Fault} : i.checkShapes = .error f → Reads i (.error f)
  | defect {a : Argument} {d : Defect} : i.checkShapes = .ok () → a ∈ i.arguments →
      a.operand = .error d → Reads i (.error (faultOfDefect d))
  | unreadable {os : List Operand} {t : DataType} : i.checkShapes = .ok () →
      readOperands i.arguments = .ok os → .type t ∈ os → t.isReadable = false →
      Reads i (.error (.unreadableType t))
  | operation {os : List Operand} {op : Operation} : i.checkShapes = .ok () →
      readOperands i.arguments = .ok os → Operation.ofOperands? i.opcode os = some op → Reads i (.ok op)

theorem reads_operation (i : Instruction) : i.Reads i.operation := by
  unfold Instruction.operation
  cases hshapes : i.checkShapes with
  | error f => exact .misfit hshapes
  | ok u =>
    cases hos : Instruction.readOperands i.arguments with
    | error f =>
      obtain ⟨a, ha, d, hd, rfl⟩ := readOperands_error hos
      exact .defect hshapes ha hd
    | ok os =>
      obtain ⟨op, hop, hread⟩ := ofOperands_of_fits (readOperands_fits (checkShapes_ok_iff.mp hshapes) hos)
      simp only [hop, bind, Except.bind]
      cases op with
      | read x t =>
        cases ht : t.isReadable with
        | true =>
          simp only [requireReadable, ht]
          exact .operation hshapes hos hop
        | false =>
          simp only [requireReadable, ht]
          exact .unreadable hshapes hos (hread x t rfl) ht
      | _ => exact .operation hshapes hos hop

theorem operation_fault {i : Instruction} {f : Fault} (h : i.operation = .error f) :
    f.category = .structural ∨
      ∃ a ∈ i.arguments, a.kind = .literal .string ∧ f = .invalidEscape a.text := by
  have hreads := reads_operation i
  rw [h] at hreads
  cases hreads with
  | misfit hshapes => exact Or.inl (checkShapes_category hshapes)
  | defect _ ha hd =>
    rcases operand_defect hd with hcategory | ⟨hkind, rfl⟩
    · exact Or.inl hcategory
    · exact Or.inr ⟨_, ha, hkind, rfl⟩
  | unreadable => exact Or.inl rfl

theorem labelName_fault {i : Instruction} {f : Fault} (hop : i.opcode = .label)
    (h : Labels.labelName i = .error f) : i.operation = .error f := by
  have hreads := reads_operation i
  unfold Labels.labelName at h
  cases ho : i.operation with
  | error g =>
    rw [ho] at h
    exact congrArg _ (Except.error.inj h)
  | ok op =>
    rw [ho] at h hreads
    cases hreads with
    | @operation os _ hshapes hos hsome =>
      have hfits := readOperands_fits (checkShapes_ok_iff.mp hshapes) hos
      rw [hop] at hfits hsome
      obtain ⟨name, hname⟩ := @onLabel_of_fits _ Operation.label hfits
      obtain rfl := Option.some.inj (hname.symm.trans hsome)
      cases h

/-! ## Written instructions -/

/-- A string literal with an escape that may not be written. -/
def Argument.Forbidden (a : Argument) : Prop :=
  a.kind = .literal .string ∧ Literal.HasForbiddenEscape a.text.toList

theorem operand_of_written {a : Argument} {d : Defect} (ha : a.Written) (h : a.operand = .error d) :
    a.Forbidden ∧ d = .invalidEscape a.text := by
  have hreads := reads_operand a
  rw [h] at hreads
  obtain ⟨p, kind, text⟩ := a
  cases hreads with
  | noVariable hkind hx =>
    obtain rfl : kind = .var := hkind
    obtain ⟨x, htext, hname⟩ := ha
    rw [htext, variable_ofText (ne_empty_of_isName hname)] at hx
    cases hx
  | noLabel hkind htext =>
    obtain rfl : kind = .label := hkind
    exact absurd htext (ne_empty_of_isName ha)
  | noType hkind ht =>
    obtain rfl : kind = .type := hkind
    obtain ⟨t, hsome, -⟩ := readable_of_mem ha
    rw [hsome] at ht
    cases ht
  | noString hkind hnone =>
    obtain rfl : kind = .literal .string := hkind
    obtain ⟨-, hescapes⟩ : Text.Plain text.toList ∧ Literal.EscapesWritten text.toList := ha
    have hdecode : Literal.decodeChars text.toList = none := by
      simpa [Value.ofPayload?, Literal.decode?] using hnone
    exact ⟨⟨rfl, (Literal.decodeChars_eq_none_iff hescapes).mp hdecode⟩, rfl⟩
  | @noLiteral t hkind ht hnone =>
    obtain rfl : kind = .literal t := hkind
    have haccepts := (written_literal_iff.mp ha).2
    rw [Source.acceptsPayload, if_neg ht, hnone] at haccepts
    cases haccepts

theorem readable_of_written {a : Argument} {t : DataType} (ha : a.Written) (h : a.operand = .ok (.type t)) :
    t.isReadable = true := by
  have hreads := reads_operand a
  rw [h] at hreads
  obtain ⟨p, kind, text⟩ := a
  cases hreads with
  | type hkind ht =>
    obtain rfl : kind = .type := hkind
    obtain ⟨u, hu, hreadable⟩ := readable_of_mem ha
    rw [Option.some.inj (ht.symm.trans hu)]
    exact hreadable

theorem operation_of_written {i : Instruction} {f : Fault} (hi : i.Written) (h : i.operation = .error f) :
    ∃ a ∈ i.arguments, a.Forbidden ∧ f = .invalidEscape a.text := by
  have hreads := reads_operation i
  rw [h] at hreads
  cases hreads with
  | misfit hshapes =>
    rw [checkShapes_ok_iff.mpr hi.fits] at hshapes
    cases hshapes
  | defect _ ha hd =>
    obtain ⟨hforbidden, rfl⟩ := operand_of_written (hi.argument ha) hd
    exact ⟨_, ha, hforbidden, rfl⟩
  | unreadable _ hos hmem hreadable =>
    obtain ⟨a, ha, hoperand⟩ := exists_of_mem_forall₂ (readOperands_forall hos).flip hmem
    rw [readable_of_written (hi.argument ha) hoperand] at hreadable
    cases hreadable

theorem operation_of_forbidden {i : Instruction} (hi : i.Written) {a : Argument} (ha : a ∈ i.arguments)
    (hforbidden : a.Forbidden) : ∃ f, i.operation = .error f := by
  have hreads := reads_operation i
  cases ho : i.operation with
  | error f => exact ⟨f, rfl⟩
  | ok op =>
    rw [ho] at hreads
    cases hreads with
    | operation _ hos _ =>
      obtain ⟨o, -, hoperand⟩ := exists_of_mem_forall₂ (readOperands_forall hos) ha
      obtain ⟨p, kind, text⟩ := a
      obtain ⟨hkind, hescape⟩ := hforbidden
      obtain rfl : kind = .literal .string := hkind
      obtain ⟨-, hwritten⟩ : Text.Plain text.toList ∧ Literal.EscapesWritten text.toList := hi.argument ha
      simp only [Argument.operand, Value.ofPayload?, Literal.decode?,
        (Literal.decodeChars_eq_none_iff hwritten).mpr hescape] at hoperand
      cases hoperand

theorem labelName_of_written {i : Instruction} (hi : i.Written) (hop : i.opcode = .label) :
    ∃ name, Labels.labelName i = .ok name := by
  cases h : Labels.labelName i with
  | ok name => exact ⟨name, rfl⟩
  | error f =>
    obtain ⟨a, ha, ⟨hkind, -⟩, -⟩ := operation_of_written hi (labelName_fault hop h)
    have hfits := hi.fits
    rw [hop] at hfits
    generalize i.arguments = as at ha hfits
    rcases hfits with _ | ⟨hlabel, ⟨⟩⟩
    rw [← List.mem_singleton.mp ha, hkind] at hlabel
    cases hlabel

end FrameMachine
