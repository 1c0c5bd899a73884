import FrameMachine.Proofs.Dispatch
import FrameMachine.Proofs.History
import FrameMachine.Proofs.Lockstep
import FrameMachine.Proofs.TextLines
import FrameMachine.Proofs.Visibility

/-!
# Lines of the input

A `READ` that succeeds takes one line and nothing else takes any (`execute_reads`, `execute_input`), so at every
moment of a run the lines that are left are those after as many as there have been such `READ`s (`lines_after`),
and each of them stores the value of its own line (`reads_store_lines`). A run looks at no more lines than it takes
steps (`Program.run_of_lines`), so what holds of all inputs holds of one that never ends.
-/

namespace FrameMachine

namespace Input

/-! ## Values of lines -/

/-- The value that is stored for a line, `nil` if there is no text or the text denotes no value of the type. -/
def valueOf (t : DataType) : Option String → Value
  | none => .nil
  | some line =>
    let trimmed := Text.trim line.toList
    match t with
    | .string => .string line
    | .int => (Literal.integer? (String.ofList trimmed)).elim .nil .int
    | .float => (Literal.real? (String.ofList trimmed)).elim .nil .float
    | .bool => .bool (decide (trimmed.map Char.toLower = "true".toList))
    | .nil => .nil

theorem type_valueOf (t : DataType) (line : Option String) :
    (valueOf t line).type = t ∨ valueOf t line = .nil := by
  cases line with
  | none => exact Or.inr rfl
  | some line =>
    cases t with
    | string | bool => exact Or.inl rfl
    | nil => exact Or.inr rfl
    | int =>
      simp only [valueOf]
      cases Literal.integer? (String.ofList (Text.trim line.toList)) with
      | none => exact Or.inr rfl
      | some n => exact Or.inl rfl
    | float =>
      simp only [valueOf]
      cases Literal.real? (String.ofList (Text.trim line.toList)) with
      | none => exact Or.inr rfl
      | some x => exact Or.inl rfl

theorem parse_getD (t : DataType) (line : String) : (parse t line).getD .nil = valueOf t (some line) := by
  cases t with
  | string | nil => rfl
  | int =>
    simp only [parse, valueOf]
    cases Literal.integer? (String.ofList (Text.trim line.toList)) <;> rfl
  | float =>
    simp only [parse, valueOf]
    cases Literal.real? (String.ofList (Text.trim line.toList)) <;> rfl
  | bool =>
    have htrue : "true".toList.map Char.toLower = "true".toList := rfl
    simp only [parse, valueOf, Text.sameLetters, htrue, String.toList_ofList, beq_eq_decide]
    rfl

section
variable {t : DataType} (ht : t.isReadable = true) (input : Input)
include ht

theorem read_value : (input.read t).1.getD .nil = valueOf t input.lines.head?.join := by
  unfold read
  rw [if_pos ht]
  cases input.lines with
  | nil => rfl
  | cons l ls =>
    cases l with
    | none => rfl
    | some line => exact parse_getD t line

theorem read_rest : (input.read t).2.lines = input.lines.tail := by
  unfold read
  rw [if_pos ht]
  cases hlines : input.lines with
  | nil => exact hlines
  | cons l ls => rfl

end

section
variable {input input' : Input} {k : Nat} (h : input'.lines.take (k + 1) = input.lines.take (k + 1))
include h

theorem take_lines_of_succ : input'.lines.take k = input.lines.take k := by
  simpa [List.take_take] using congrArg (List.take k) h

theorem read_of_lines (t : DataType) :
    (input'.read t).1 = (input.read t).1 ∧ (input'.read t).2.lines.take k = (input.read t).2.lines.take k := by
  unfold read
  split
  · cases hi : input.lines with
    | nil =>
      have hi' : input'.lines = [] := by simpa [hi] using h
      simp [hi, hi']
    | cons l ls =>
      cases hi' : input'.lines with
      | nil => simp [hi, hi'] at h
      | cons l' ls' =>
        rw [hi, hi', List.take_succ_cons, List.take_succ_cons] at h
        obtain ⟨rfl, hls⟩ := List.cons.inj h
        exact ⟨rfl, hls⟩
  · exact ⟨rfl, take_lines_of_succ h⟩

end

end Input

/-! ## Steps -/

theorem readable_of_operation {i : Instruction} {x : Variable} {t : DataType}
    (h : i.operation = .ok (.read x t)) : t.isReadable = true := by
  obtain ⟨_, -, h⟩ := ok_of_bind h
  obtain ⟨os, -, h⟩ := ok_of_bind h
  split at h
  · rename_i y u hread
    obtain ⟨u', hu, h⟩ := ok_of_bind h
    unfold requireReadable at hu
    split at hu
    · cases hu
      cases h
      assumption
    · cases hu
  · rename_i op hother hop
    cases h
    exact absurd rfl (hother x t)
  · cases h

theorem Operation.Yields.input {p : Program} {i : Instruction} {m : Machine} {op : Operation} {e : Effect}
    (h : op.Yields p i m e) (hop : op.opcode ≠ .read) : (e.apply m).input = m.input := by
  cases h with
  | read => exact absurd rfl hop
  | _ => rfl

namespace Machine

/-- The next instruction is a `READ` that succeeds. -/
def reads (p : Program) (m : Machine) : Bool :=
  (p.get? m.pc).any (·.opcode = .read) && (m.execute p 1).2.isNone

section
variable {p : Program} {m : Machine} (hm : m.Collected p)
include hm

theorem execute_reads (h : m.reads p = true) :
    ∃ i x t, p.get? m.pc = some i ∧ i.operation = .ok (.read x t) ∧
      m.frames.assign x (Input.valueOf t m.input.lines.head?.join) = .ok (m.execute p 1).1.frames ∧
      (m.execute p 1).1.input.lines = m.input.lines.tail := by
  obtain ⟨hany, hnone⟩ := Bool.and_eq_true_iff.mp h
  obtain ⟨i, hi, hread⟩ := (Option.any_eq_true _ _).mp hany
  have hread : i.opcode = .read := of_decide_eq_true hread
  have hnone := Option.isNone_iff_eq_none.mp hnone
  obtain ⟨labels, hcollect⟩ := collect_of_execute hnone
  rw [execute_one hm hcollect] at hnone ⊢
  obtain ⟨op, e, hop, hyields, hnext⟩ := step_yields hi (by rw [hread]; nofun) hnone
  obtain ⟨x, t, rfl⟩ := read_of_operation hop hread
  have ht := readable_of_operation hop
  cases hyields with
  | read _ hassign =>
    refine ⟨i, x, t, hi, hop, ?_, ?_⟩
    · rw [hnext, ← Input.read_value ht]
      exact hassign
    · rw [hnext]
      exact Input.read_rest ht m.input

theorem execute_input (h : m.reads p = false) : (m.execute p 1).1.input = m.input := by
  cases hcollect : Labels.collect p with
  | error f => rw [execute_of_error hcollect]
  | ok labels =>
    have hone := execute_one hm hcollect
    have hstep := step_cases p m
    rw [hone]
    generalize hresult : m.step p = result at hstep
    obtain ⟨next, o⟩ := result
    cases hstep with
    | complete | fault | refused | exit => rfl
    | @next i e hi he =>
      rcases yields_of_instruction he with ⟨-, rfl⟩ | ⟨op, -, hopcode, hyields⟩
      · rfl
      · refine hyields.input ?_
        intro hread
        have hreads : m.reads p = true := by simp [reads, hi, ← hopcode, hread, hone, hresult]
        rw [hreads] at h
        cases h

end

/-! ## Runs -/

/-- The number of `READ`s that have succeeded before a moment. -/
def readsBefore (p : Program) (m : Machine) (t : Nat) : Nat :=
  (List.range t).countP fun s => (m.after p s).reads p

theorem readsBefore_succ (p : Program) (m : Machine) (t : Nat) :
    m.readsBefore p (t + 1) = m.readsBefore p t + if (m.after p t).reads p = true then 1 else 0 := by
  simp [readsBefore, List.range_succ, List.countP_append, List.countP_singleton]

theorem lines_after (p : Program) (m : Machine) (t : Nat) :
    (m.after p t).input.lines = m.input.lines.drop (m.readsBefore p t) := by
  induction t with
  | zero =>
    obtain ⟨labels, hzero⟩ := exists_after_zero p m
    rw [hzero]
    rfl
  | succ t ih =>
    rw [after, readsBefore_succ]
    have hcollected := @collected_after p m t
    by_cases hreads : (m.after p t).reads p = true
    · obtain ⟨-, -, -, -, -, -, hlines⟩ := execute_reads hcollected hreads
      rw [if_pos hreads, hlines, ih, List.tail_drop]
    · rw [if_neg hreads, execute_input hcollected (by simpa using hreads), ih]
      rfl

/-- A `READ` that succeeds after `k` others stores the value that line `k` has for its type, and no other
instruction takes a line. -/
theorem reads_store_lines (p : Program) (bytes : ByteArray) (device : Device) :
    let m := start (Input.ofBytes bytes) device
    let pieces := Text.cut 10 bytes.data.toList
    Text.IsCut 10 bytes.data.toList pieces ∧
      (∀ fuel (fuels : List Nat), ∃ t,
        fuels.foldl (fun n fuel => (n.execute p fuel).1) (m.execute p fuel).1 = m.after p t) ∧
      ∀ t,
        (m.after p t).input.lines = (pieces.map Input.textOf).drop (m.readsBefore p t) ∧
        ((m.after p t).reads p = true →
          ∃ i x ty, p.get? (m.after p t).pc = some i ∧ i.operation = .ok (.read x ty) ∧
          let v := Input.valueOf ty (pieces[m.readsBefore p t]?.bind Input.textOf)
          (v.type = ty ∨ v = .nil) ∧ (m.after p t).frames.assign x v = .ok (m.after p (t + 1)).frames ∧
            (m.after p (t + 1)).frames.lookup x = .ok (some v)) ∧
        ((m.after p t).reads p = false → (m.after p (t + 1)).input = (m.after p t).input) := by
  intro m pieces
  refine ⟨Text.isCut_cut 10 _, executions_eq_after m, ?_⟩
  intro t
  have hcollected := @collected_after p m t
  have hlines : (m.after p t).input.lines = (pieces.map Input.textOf).drop (m.readsBefore p t) := by
    rw [lines_after]
    exact congrArg _ (Input.lines_ofBytes bytes)
  refine ⟨hlines, ?_, ?_⟩
  · intro hreads
    obtain ⟨i, x, ty, hi, hop, hassign, -⟩ := execute_reads hcollected hreads
    refine ⟨i, x, ty, hi, hop, ?_⟩
    have hline : (m.after p t).input.lines.head?.join = pieces[m.readsBefore p t]?.bind Input.textOf := by
      rw [hlines, List.head?_drop, List.getElem?_map]
      cases pieces[m.readsBefore p t]? <;> rfl
    rw [hline] at hassign
    exact ⟨Input.type_valueOf ty _, hassign, Frames.lookup_of_assign hassign⟩
  · intro hreads
    exact execute_input hcollected hreads

/-! ## Lines that a run does not come to -/

def onInput (input : Input) (m : Machine) : Machine := { m with input := input }

section
variable {p : Program} {m : Machine} {input : Input} {k : Nat}

/-- But for a `READ`, the effect of an instruction is the same on every input. -/
theorem effect_onInput (h : input.lines.take (k + 1) = m.input.lines.take (k + 1)) (i : Instruction) :
    i.effect p (m.onInput input) = i.effect p m ∨
      ∃ rest rest' s, i.effect p m = .ok (.read rest s) ∧ i.effect p (m.onInput input) = .ok (.read rest' s) ∧
        rest'.lines.take k = rest.lines.take k := by
  unfold Instruction.effect
  by_cases hop : i.opcode = .label
  · simp only [hop, ite_true, true_or]
  · simp only [hop, ite_false]
    cases i.operation with
    | error f => exact Or.inl rfl
    | ok op =>
      cases op with
      | read x t =>
        obtain ⟨hvalue, hrest⟩ := Input.read_of_lines h t
        simp only [bind, Except.bind, Operation.effect, onInput, hvalue]
        cases m.frames.lookup x with
        | error f => exact Or.inl rfl
        | ok w =>
          cases m.frames.assign x ((m.input.read t).1.getD .nil) with
          | error f => exact Or.inl rfl
          | ok s => exact Or.inr ⟨_, _, s, rfl, rfl, hrest⟩
      | _ => exact Or.inl rfl

theorem apply_onInput (h : input.lines.take k = m.input.lines.take k) (e : Effect) :
    ∃ rest, e.apply (m.onInput input) = (e.apply m).onInput rest ∧
      rest.lines.take k = (e.apply m).input.lines.take k := by
  cases e with
  | read rest s => exact ⟨rest, rfl, rfl⟩
  | _ => exact ⟨input, rfl, h⟩

theorem step_onInput (h : input.lines.take (k + 1) = m.input.lines.take (k + 1)) :
    ∃ rest, (m.onInput input).step p = ((m.step p).1.onInput rest, (m.step p).2) ∧
      rest.lines.take k = (m.step p).1.input.lines.take k := by
  have hlines := Input.take_lines_of_succ h
  cases hi : p.get? m.pc with
  | none =>
    rw [step_of_end hi, @step_of_end p (m.onInput input) hi]
    exact ⟨input, rfl, hlines⟩
  | some i =>
    rw [step_of_get hi, @step_of_get p (m.onInput input) i hi]
    rcases @effect_onInput p (m.advance i) input k h i with hsame | ⟨rest, rest', s, he, he', hrest⟩
    · have hsame : i.effect p ((m.onInput input).advance i) = i.effect p (m.advance i) := hsame
      rw [hsame]
      cases i.effect p (m.advance i) with
      | error f => exact ⟨input, rfl, hlines⟩
      | ok e =>
        obtain ⟨rest, happly, hrest⟩ := @apply_onInput (m.advance i) input k hlines e
        have hrefusal : e.refusal ((m.onInput input).advance i) = e.refusal (m.advance i) := by cases e <;> rfl
        have happly : e.apply ((m.onInput input).advance i) = (e.apply (m.advance i)).onInput rest := happly
        exact ⟨rest, by simp only [settle, happly, hrefusal]; rfl, hrest⟩
    · have he' : i.effect p ((m.onInput input).advance i) = .ok (.read rest' s) := he'
      rw [he, he']
      exact ⟨rest', rfl, hrest⟩

theorem run_onInput (h : input.lines.take k = m.input.lines.take k) :
    ∃ rest, run p k (m.onInput input) = ((run p k m).1.onInput rest, (run p k m).2) := by
  induction k generalizing m input with
  | zero => exact ⟨input, rfl⟩
  | succ k ih =>
    obtain ⟨rest, hstep, hrest⟩ := @step_onInput p m input k h
    rw [run, run, hstep]
    generalize m.step p = result at hrest
    obtain ⟨next, o⟩ := result
    cases o with
    | none => exact ih hrest
    | some outcome => exact ⟨rest, rfl⟩

theorem execute_onInput (h : input.lines.take k = m.input.lines.take k) :
    ∃ rest, (m.onInput input).execute p k = ((m.execute p k).1.onInput rest, (m.execute p k).2) := by
  unfold execute
  cases Labels.collect p with
  | error f => exact ⟨input, rfl⟩
  | ok labels => exact @run_onInput p { m with labels := labels } input k h

end

/-- The first `READ` fails, the last one finds no line. -/
def readings : Program where
  instructions := [
    ⟨1, .defvar, [⟨0, .var, "GF@x"⟩]⟩,
    ⟨2, .read, [⟨0, .var, "GF@y"⟩, ⟨1, .type, "string"⟩]⟩,
    ⟨3, .read, [⟨0, .var, "GF@x"⟩, ⟨1, .type, "string"⟩]⟩,
    ⟨4, .read, [⟨0, .var, "GF@x"⟩, ⟨1, .type, "string"⟩]⟩,
    ⟨5, .read, [⟨0, .var, "GF@x"⟩, ⟨1, .type, "bool"⟩]⟩,
    ⟨6, .read, [⟨0, .var, "GF@x"⟩, ⟨1, .type, "int"⟩]⟩,
    ⟨7, .read, [⟨0, .var, "GF@x"⟩, ⟨1, .type, "int"⟩]⟩]
  ordered := by decide
  positive := by decide
  placed := by decide

/-- The lines `a`, one that is not UTF-8, ` TRUE` and `7`, which has no end. -/
def fourLines : ByteArray := ⟨#[97, 13, 10, 255, 10, 32, 84, 82, 85, 69, 10, 55]⟩

theorem readings_values :
    let m := start (Input.ofBytes fourLines) Device.reliable
    let value t := (m.after readings t).frames.lookup ⟨.gf, "x"⟩
    (m.after readings 2).input = (m.after readings 1).input ∧ value 3 = .ok (some (.string "a")) ∧
      value 4 = .ok (some .nil) ∧ value 5 = .ok (some (.bool true)) ∧ value 6 = .ok (some (.int 7)) ∧
      value 7 = .ok (some .nil) := by
  intro m value
  have hmoment := (reads_store_lines readings fourLines Device.reliable).2.2
  have hvalue : ∀ t ty, (m.after readings t).reads readings = true →
      (readings.get? (m.after readings t).pc).map Instruction.operation = some (.ok (.read ⟨.gf, "x"⟩ ty)) →
      value (t + 1) = .ok (some (Input.valueOf ty
        ((Text.cut 10 fourLines.data.toList)[m.readsBefore readings t]?.bind Input.textOf))) := by
    intro t ty hreads hnext
    obtain ⟨i, x, ty', hi, hop, -, -, hlookup⟩ := (hmoment t).2.1 hreads
    rw [hi, Option.map_some, hop] at hnext
    cases hnext
    exact hlookup
  refine ⟨(hmoment 1).2.2 ?_, (hvalue 2 .string ?_ ?_).trans ?_, (hvalue 3 .string ?_ ?_).trans ?_,
    (hvalue 4 .bool ?_ ?_).trans ?_, (hvalue 5 .int ?_ ?_).trans ?_, (hvalue 6 .int ?_ ?_).trans ?_⟩
  all_goals decide +kernel

end Machine

/-- On inputs that agree on as many lines as there are steps, runs differ in the lines that are left only. -/
theorem Program.run_of_lines (p : Program) (fuel : Nat) {input input' : Input} (device : Device)
    (h : input'.lines.take fuel = input.lines.take fuel) :
    ∃ rest, p.run fuel input' device = ((p.run fuel input device).1.onInput rest, (p.run fuel input device).2) := by
  obtain ⟨rest, hexecute⟩ := @Machine.execute_onInput p (Machine.start input device) input' fuel h
  have hstart : (Machine.start input device).onInput input' = Machine.start input' device := rfl
  rw [hstart] at hexecute
  rw [run_eq, run_eq, hexecute]
  exact ⟨rest, rfl⟩

end FrameMachine
