import FrameMachine.Proofs.Dispatch
import FrameMachine.Proofs.Faults
import FrameMachine.Proofs.History

/-!
# Machines in step

The effect that an instruction decides on depends neither on the output nor, but for the label that an operation
names, on the labels (`SameStore.effect`). So machines that differ in their output only (`SameState`) stay so step
by step, whatever their devices answer.
-/

namespace FrameMachine

theorem Output.writes_of_accepted {o : Output} {w : Write} (h : (o.write w).2 = none) :
    (o.write w).1.writes = o.writes ++ [w] := by
  have haccepted : o.device.refusal o.attempts w = none := h
  simp [Output.write, writes, haccepted]

namespace Machine

/-! ## The same contents -/

/-- The machines differ at most in their labels, in their output and in how many instructions they have
executed. -/
structure SameStore (m m' : Machine) : Prop where
  frames : m'.frames = m.frames
  calls : m'.calls = m.calls
  values : m'.values = m.values
  pc : m'.pc = m.pc
  current : m'.current = m.current
  last : m'.last = m.last
  input : m'.input = m.input

section
variable {m m' : Machine} (h : m.SameStore m')
include h

theorem SameStore.advance (i j : Instruction) : (m.advance i).SameStore (m'.advance j) := by
  refine ⟨h.frames, h.calls, h.values, ?_, ?_, h.current, h.input⟩
  · simp [Machine.advance, h.pc]
  · simp [Machine.advance, h.pc]

theorem SameStore.apply (e : Effect) : (e.apply m).SameStore (e.apply m') := by
  cases e with
  | none => exact h
  | exit => exact h
  | frames s => exact { h with frames := rfl }
  | jump index => exact { h with pc := rfl }
  | call index => exact { h with calls := by simp [Effect.apply, h.calls, h.pc], pc := rfl }
  | «return» index rest => exact { h with calls := rfl, pc := rfl }
  | push v => exact { h with values := by simp [Effect.apply, h.values] }
  | pop rest s => exact { h with values := rfl, frames := rfl }
  | read rest s => exact { h with input := rfl, frames := rfl }
  | write w => exact { h with }

/-- Only the report of a `BREAK` looks at the program, at order numbers and at the count. -/
theorem SameStore.effect (p p' : Program) {i j : Instruction} (hop : j.opcode = i.opcode) {op : Operation}
    (hne : op ≠ .break) (hlabel : ∀ name, op.label? = some name → m'.labels.find? name = m.labels.find? name) :
    op.effect p' j m' = op.effect p i m := by
  cases op with
  | «break» => exact absurd rfl hne
  | call name | jump name | jumpIf _ name =>
    simp only [Operation.effect, Labels.target, hlabel name rfl, h.frames, hop]
  | _ => simp only [Operation.effect, h.frames, h.calls, h.values, h.input]

end

/-! ## The same state but for the output -/

structure SameState (m m' : Machine) : Prop where
  frames : m'.frames = m.frames
  labels : m'.labels = m.labels
  calls : m'.calls = m.calls
  values : m'.values = m.values
  pc : m'.pc = m.pc
  current : m'.current = m.current
  last : m'.last = m.last
  executed : m'.executed = m.executed
  input : m'.input = m.input

theorem SameStore.sameState {m m' : Machine} (h : m.SameStore m') (hlabels : m'.labels = m.labels)
    (hexecuted : m'.executed = m.executed) : m.SameState m' :=
  ⟨h.frames, hlabels, h.calls, h.values, h.pc, h.current, h.last, hexecuted, h.input⟩

section
variable {m m' : Machine} (h : m.SameState m')
include h

theorem SameState.store : m.SameStore m' := ⟨h.frames, h.calls, h.values, h.pc, h.current, h.last, h.input⟩

theorem SameState.advance {i j : Instruction} (hop : j.opcode = i.opcode) :
    (m.advance i).SameState (m'.advance j) := by
  refine (h.store.advance i j).sameState h.labels ?_
  simp [Machine.advance, h.executed, hop]

theorem SameState.apply (e : Effect) : (e.apply m).SameState (e.apply m') := by
  have hexecuted : ∀ n : Machine, (e.apply n).executed = n.executed := by
    intro n
    cases e <;> rfl
  refine (h.store.apply e).sameState ?_ ?_
  · rw [Effect.labels_apply, Effect.labels_apply, h.labels]
  · rw [hexecuted, hexecuted, h.executed]

theorem SameState.report (p : Program) (order : Int) : m'.report p order = m.report p order := by
  simp only [Machine.report, currentIndex, h.frames, h.calls, h.values, h.pc, h.current, h.last, h.executed]

end

theorem SameState.effect_of_ne_break {m m' : Machine} (h : m.SameState m') (p p' : Program) {i j : Instruction}
    (hop : j.opcode = i.opcode) {op : Operation} (hne : op ≠ .break) :
    op.effect p' j m' = op.effect p i m := by
  refine h.store.effect p p' hop hne ?_
  intro name _
  rw [h.labels]

theorem SameState.effect {m m' : Machine} (h : m.SameState m') (p : Program) (i : Instruction) (op : Operation) :
    op.effect p i m' = op.effect p i m := by
  by_cases hbreak : op = .break
  · subst hbreak
    simp only [Operation.effect, h.report]
  · exact h.effect_of_ne_break p p rfl hbreak

theorem SameState.instruction_effect {m m' : Machine} (h : m.SameState m') (p : Program) (i : Instruction) :
    i.effect p m' = i.effect p m := by
  unfold Instruction.effect
  by_cases hop : i.opcode = .label
  · simp only [hop, ite_true]
  · simp only [hop, ite_false, h.effect]

/-! ## Two runs -/

section
variable {p p' : Program} {R : Machine → Machine → Prop}
  (hstep : ∀ m m', R m m' → R (m.step p).1 (m'.step p').1 ∧ (m'.step p').2 = (m.step p).2)
include hstep

/-- What relates two machines after every step relates them after a run. -/
theorem run_related (fuel : Nat) {m m' : Machine} (h : R m m') :
    R (run p fuel m).1 (run p' fuel m').1 ∧ (run p' fuel m').2 = (run p fuel m).2 := by
  induction fuel generalizing m m' with
  | zero => exact ⟨h, rfl⟩
  | succ fuel ih =>
    obtain ⟨hnext, ho⟩ := hstep m m' h
    rw [run, run]
    generalize m.step p = result, m'.step p' = result' at hnext ho
    obtain ⟨next, o⟩ := result
    obtain ⟨next', o'⟩ := result'
    obtain rfl : o' = o := ho
    cases o' with
    | none => exact ih hnext
    | some outcome => exact ⟨hnext, rfl⟩

theorem execute_related (hcollect : Labels.collect p' = Labels.collect p)
    (hlabels : ∀ m m' labels, R m m' → R { m with labels := labels } { m' with labels := labels })
    (fuel : Nat) {m m' : Machine} (h : R m m') :
    R (m.execute p fuel).1 (m'.execute p' fuel).1 ∧ (m'.execute p' fuel).2 = (m.execute p fuel).2 := by
  unfold execute
  rw [hcollect]
  cases Labels.collect p with
  | error f => exact ⟨h, rfl⟩
  | ok labels => exact run_related hstep fuel (hlabels m m' labels h)

end

end Machine

/-! ## The end of a run -/

/-- The machine whose output has been flushed once more, if the run has ended. -/
def Machine.flushIf (ended : Bool) (m : Machine) : Machine :=
  { m with output := { m.output with flushes := m.output.flushes + ended.toNat } }

namespace Program

/-- The outcome of a run after its output has been flushed, for the reason why that failed, if it did. -/
def flushed (p : Program) : Option String → Outcome → Outcome
  | some reason, .ok _ => .error ⟨p.length, .output reason⟩
  | _, outcome => outcome

theorem flushed_of_length {p p' : Program} (h : p'.length = p.length) : p'.flushed = p.flushed := by
  funext reason outcome
  cases reason <;> cases outcome <;> simp [flushed, h]

section
variable (p : Program) (fuel : Nat) (input : Input) (device : Device)

theorem run_eq :
    p.run fuel input device =
      (((Machine.start input device).execute p fuel).1.flushIf
          ((Machine.start input device).execute p fuel).2.isSome,
        ((Machine.start input device).execute p fuel).2.map (p.flushed device.flushRefusal)) := by
  have hdevice := Machine.execute_device p fuel (Machine.start input device)
  unfold run
  generalize (Machine.start input device).execute p fuel = r at hdevice
  obtain ⟨m, o⟩ := r
  cases o with
  | none => rfl
  | some outcome =>
    have hflush : m.output.device.flushRefusal = device.flushRefusal := by rw [hdevice]; rfl
    simp only [Output.flush, hflush]
    cases device.flushRefusal <;> cases outcome <;> rfl

end

end Program

end FrameMachine
