import FrameMachine.Proofs.Effect

/-!
# Steps and reachable states

A step is a function of the effect that the instruction has decided on (`step_of_get`), and `Step` lists the ways
in which it can go (`step_cases`). A run that ends does so with a step of its own (`execute_outcome`), so what
holds of all steps holds of all runs, and of the states that any number of runs can reach. The instruction with
which a run fails has changed nothing but the counters.
-/

namespace FrameMachine

/-- The effect of an instruction on the machine that is about to execute it. -/
def Instruction.effect (p : Program) (m : Machine) (i : Instruction) : Except Fault Effect :=
  if i.opcode = .label then .ok .none
  else do
    let op ← i.operation
    op.effect p i m

theorem Action.decides_execute (p : Program) (i : Instruction) (m : Machine) :
    Decides (execute p i) m (i.effect p m) := by
  unfold execute Instruction.effect
  by_cases h : i.opcode = .label
  · simp only [h, ite_true]
    rfl
  · simp only [h, ite_false]
    exact Decides.bind rfl fun op _ => decides_perform p i op m

theorem Effect.eq_exit_of_status {e : Effect} {status : Fin 10} (h : e.status = some status) :
    e = .exit status := by
  cases e with
  | exit s => exact congrArg _ (Option.some.inj h)
  | _ => cases h

theorem Effect.eq_write_of_refusal {e : Effect} {m : Machine} {reason : String}
    (h : e.refusal m = some reason) : ∃ w, e = .write w ∧ (m.output.write w).2 = some reason := by
  cases e with
  | write w => exact ⟨w, rfl, h⟩
  | _ => cases h

/-- The instruction being executed stays the one that a failure names. -/
theorem Effect.currentIndex_apply (e : Effect) (m : Machine) : (e.apply m).currentIndex = m.currentIndex := by
  cases e <;> rfl

namespace Machine

theorem currentIndex_advance (m : Machine) (i : Instruction) : (m.advance i).currentIndex = m.pc := rfl

/-! ## A step as a function of the effect -/

def settle (m : Machine) (i : Instruction) : Except Fault Effect → Machine × Option Outcome
  | .error f => (m.advance i, some (.error ⟨m.pc, f⟩))
  | .ok e =>
    (e.apply (m.advance i),
      match e.refusal (m.advance i) with
      | some reason => some (.error ⟨m.pc, .output reason⟩)
      | none => e.status.map fun status => .ok (.exit status))

theorem step_of_get {p : Program} {m : Machine} {i : Instruction} (hi : p.get? m.pc = some i) :
    m.step p = m.settle i (i.effect p (m.advance i)) := by
  have hdecides : Action.execute p i (m.advance i) = _ := Action.decides_execute p i (m.advance i)
  unfold step
  cases he : i.effect p (m.advance i) with
  | error f =>
    rw [he] at hdecides
    simp only [hi, hdecides]
    rfl
  | ok e =>
    have hrun : Action.execute p i (m.advance i) = e.run (m.advance i) := by rw [hdecides, he]; rfl
    simp only [hi, hrun, Effect.run, settle]
    cases hr : e.refusal (m.advance i) with
    | some reason => simp only [Effect.currentIndex_apply, currentIndex_advance]
    | none => cases hs : e.status <;> simp

theorem step_of_end {p : Program} {m : Machine} (h : p.get? m.pc = none) :
    m.step p = (m, some (.ok .completed)) := by
  simp only [step, h]

/-! ## Steps -/

inductive Step (p : Program) (m : Machine) : Machine → Option Outcome → Prop
  | complete : p.get? m.pc = none → Step p m m (some (.ok .completed))
  | fault {i : Instruction} {f : Fault} : p.get? m.pc = some i → i.effect p (m.advance i) = .error f →
      Step p m (m.advance i) (some (.error ⟨m.pc, f⟩))
  | refused {i : Instruction} {w : Write} {reason : String} : p.get? m.pc = some i →
      i.effect p (m.advance i) = .ok (.write w) → (m.output.write w).2 = some reason →
      Step p m { m.advance i with output := (m.output.write w).1 }
        (some (.error ⟨m.pc, .output reason⟩))
  | exit {i : Instruction} {status : Fin 10} : p.get? m.pc = some i →
      i.effect p (m.advance i) = .ok (.exit status) → Step p m (m.advance i) (some (.ok (.exit status)))
  | next {i : Instruction} {e : Effect} : p.get? m.pc = some i → i.effect p (m.advance i) = .ok e →
      e.refusal (m.advance i) = none → e.status = none → Step p m (e.apply (m.advance i)) none

theorem step_cases (p : Program) (m : Machine) : Step p m (m.step p).1 (m.step p).2 := by
  cases hi : p.get? m.pc with
  | none =>
    rw [step_of_end hi]
    exact Step.complete hi
  | some i =>
    rw [step_of_get hi]
    cases he : i.effect p (m.advance i) with
    | error f => exact Step.fault hi he
    | ok e =>
      simp only [settle]
      cases hr : e.refusal (m.advance i) with
      | some reason =>
        obtain ⟨w, rfl, hw⟩ := Effect.eq_write_of_refusal hr
        exact Step.refused hi he hw
      | none =>
        cases hs : e.status with
        | none => exact Step.next hi he hr hs
        | some status =>
          obtain rfl := Effect.eq_exit_of_status hs
          exact Step.exit hi he

/-! ## Runs -/

theorem run_invariant {p : Program} {P : Machine → Prop} (hstep : ∀ m, P m → P (m.step p).1)
    (fuel : Nat) {m : Machine} (hm : P m) : P (run p fuel m).1 := by
  induction fuel generalizing m with
  | zero => exact hm
  | succ fuel ih =>
    have hnext := hstep m hm
    rw [run]
    split
    · rename_i next h
      rw [h] at hnext
      exact ih hnext
    · rename_i next outcome h
      rw [h] at hnext
      exact hnext

theorem run_outcome {p : Program} {fuel : Nat} {m next : Machine} {o : Outcome}
    (h : run p fuel m = (next, some o)) :
    ∃ k n, run p k m = (n, none) ∧ n.step p = (next, some o) := by
  induction fuel generalizing m with
  | zero => cases h
  | succ fuel ih =>
    rw [run] at h
    split at h
    · rename_i n hn
      obtain ⟨k, n', hk, hlast⟩ := ih h
      exact ⟨k + 1, n', by rw [run, hn]; exact hk, hlast⟩
    · rename_i n outcome hn
      refine ⟨0, m, rfl, ?_⟩
      rw [hn]
      exact h

theorem execute_outcome {p : Program} {fuel : Nat} {m next : Machine} {o : Outcome}
    (h : m.execute p fuel = (next, some o)) :
    (∃ f, Labels.collect p = .error f ∧ o = .error f ∧ next = m) ∨
      ∃ k n, m.execute p k = (n, none) ∧ n.step p = (next, some o) := by
  unfold execute at h ⊢
  cases hlabels : Labels.collect p with
  | error f =>
    rw [hlabels] at h
    simp only [Prod.mk.injEq, Option.some.injEq] at h
    exact Or.inl ⟨f, rfl, h.2.symm, h.1.symm⟩
  | ok labels =>
    rw [hlabels] at h
    exact Or.inr (run_outcome h)

/-- The states of a machine on which a program has been executed any number of times, and of one in
the middle of an execution. -/
inductive Reachable (p : Program) (input : Input) (device : Device) : Machine → Prop
  | start : Reachable p input device (Machine.start input device)
  | execute {m : Machine} (fuel : Nat) : Reachable p input device m →
      Reachable p input device (m.execute p fuel).1

theorem Reachable.invariant {p : Program} {input : Input} {device : Device} {P : Machine → Prop}
    (hstart : P (Machine.start input device))
    (hlabels : ∀ m labels, Labels.collect p = .ok labels → P m → P { m with labels := labels })
    (hstep : ∀ m, P m → P (m.step p).1) {m : Machine} (hm : Reachable p input device m) : P m := by
  induction hm with
  | start => exact hstart
  | execute fuel _ ih =>
    unfold Machine.execute
    split
    · exact ih
    · rename_i labels h
      exact run_invariant hstep fuel (hlabels _ labels h ih)

/-! ## Failed instructions -/

theorem opcode_ne_label {p : Program} {m : Machine} {i : Instruction} {e : Except Fault Effect}
    (h : i.effect p m = e) (he : e ≠ .ok .none) : i.opcode ≠ .label := by
  intro hop
  rw [Instruction.effect, if_pos hop] at h
  exact he h.symm

theorem advance_of_ne_label {m : Machine} {i : Instruction} (h : i.opcode ≠ .label) :
    m.advance i =
      { m with pc := m.pc + 1, current := some m.pc, last := m.current, executed := m.executed + 1 } := by
  simp [advance, h]

theorem write_of_refused {o : Output} {w : Write} {reason : String} (h : (o.write w).2 = some reason) :
    (o.write w).1 = { o with attempts := ⟨w, false⟩ :: o.attempts } := by
  have hreason : o.device.refusal o.attempts w = some reason := h
  simp [Output.write, hreason]

/-- An instruction that fails keeps the frames, both stacks, the labels, the input and all that was
written; it may have tried one write that was refused. -/
theorem failed_instruction_unchanged (p : Program) (m next : Machine) (f : Failure) :
    (m.step p = (next, some (.error f)) →
      ∃ i attempts, p.get? m.pc = some i ∧ f.index = m.pc ∧
        next = { m with
          pc := m.pc + 1
          current := some m.pc
          last := m.current
          executed := m.executed + 1
          output := { m.output with attempts := attempts } } ∧
        (attempts = m.output.attempts ∨ ∃ w, attempts = ⟨w, false⟩ :: m.output.attempts) ∧
        next.output.writes = m.output.writes) ∧
      ∀ fuel, m.execute p fuel = (next, some (.error f)) →
        Labels.collect p = .error f ∧ next = m ∨
          ∃ k n, m.execute p k = (n, none) ∧ n.step p = (next, some (.error f)) := by
  refine ⟨fun h => ?_, fun fuel h => ?_⟩
  · have hstep := step_cases p m
    rw [h] at hstep
    cases hstep with
    | @fault i _ hi he =>
      have hadvance := @advance_of_ne_label m i (opcode_ne_label he nofun)
      exact ⟨i, m.output.attempts, hi, rfl, hadvance, Or.inl rfl, rfl⟩
    | @refused i w _ hi he hw =>
      rw [advance_of_ne_label (opcode_ne_label he nofun), write_of_refused hw]
      exact ⟨i, _, hi, rfl, rfl, Or.inr ⟨w, rfl⟩, by simp [Output.writes]⟩
  · rcases execute_outcome h with ⟨g, hcollect, hg, rfl⟩ | hlast
    · obtain rfl := Except.error.inj hg
      exact Or.inl ⟨hcollect, rfl⟩
    · exact Or.inr hlast

/-- Pushes a value and pops it into a variable that is not declared. -/
def pushThenPop : Program where
  instructions := [⟨1, .pushs, [⟨0, .literal .int, "7"⟩]⟩, ⟨2, .pops, [⟨0, .var, "GF@x"⟩]⟩]
  ordered := by decide
  positive := by decide
  placed := by decide

theorem failed_pop_keeps_value :
    let m := ((start Input.empty Device.reliable).execute pushThenPop 1).1
    let r := m.step pushThenPop
    r.2 = some (.error ⟨1, .undeclaredVariable ⟨.gf, "x"⟩⟩) ∧ m.values = [.int 7] ∧
      r.1.values = [.int 7] := by
  intro m r
  have hr : r = (r.1, some (.error ⟨1, .undeclaredVariable ⟨.gf, "x"⟩⟩)) := rfl
  obtain ⟨i, attempts, -, -, hnext, -⟩ := (failed_instruction_unchanged pushThenPop m r.1 _).1 hr
  refine ⟨rfl, rfl, ?_⟩
  rw [hnext]
  rfl

end Machine

end FrameMachine
