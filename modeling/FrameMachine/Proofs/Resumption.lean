import FrameMachine.Proofs.Lockstep
import FrameMachine.Proofs.Positions

/-!
# Repeated execution

A machine can be executed again from where it stopped. `Steps` is a run that takes one step after the
other and goes on after every outcome. The instructions that any number of executions dispatch, one
execution after the other, are those of such a run (`executions_one_run`); an execution ends where an
instruction fails or exits, or at the end of the program (`Execution.Ends`).
-/

namespace FrameMachine

namespace Machine

/-- The list holds the machines that have executed an instruction, each before it did. -/
inductive Steps (p : Program) : Machine → List Machine → Machine → Prop
  | nil {m : Machine} : Steps p m [] m
  | cons {m n : Machine} {ms : List Machine} {i : Instruction} : p.get? m.pc = some i →
      Steps p (m.step p).1 ms n → Steps p m (m :: ms) n

theorem Steps.append {p : Program} {m n k : Machine} {ms ns : List Machine} (h : Steps p m ms n)
    (h' : Steps p n ns k) : Steps p m (ms ++ ns) k := by
  induction h with
  | nil => exact h'
  | cons hi _ ih => exact .cons hi (ih h')

/-! ## What an execution dispatches -/

def dispatches (p : Program) : Nat → Machine → List Machine
  | 0, _ => []
  | fuel + 1, m =>
    match p.get? m.pc, m.step p with
    | none, _ => []
    | some _, (next, none) => m :: dispatches p fuel next
    | some _, (_, some _) => [m]

end Machine

structure Execution where
  fuel : Nat
  /-- The machines that executed an instruction, each before it did. -/
  dispatched : List Machine
  next : Machine
  outcome : Option Outcome

namespace Machine

def execution (p : Program) (m : Machine) (fuel : Nat) : Execution where
  fuel := fuel
  dispatched :=
    match Labels.collect p with
    | .error _ => []
    | .ok labels => dispatches p fuel { m with labels := labels }
  next := (m.execute p fuel).1
  outcome := (m.execute p fuel).2

/-- Executions of a machine one after the other, of so many steps at most. -/
def executions (p : Program) : Machine → List Nat → List Execution
  | _, [] => []
  | m, fuel :: fuels => m.execution p fuel :: executions p (m.execute p fuel).1 fuels

end Machine

/-- How an execution ends: at the end of the program, right after the first instruction that fails or exits,
or not within the given number of steps. -/
inductive Execution.Ends (p : Program) : Execution → Prop
  | completed {fuel : Nat} {ms : List Machine} {n : Machine} : (∀ m ∈ ms, (m.step p).2 = none) →
      n.pc = p.length → Ends p ⟨fuel, ms, n, some (.ok .completed)⟩
  | failed {fuel : Nat} {ms : List Machine} {m n : Machine} {f : Failure} :
      (∀ m ∈ ms, (m.step p).2 = none) → m.step p = (n, some (.error f)) → f.index = m.pc →
      n.pc = m.pc + 1 → Ends p ⟨fuel, ms ++ [m], n, some (.error f)⟩
  | exited {fuel : Nat} {ms : List Machine} {m n : Machine} {status : Fin 10} :
      (∀ m ∈ ms, (m.step p).2 = none) → m.step p = (n, some (.ok (.exit status))) →
      n.pc = m.pc + 1 → Ends p ⟨fuel, ms ++ [m], n, some (.ok (.exit status))⟩
  | running {fuel : Nat} {ms : List Machine} {n : Machine} : (∀ m ∈ ms, (m.step p).2 = none) →
      ms.length = fuel → Ends p ⟨fuel, ms, n, none⟩

theorem Execution.Ends.cons {p : Program} {m : Machine} {e : Execution} (h : e.Ends p)
    (hm : (m.step p).2 = none) : Execution.Ends p ⟨e.fuel + 1, m :: e.dispatched, e.next, e.outcome⟩ := by
  have hcons : ∀ ms : List Machine, (∀ n ∈ ms, (n.step p).2 = none) →
      ∀ n ∈ m :: ms, (n.step p).2 = none := by
    intro ms hms
    exact List.forall_mem_cons.mpr ⟨hm, hms⟩
  cases h with
  | completed hms hpc => exact .completed (hcons _ hms) hpc
  | failed hms hlast hindex hpc => exact .failed (hcons _ hms) hlast hindex hpc
  | exited hms hlast hpc => exact .exited (hcons _ hms) hlast hpc
  | running hms hlength => exact .running (hcons _ hms) (by rw [List.length_cons, hlength])

namespace Machine

section
variable {p : Program}

theorem steps_run (fuel : Nat) (m : Machine) : Steps p m (dispatches p fuel m) (run p fuel m).1 := by
  induction fuel generalizing m with
  | zero => exact .nil
  | succ fuel ih =>
    cases hi : p.get? m.pc with
    | none =>
      simp only [dispatches, run, hi, step_of_end hi]
      exact .nil
    | some i =>
      cases hstep : m.step p with
      | mk next o =>
        have hnext : (m.step p).1 = next := by rw [hstep]
        cases o with
        | none =>
          simp only [dispatches, run, hi, hstep]
          exact .cons hi (by rw [hnext]; exact ih next)
        | some o =>
          simp only [dispatches, run, hi, hstep]
          exact .cons hi (by rw [hnext]; exact .nil)

theorem ended_step {m n : Machine} {o : Outcome} {i : Instruction} (hi : p.get? m.pc = some i)
    (h : m.step p = (n, some o)) :
    n.pc = m.pc + 1 ∧ ((∃ f, o = .error f ∧ f.index = m.pc) ∨ ∃ status, o = .ok (.exit status)) := by
  have hstep := step_cases p m
  rw [h] at hstep
  cases hstep with
  | complete hnone =>
    rw [hi] at hnone
    cases hnone
  | fault => exact ⟨rfl, Or.inl ⟨_, rfl, rfl⟩⟩
  | refused => exact ⟨rfl, Or.inl ⟨_, rfl, rfl⟩⟩
  | exit => exact ⟨rfl, Or.inr ⟨_, rfl⟩⟩

theorem Placed.pc_of_end {m : Machine} (hm : m.Placed p) (h : p.get? m.pc = none) : m.pc = p.length := by
  have hle : p.length ≤ m.pc := List.getElem?_eq_none_iff.mp h
  have hpc := hm.pc
  omega

theorem ends_run (fuel : Nat) {m : Machine} (hm : m.Placed p) :
    Execution.Ends p ⟨fuel, dispatches p fuel m, (run p fuel m).1, (run p fuel m).2⟩ := by
  induction fuel generalizing m with
  | zero => exact .running (by simp [dispatches]) rfl
  | succ fuel ih =>
    cases hi : p.get? m.pc with
    | none =>
      simp only [dispatches, run, hi, step_of_end hi]
      exact .completed (by simp) (hm.pc_of_end hi)
    | some i =>
      have hplaced := hm.step
      cases hstep : m.step p with
      | mk next o =>
        rw [hstep] at hplaced
        cases o with
        | none =>
          simp only [dispatches, run, hi, hstep]
          exact (ih hplaced).cons (by rw [hstep])
        | some o =>
          simp only [dispatches, run, hi, hstep]
          obtain ⟨hpc, ⟨f, rfl, hindex⟩ | ⟨status, rfl⟩⟩ := ended_step hi hstep
          · exact @Execution.Ends.failed p _ [] m next f (by simp) hstep hindex hpc
          · exact @Execution.Ends.exited p _ [] m next status (by simp) hstep hpc

end

/-! ## Executions one after the other -/

section
variable {p : Program} {labels : Labels} (hcollect : Labels.collect p = .ok labels)
include hcollect

theorem execution_eq (m : Machine) (fuel : Nat) :
    m.execution p fuel = ⟨fuel, dispatches p fuel { m with labels := labels },
      (run p fuel { m with labels := labels }).1, (run p fuel { m with labels := labels }).2⟩ := by
  simp only [execution, execute, hcollect]

theorem labels_execution (m : Machine) (fuel : Nat) : (m.execution p fuel).next.labels = labels :=
  collected_execute p fuel m labels hcollect

theorem ends_executions {m : Machine} (hm : m.Placed p) (fuels : List Nat) :
    ∀ e ∈ m.executions p fuels, e.next.labels = labels ∧ e.Ends p := by
  induction fuels generalizing m with
  | nil => simp [executions]
  | cons fuel fuels ih =>
    intro e he
    have hcollected : { m with labels := labels }.Placed p :=
      ⟨hm.pc, hm.current, hm.last, hm.calls, Or.inr hcollect⟩
    rcases List.mem_cons.mp he with rfl | he
    · refine ⟨labels_execution hcollect m fuel, ?_⟩
      rw [execution_eq hcollect]
      exact ends_run fuel hcollected
    · refine ih ?_ e he
      simp only [execute, hcollect]
      exact run_invariant (fun n hn => hn.step) fuel hcollected

theorem steps_executions (m : Machine) (fuels : List Nat) :
    Steps p { m with labels := labels } ((m.executions p fuels).flatMap (·.dispatched))
      { fuels.foldl (fun n fuel => (n.execute p fuel).1) m with labels := labels } := by
  induction fuels generalizing m with
  | nil => exact .nil
  | cons fuel fuels ih =>
    have hfirst := @steps_run p fuel { m with labels := labels }
    have hrest := ih (m.execute p fuel).1
    -- Collecting the labels once more leaves the machine as the execution left it.
    have hlabels : { (m.execute p fuel).1 with labels := labels } = (m.execute p fuel).1 := by
      rw [← labels_execution hcollect m fuel]
      rfl
    have hexecute : (m.execute p fuel).1 = (run p fuel { m with labels := labels }).1 := by
      simp only [execute, hcollect]
    rw [hlabels, hexecute] at hrest
    rw [executions, List.flatMap_cons, execution_eq hcollect, List.foldl_cons, hexecute]
    exact hfirst.append hrest

end

theorem executions_of_error {p : Program} {f : Failure} (hcollect : Labels.collect p = .error f) (m : Machine)
    (fuels : List Nat) :
    fuels.foldl (fun n fuel => (n.execute p fuel).1) m = m ∧
      ∀ e ∈ m.executions p fuels, e.dispatched = [] ∧ e.next = m ∧ e.outcome = some (.error f) := by
  induction fuels with
  | nil => simp [executions]
  | cons fuel fuels ih =>
    have hexecute := @execute_of_error p m f hcollect fuel
    rw [List.foldl_cons, executions, hexecute]
    refine ⟨ih.1, ?_⟩
    intro e he
    rcases List.mem_cons.mp he with rfl | he
    · simp only [execution, hcollect, hexecute, and_self]
    · exact ih.2 e he

/-- Executions one after the other make up one run, in which an instruction that fails or exits is followed by
the next one, unless labels cannot be collected. -/
theorem executions_one_run (p : Program) (input : Input) (device : Device) (fuels : List Nat) :
    let m := start input device
    let last := fuels.foldl (fun n fuel => (n.execute p fuel).1) m
    (∀ f, Labels.collect p = .error f →
      last = m ∧
        ∀ e ∈ m.executions p fuels, e.dispatched = [] ∧ e.next = m ∧ e.outcome = some (.error f)) ∧
    ∀ labels, Labels.collect p = .ok labels →
      (∀ e ∈ m.executions p fuels, e.next.labels = labels ∧ e.Ends p) ∧
      Steps p { m with labels := labels } ((m.executions p fuels).flatMap (·.dispatched))
        { last with labels := labels } := by
  intro m last
  refine ⟨?_, ?_⟩
  · intro f hcollect
    exact executions_of_error hcollect m fuels
  · intro labels hcollect
    have hm : m.Placed p := placed_of_reachable (@Reachable.start p input device)
    exact ⟨ends_executions hcollect hm fuels, steps_executions hcollect m fuels⟩

/-- Fails to pop into a variable that is not declared, exits, and writes in the end. -/
def interrupted : Program where
  instructions := [
    ⟨1, .pushs, [⟨0, .literal .int, "1"⟩]⟩,
    ⟨2, .pops, [⟨0, .var, "GF@x"⟩]⟩,
    ⟨3, .label, [⟨0, .label, "on"⟩]⟩,
    ⟨4, .exit, [⟨0, .literal .int, "3"⟩]⟩,
    ⟨5, .write, [⟨0, .literal .string, "end"⟩]⟩]
  ordered := by decide
  positive := by decide
  placed := by decide

def relabelled : Program where
  instructions := [⟨1, .write, [⟨0, .literal .int, "1"⟩]⟩, ⟨2, .label, [⟨0, .label, "on"⟩]⟩,
    ⟨3, .label, [⟨0, .label, "on"⟩]⟩]
  ordered := by decide
  positive := by decide
  placed := by decide

theorem interrupted_one_run :
    let m := start Input.empty Device.reliable
    let es := m.executions interrupted [9, 9, 9, 9]
    (es.map (·.outcome) = [some (.error ⟨1, .undeclaredVariable ⟨.gf, "x"⟩⟩), some (.ok (.exit 3)),
        some (.ok .completed), some (.ok .completed)] ∧
      (es.flatMap (·.dispatched)).map (·.pc) = [0, 1, 2, 3, 4] ∧
      ∃ last, Steps interrupted { m with labels := ⟨[("on", 2)]⟩ } (es.flatMap (·.dispatched)) last ∧
        last.output.text .out = "end") ∧
    ∀ e ∈ m.executions relabelled [9, 9],
      e.dispatched = [] ∧ e.next = m ∧ e.outcome = some (.error ⟨2, .labelRedefined "on" 1⟩) := by
  intro m es
  have hcollect : Labels.collect interrupted = .ok ⟨[("on", 2)]⟩ := by decide +kernel
  have hfails : Labels.collect relabelled = .error ⟨2, .labelRedefined "on" 1⟩ := by decide +kernel
  have hrun := (executions_one_run interrupted Input.empty Device.reliable [9, 9, 9, 9]).2 _ hcollect
  have herror := (executions_one_run relabelled Input.empty Device.reliable [9, 9]).1 _ hfails
  exact ⟨⟨by decide +kernel, by decide +kernel, _, hrun.2, by decide +kernel⟩, herror.2⟩

end Machine

end FrameMachine
