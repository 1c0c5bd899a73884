import FrameMachine.Proofs.Dispatch
import FrameMachine.Proofs.History
import Mathlib.Tactic.IntervalCases

/-!
# The discipline of the two stacks

An instruction leaves each stack alone, puts one entry on it or takes one off (`calls_step`,
`values_step`). The first moment at which a stack is as low again as before an entry was put on it is
therefore the one at which that entry is taken off (`first_return`): a `RETURN` goes back to the place
of its `CALL`, and a `POPS` stores what the `PUSHS` had read.
-/

namespace FrameMachine

/-! ## Sequences of stacks -/

/-- One entry at most is put on a stack or taken off. -/
inductive Shifts {α : Type} : List α → List α → Prop
  | keep {l : List α} : Shifts l l
  | push {l : List α} (x : α) : Shifts l (x :: l)
  | pop {l : List α} (x : α) : Shifts (x :: l) l

section
variable {α : Type} {l next above base : List α} {x : α}

theorem Shifts.entry_stays (h : Shifts l next) (hl : l = above ++ x :: base)
    (hlength : next.length ≠ base.length) : ∃ above', next = above' ++ x :: base := by
  cases h with
  | keep => exact ⟨above, hl⟩
  | push y => exact ⟨y :: above, by rw [hl]; rfl⟩
  | pop y =>
    cases above with
    | nil =>
      obtain ⟨-, rfl⟩ := List.cons.inj hl
      exact absurd rfl hlength
    | cons z above => exact ⟨above, (List.cons.inj hl).2⟩

theorem Shifts.entry_taken (h : Shifts l next) (hl : l = above ++ x :: base)
    (hlength : next.length = base.length) : l = x :: base ∧ next = base := by
  have hheight := congrArg List.length hl
  rw [List.length_append, List.length_cons] at hheight
  cases h with
  | keep => omega
  | push y =>
    rw [List.length_cons] at hlength
    omega
  | pop y =>
    rw [List.length_cons] at hheight
    obtain rfl : above = [] := List.length_eq_zero_iff.mp (by omega)
    obtain ⟨rfl, rfl⟩ := List.cons.inj hl
    exact ⟨rfl, rfl⟩

variable {s : Nat → List α} (hshifts : ∀ t, Shifts (s t) (s (t + 1))) (hpush : s 1 = x :: base)
include hshifts hpush

theorem entry_stays {k : Nat} (habove : ∀ j, 0 < j → j ≤ k + 1 → (s j).length ≠ base.length) :
    ∃ above, s (k + 1) = above ++ x :: base := by
  induction k with
  | zero => exact ⟨[], hpush⟩
  | succ k ih =>
    obtain ⟨above, hs⟩ := ih fun j hpos hj => habove j hpos (by omega)
    exact (hshifts (k + 1)).entry_stays hs (habove (k + 2) (by omega) (Nat.le_refl _))

theorem first_return {k : Nat} (habove : ∀ j, 0 < j → j ≤ k → (s j).length ≠ base.length)
    (hreturn : (s (k + 1)).length = base.length) : s k = x :: base ∧ s (k + 1) = base := by
  cases k with
  | zero =>
    rw [hpush, List.length_cons] at hreturn
    omega
  | succ k =>
    obtain ⟨above, hs⟩ := entry_stays hshifts hpush habove
    exact (hshifts (k + 1)).entry_taken hs hreturn

end

namespace Machine

variable {p : Program}

/-! ## Steps -/

/-- What a step does to the call stack. -/
inductive CallsStep (p : Program) (m : Machine) : Machine → Option Outcome → Prop
  | keep {next : Machine} {o : Option Outcome} : next.calls = m.calls → CallsStep p m next o
  | call {i : Instruction} {next : Machine} : p.get? m.pc = some i → i.opcode = .call →
      next.calls = (m.pc + 1) :: m.calls → CallsStep p m next none
  | return {i : Instruction} {next : Machine} : p.get? m.pc = some i → i.opcode = .return →
      m.calls = next.pc :: next.calls → CallsStep p m next none

theorem calls_step (p : Program) (m : Machine) : CallsStep p m (m.step p).1 (m.step p).2 := by
  rcases step_performs p m with hsame | ⟨i, op, e, hi, -, hop, hyields, hstep⟩
  · exact .keep hsame.calls
  · rw [hstep]
    cases hyields with
    | call => exact .call hi hop.symm rfl
    | «return» hcalls => exact .return hi hop.symm hcalls
    | _ => exact .keep rfl

/-- What a step does to the value stack. -/
inductive ValuesStep (p : Program) (m : Machine) : Machine → Option Outcome → Prop
  | keep {next : Machine} {o : Option Outcome} : next.values = m.values → ValuesStep p m next o
  | push {i : Instruction} {a : Symbol} {v : Value} {next : Machine} : p.get? m.pc = some i →
      i.opcode = .pushs → i.operation = .ok (.push a) → a.value m.frames = .ok v →
      next.values = v :: m.values → ValuesStep p m next none
  | pop {i : Instruction} {x : Variable} {v : Value} {next : Machine} : p.get? m.pc = some i →
      i.opcode = .pops → i.operation = .ok (.pop x) → m.values = v :: next.values →
      m.frames.assign x v = .ok next.frames → ValuesStep p m next none

theorem values_step (p : Program) (m : Machine) : ValuesStep p m (m.step p).1 (m.step p).2 := by
  rcases step_performs p m with hsame | ⟨i, op, e, hi, hoperation, hop, hyields, hstep⟩
  · exact .keep hsame.values
  · rw [hstep]
    cases hyields with
    | push hv => exact .push hi hop.symm hoperation hv rfl
    | pop _ hvalues hs => exact .pop hi hop.symm hoperation hvalues hs
    | _ => exact .keep rfl

theorem calls_of_call {m : Machine} {i : Instruction} (hi : p.get? m.pc = some i) (hop : i.opcode = .call)
    (h : (m.step p).2 = none) : (m.step p).1.calls = (m.pc + 1) :: m.calls := by
  obtain ⟨op, e, hoperation, hyields, hnext⟩ := step_yields hi (by simp [hop]) h
  obtain ⟨name, rfl⟩ := call_of_operation hoperation hop
  rw [hnext]
  cases hyields with
  | call hindex => rfl

theorem calls_of_return {m : Machine} {i : Instruction} (hi : p.get? m.pc = some i) (hop : i.opcode = .return)
    (h : (m.step p).2 = none) : ∃ index, m.calls = index :: (m.step p).1.calls := by
  obtain ⟨op, e, hoperation, hyields, hnext⟩ := step_yields hi (by simp [hop]) h
  obtain rfl := return_of_operation hoperation hop
  rw [hnext]
  cases hyields with
  | @«return» index rest hcalls => exact ⟨index, hcalls⟩

theorem values_of_push {m : Machine} {i : Instruction} (hi : p.get? m.pc = some i) (hop : i.opcode = .pushs)
    (h : (m.step p).2 = none) :
    ∃ a v, i.operation = .ok (.push a) ∧ a.value m.frames = .ok v ∧ (m.step p).1.values = v :: m.values := by
  obtain ⟨op, e, hoperation, hyields, hnext⟩ := step_yields hi (by simp [hop]) h
  obtain ⟨a, rfl⟩ := push_of_operation hoperation hop
  rw [hnext]
  cases hyields with
  | @push _ v hv => exact ⟨a, v, hoperation, hv, rfl⟩

theorem values_of_pop {m : Machine} {i : Instruction} (hi : p.get? m.pc = some i) (hop : i.opcode = .pops)
    (h : (m.step p).2 = none) : ∃ v, m.values = v :: (m.step p).1.values := by
  obtain ⟨op, e, hoperation, hyields, hnext⟩ := step_yields hi (by simp [hop]) h
  obtain ⟨x, rfl⟩ := pop_of_operation hoperation hop
  rw [hnext]
  cases hyields with
  | @pop _ _ v _ _ _ hvalues => exact ⟨v, hvalues⟩

theorem return_of_calls {m : Machine} {index : Nat} (h : m.calls = index :: (m.step p).1.calls) :
    ∃ r, p.get? m.pc = some r ∧ r.opcode = .return ∧ (m.step p).2 = none ∧ (m.step p).1.pc = index := by
  have hstep := calls_step p m
  generalize (m.step p).1 = next, (m.step p).2 = o at hstep h
  cases hstep with
  | keep hcalls =>
    rw [hcalls] at h
    exact absurd h.symm (List.cons_ne_self _ _)
  | call _ _ hcalls =>
    have hlength := congrArg List.length hcalls
    simp only [h, List.length_cons] at hlength
    omega
  | @«return» r _ hr hop hcalls =>
    rw [h, List.cons.injEq] at hcalls
    exact ⟨r, hr, hop, rfl, hcalls.1.symm⟩

theorem pop_of_values {m : Machine} {v : Value} (h : m.values = v :: (m.step p).1.values) :
    ∃ r x, p.get? m.pc = some r ∧ r.opcode = .pops ∧ r.operation = .ok (.pop x) ∧ (m.step p).2 = none ∧
      m.frames.assign x v = .ok (m.step p).1.frames := by
  have hstep := values_step p m
  generalize (m.step p).1 = next, (m.step p).2 = o at hstep h
  cases hstep with
  | keep hvalues =>
    rw [hvalues] at h
    exact absurd h.symm (List.cons_ne_self _ _)
  | push _ _ _ _ hvalues =>
    have hlength := congrArg List.length hvalues
    simp only [h, List.length_cons] at hlength
    omega
  | @pop r x w _ hr hop hoperation hvalues hassign =>
    rw [h, List.cons.injEq] at hvalues
    obtain ⟨rfl, -⟩ := hvalues
    exact ⟨r, x, hr, hop, hoperation, rfl, hassign⟩

/-! ## Moments -/

theorem shifts_calls {t : Labels} (hcollect : Labels.collect p = .ok t) (m : Machine) (k : Nat) :
    Shifts (m.after p k).calls (m.after p (k + 1)).calls := by
  have hstep := calls_step p (m.after p k)
  rw [after_succ hcollect]
  generalize ((m.after p k).step p).1 = next, ((m.after p k).step p).2 = o at hstep
  cases hstep with
  | keep h => rw [h]; exact .keep
  | call _ _ h => rw [h]; exact .push _
  | «return» _ _ h => rw [h]; exact .pop _

theorem shifts_values {t : Labels} (hcollect : Labels.collect p = .ok t) (m : Machine) (k : Nat) :
    Shifts (m.after p k).values (m.after p (k + 1)).values := by
  have hstep := values_step p (m.after p k)
  rw [after_succ hcollect]
  generalize ((m.after p k).step p).1 = next, ((m.after p k).step p).2 = o at hstep
  cases hstep with
  | keep h => rw [h]; exact .keep
  | push _ _ _ _ h => rw [h]; exact .push _
  | pop _ _ _ h => rw [h]; exact .pop _

/-- The moment `k + 1` is the first, of those after at least one instruction, at which a stack is as low
as it is now. -/
def FirstReturn {α : Type} (stack : Machine → List α) (p : Program) (m : Machine) (k : Nat) : Prop :=
  (stack (m.after p (k + 1))).length = (stack m).length ∧
    ∀ j, 0 < j → j ≤ k → (stack (m.after p j)).length ≠ (stack m).length

section
variable {m : Machine} {i : Instruction} (hi : p.get? m.pc = some i) (h : (m.execute p 1).2 = none)
include hi h

theorem return_of_call (hop : i.opcode = .call) {k : Nat} (hk : FirstReturn calls p m k) :
    ∃ r, p.get? (m.after p k).pc = some r ∧ r.opcode = .return ∧
      (m.after p k).execute p 1 = (m.after p (k + 1), none) ∧
      (m.after p (k + 1)).pc = m.pc + 1 ∧ (m.after p (k + 1)).calls = m.calls := by
  obtain ⟨t, hcollect⟩ := collect_of_execute h
  have hzero := after_zero hcollect m
  rw [← step_after_zero hcollect] at h
  have hfirst : (m.after p 1).calls = (m.pc + 1) :: m.calls := by
    rw [after_succ hcollect, calls_of_call (by rwa [hzero]) hop h, hzero]
  obtain ⟨hlast, hreturn⟩ := first_return (shifts_calls hcollect m) hfirst hk.2 hk.1
  have hnext := after_succ hcollect m k
  obtain ⟨r, hr, hrop, ho, hpc⟩ := return_of_calls (p := p) (by rw [← hnext, hlast, hreturn])
  refine ⟨r, hr, hrop, ?_, by rw [hnext, hpc], hreturn⟩
  rw [execute_after hcollect, hnext, ← ho]

theorem pop_of_push (hop : i.opcode = .pushs) :
    ∃ a v, i.operation = .ok (.push a) ∧ a.value m.frames = .ok v ∧ (m.after p 1).values = v :: m.values ∧
      ∀ k, FirstReturn values p m k →
        ∃ r x, p.get? (m.after p k).pc = some r ∧ r.opcode = .pops ∧ r.operation = .ok (.pop x) ∧
          (m.after p k).execute p 1 = (m.after p (k + 1), none) ∧
          (m.after p (k + 1)).values = m.values ∧
          (m.after p k).frames.assign x v = .ok (m.after p (k + 1)).frames := by
  obtain ⟨t, hcollect⟩ := collect_of_execute h
  have hzero := after_zero hcollect m
  rw [← step_after_zero hcollect] at h
  obtain ⟨a, v, hoperation, hv, hvalues⟩ := values_of_push (by rwa [hzero]) hop h
  rw [← after_succ hcollect, hzero] at hvalues
  rw [hzero] at hv
  refine ⟨a, v, hoperation, hv, hvalues, fun k hk => ?_⟩
  obtain ⟨hlast, hreturn⟩ := first_return (shifts_values hcollect m) hvalues hk.2 hk.1
  have hnext := after_succ hcollect m k
  obtain ⟨r, x, hr, hrop, hroperation, ho, hassign⟩ :=
    pop_of_values (p := p) (by rw [← hnext, hlast, hreturn])
  refine ⟨r, x, hr, hrop, hroperation, ?_, hreturn, by rw [hnext, hassign]⟩
  rw [execute_after hcollect, hnext, ← ho]

end

/-- A `CALL` is answered by the first `RETURN` that finds the call stack as low again, and a pushed value is
stored by the first such `POPS`. -/
theorem stack_discipline (p : Program) (m : Machine) :
    (∀ (fuel : Nat) (fuels : List Nat), ∃ k,
      fuels.foldl (fun n fuel => (n.execute p fuel).1) (m.execute p fuel).1 = m.after p k) ∧
    (∀ i, p.get? m.pc = some i → (m.execute p 1).2 = none → i.opcode = .call →
      ∀ k, FirstReturn calls p m k →
        ∃ r, p.get? (m.after p k).pc = some r ∧ r.opcode = .return ∧
          (m.after p k).execute p 1 = (m.after p (k + 1), none) ∧
          (m.after p (k + 1)).pc = m.pc + 1 ∧ (m.after p (k + 1)).calls = m.calls) ∧
    ∀ i, p.get? m.pc = some i → (m.execute p 1).2 = none → i.opcode = .pushs →
      ∃ a v, i.operation = .ok (.push a) ∧ a.value m.frames = .ok v ∧
        (m.after p 1).values = v :: m.values ∧
        ∀ k, FirstReturn values p m k →
          ∃ r x, p.get? (m.after p k).pc = some r ∧ r.opcode = .pops ∧ r.operation = .ok (.pop x) ∧
            (m.after p k).execute p 1 = (m.after p (k + 1), none) ∧
            (m.after p (k + 1)).values = m.values ∧
            (m.after p k).frames.assign x v = .ok (m.after p (k + 1)).frames ∧
            (m.after p (k + 1)).frames.lookup x = .ok (some v) := by
  refine ⟨executions_eq_after m, fun i hi h hop k hk => return_of_call hi h hop hk, ?_⟩
  intro i hi h hop
  obtain ⟨a, v, hoperation, hv, hvalues, hreturn⟩ := pop_of_push hi h hop
  refine ⟨a, v, hoperation, hv, hvalues, fun k hk => ?_⟩
  obtain ⟨r, x, hr, hrop, hroperation, hexecute, hback, hassign⟩ := hreturn k hk
  exact ⟨r, x, hr, hrop, hroperation, hexecute, hback, hassign, Frames.lookup_of_assign hassign⟩

/-- Pushes a variable, calls a routine that gives the variable another value and calls a second one, and
pops the variable back. -/
def nestedCalls : Program where
  instructions := [
    ⟨1, .defvar, [⟨0, .var, "GF@x"⟩]⟩,
    ⟨2, .move, [⟨0, .var, "GF@x"⟩, ⟨1, .literal .int, "1"⟩]⟩,
    ⟨3, .pushs, [⟨0, .var, "GF@x"⟩]⟩,
    ⟨4, .call, [⟨0, .label, "outer"⟩]⟩,
    ⟨5, .pops, [⟨0, .var, "GF@x"⟩]⟩,
    ⟨6, .exit, [⟨0, .literal .int, "0"⟩]⟩,
    ⟨7, .label, [⟨0, .label, "outer"⟩]⟩,
    ⟨8, .pushs, [⟨0, .literal .int, "2"⟩]⟩,
    ⟨9, .pops, [⟨0, .var, "GF@x"⟩]⟩,
    ⟨10, .call, [⟨0, .label, "inner"⟩]⟩,
    ⟨11, .return, []⟩,
    ⟨12, .label, [⟨0, .label, "inner"⟩]⟩,
    ⟨13, .return, []⟩]
  ordered := by decide
  positive := by decide
  placed := by decide

theorem nestedCalls_discipline :
    let m := ((start Input.empty Device.reliable).execute nestedCalls 3).1
    let n := ((start Input.empty Device.reliable).execute nestedCalls 2).1
    FirstReturn calls nestedCalls m 7 ∧ (m.after nestedCalls 8).pc = 4 ∧
      FirstReturn values nestedCalls n 9 ∧
      ∃ x, (n.after nestedCalls 10).frames.lookup x = .ok (some (.int 1)) := by
  intro m n
  have hcalls : FirstReturn calls nestedCalls m 7 := by
    refine ⟨by decide +kernel, fun j hpos hj => ?_⟩
    interval_cases j <;> decide +kernel
  have hvalues : FirstReturn values nestedCalls n 9 := by
    refine ⟨by decide +kernel, fun j hpos hj => ?_⟩
    interval_cases j <;> decide +kernel
  have hcall := (stack_discipline nestedCalls m).2.1 _ rfl rfl rfl 7 hcalls
  obtain ⟨r, -, -, -, hpc, -⟩ := hcall
  obtain ⟨a, v, hoperation, hv, hfirst, hpop⟩ := (stack_discipline nestedCalls n).2.2 _ rfl rfl rfl
  obtain ⟨-, x, -, -, -, -, -, -, hx⟩ := hpop 9 hvalues
  have hone : (n.after nestedCalls 1).values = [.int 1] := by decide +kernel
  rw [hone, List.cons.injEq] at hfirst
  obtain ⟨rfl, -⟩ := hfirst
  exact ⟨hcalls, hpc, hvalues, x, hx⟩

end Machine

end FrameMachine
