import FrameMachine.Proofs.OutputLimits
import FrameMachine.Proofs.Resumption
import FrameMachine.Proofs.Stacks
import FrameMachine.Proofs.Transparency

/-!
# What `BREAK` reports

The machine keeps a count of instructions, the position of the latest one and two stacks. `Tallies` says what
these are of the instructions that have been dispatched before. Every step keeps it (`Tallies.step`), so it
holds at every instruction of any number of executions (`Steps.tallies`), and what a `BREAK` writes is true of
the run so far.
-/

namespace FrameMachine

namespace Machine

/-! ## Tallies of the past -/

def isCounted (p : Program) (m : Machine) : Bool := (p.get? m.pc).any (·.opcode ≠ .label)

def succeeds (p : Program) (op : Opcode) (m : Machine) : Bool :=
  (p.get? m.pc).any (·.opcode = op) && (m.step p).2.isNone

/-- What the machine has kept of the instructions before, which were dispatched by the machines of the list. -/
structure Tallies (p : Program) (past : List Machine) (m : Machine) : Prop where
  executed : m.executed = past.countP (isCounted p)
  current : m.current = past.getLast?.map (·.pc)
  calls : m.calls.length + past.countP (succeeds p .return) = past.countP (succeeds p .call)
  values : m.values.length + past.countP (succeeds p .pops) = past.countP (succeeds p .pushs)

section
variable {p : Program} {m : Machine} {past : List Machine}

theorem succeeds_iff {op : Opcode} :
    m.succeeds p op = true ↔ ∃ i, p.get? m.pc = some i ∧ i.opcode = op ∧ (m.step p).2 = none := by
  unfold succeeds
  cases p.get? m.pc with
  | none => simp
  | some i => simp

theorem counters_step {i : Instruction} (hi : p.get? m.pc = some i) :
    (m.step p).1.executed = (m.advance i).executed ∧ (m.step p).1.current = some m.pc := by
  rw [step_of_get hi]
  cases i.effect p (m.advance i) with
  | error f => exact ⟨rfl, rfl⟩
  | ok e => cases e <;> exact ⟨rfl, rfl⟩

theorem balance_step {push pop : Opcode} {height height' : Nat}
    (hpush : m.succeeds p push = true → height' = height + 1)
    (hpop : m.succeeds p pop = true → height = height' + 1)
    (hkeep : m.succeeds p push ≠ true → m.succeeds p pop ≠ true → height' = height)
    (h : height + past.countP (succeeds p pop) = past.countP (succeeds p push)) :
    height' + (past ++ [m]).countP (succeeds p pop) = (past ++ [m]).countP (succeeds p push) := by
  rw [List.countP_append, List.countP_append, List.countP_singleton, List.countP_singleton]
  by_cases hpushed : m.succeeds p push = true
  · have hhigher := hpush hpushed
    by_cases hpopped : m.succeeds p pop = true
    · have hlower := hpop hpopped
      omega
    · rw [if_pos hpushed, if_neg hpopped]
      omega
  · by_cases hpopped : m.succeeds p pop = true
    · have hlower := hpop hpopped
      rw [if_neg hpushed, if_pos hpopped]
      omega
    · have hsame := hkeep hpushed hpopped
      rw [if_neg hpushed, if_neg hpopped]
      omega

theorem calls_balance
    (h : m.calls.length + past.countP (succeeds p .return) = past.countP (succeeds p .call)) :
    (m.step p).1.calls.length + (past ++ [m]).countP (succeeds p .return) =
      (past ++ [m]).countP (succeeds p .call) := by
  refine balance_step ?_ ?_ ?_ h
  · intro hcall
    obtain ⟨i, hi, hop, hnone⟩ := succeeds_iff.mp hcall
    rw [calls_of_call hi hop hnone, List.length_cons]
  · intro hreturn
    obtain ⟨i, hi, hop, hnone⟩ := succeeds_iff.mp hreturn
    obtain ⟨index, hcalls⟩ := calls_of_return hi hop hnone
    rw [hcalls, List.length_cons]
  · intro hcall hreturn
    have hstep := calls_step p m
    generalize (m.step p).1 = next, ho : (m.step p).2 = o at hstep ⊢
    cases hstep with
    | keep hcalls => rw [hcalls]
    | call hi hop => exact absurd (succeeds_iff.mpr ⟨_, hi, hop, ho⟩) hcall
    | «return» hi hop => exact absurd (succeeds_iff.mpr ⟨_, hi, hop, ho⟩) hreturn

theorem values_balance
    (h : m.values.length + past.countP (succeeds p .pops) = past.countP (succeeds p .pushs)) :
    (m.step p).1.values.length + (past ++ [m]).countP (succeeds p .pops) =
      (past ++ [m]).countP (succeeds p .pushs) := by
  refine balance_step ?_ ?_ ?_ h
  · intro hpush
    obtain ⟨i, hi, hop, hnone⟩ := succeeds_iff.mp hpush
    obtain ⟨a, v, -, -, hvalues⟩ := values_of_push hi hop hnone
    rw [hvalues, List.length_cons]
  · intro hpop
    obtain ⟨i, hi, hop, hnone⟩ := succeeds_iff.mp hpop
    obtain ⟨v, hvalues⟩ := values_of_pop hi hop hnone
    rw [hvalues, List.length_cons]
  · intro hpush hpop
    have hstep := values_step p m
    generalize (m.step p).1 = next, ho : (m.step p).2 = o at hstep ⊢
    cases hstep with
    | keep hvalues => rw [hvalues]
    | push hi hop => exact absurd (succeeds_iff.mpr ⟨_, hi, hop, ho⟩) hpush
    | pop hi hop => exact absurd (succeeds_iff.mpr ⟨_, hi, hop, ho⟩) hpop

theorem Tallies.step (h : Tallies p past m) {i : Instruction} (hi : p.get? m.pc = some i) :
    Tallies p (past ++ [m]) (m.step p).1 := by
  obtain ⟨hexecuted, hcurrent⟩ := counters_step hi
  refine ⟨?_, ?_, calls_balance h.calls, values_balance h.values⟩
  · rw [hexecuted, advance, h.executed, List.countP_append, List.countP_singleton]
    by_cases hlabel : i.opcode = .label
    · simp [isCounted, hi, hlabel]
    · simp [isCounted, hi, hlabel]
  · simp [hcurrent]

theorem Steps.tallies {ms : List Machine} {last : Machine} (h : Steps p m ms last) (hm : Tallies p past m)
    {t : Nat} {n : Machine} (hn : ms[t]? = some n) : Tallies p (past ++ ms.take t) n := by
  -- The steps are taken from the front of the list, and each is put at the end of the past.
  induction h generalizing past t with
  | nil => cases hn
  | cons hi _ ih =>
    cases t with
    | zero =>
      obtain rfl := Option.some.inj hn
      simpa using hm
    | succ t => simpa using ih (hm.step hi) hn

/-! ## What comes next -/

theorem Steps.getElem_succ {ms : List Machine} {last : Machine} (h : Steps p m ms last) {t : Nat} {n : Machine}
    (hn : ms[t]? = some n) :
    ms[t + 1]? = some (n.step p).1 ∨ ms.length = t + 1 ∧ last = (n.step p).1 := by
  induction h generalizing t with
  | nil => cases hn
  | cons hi hrest ih =>
    cases t with
    | zero =>
      obtain rfl := Option.some.inj hn
      cases hrest with
      | nil => exact Or.inr ⟨rfl, rfl⟩
      | cons => exact Or.inl rfl
    | succ t => simpa using ih hn

theorem Steps.exists_get {ms : List Machine} {last : Machine} (h : Steps p m ms last) {n : Machine}
    (hn : n ∈ ms) : ∃ i, p.get? n.pc = some i := by
  induction h with
  | nil => cases hn
  | cons hi _ ih =>
    rcases List.mem_cons.mp hn with rfl | hn
    · exact ⟨_, hi⟩
    · exact ih hn

end

/-- The instructions that executions of the given lengths dispatch, one execution after the other, each by the
machine that executes it. -/
def history (p : Program) (m : Machine) (fuels : List Nat) : List Machine :=
  (m.executions p fuels).flatMap (·.dispatched)

section
variable {p : Program} {m n : Machine} {fuels : List Nat} {t : Nat}

theorem history_append (m : Machine) (fuels more : List Nat) :
    m.history p (fuels ++ more) =
      m.history p fuels ++ (fuels.foldl (fun n fuel => (n.execute p fuel).1) m).history p more := by
  induction fuels generalizing m with
  | nil => rfl
  | cons fuel fuels ih =>
    have hrest := ih (m.execute p fuel).1
    simp only [history] at hrest
    simp [history, executions, hrest]

theorem history_of_error {f : Failure} (hcollect : Labels.collect p = .error f) (m : Machine) (fuels : List Nat) :
    m.history p fuels = [] := by
  rw [history, List.flatMap_eq_nil_iff]
  intro e he
  exact ((executions_of_error hcollect m fuels).2 e he).1

theorem getElem_history_append (hn : (m.history p fuels)[t]? = some n) (more : List Nat) :
    (m.history p (fuels ++ more))[t]? = some n := by
  obtain ⟨ht, -⟩ := List.getElem?_eq_some_iff.mp hn
  rw [history_append, List.getElem?_append_left ht, hn]

theorem dispatches_one {i : Instruction} (hi : p.get? m.pc = some i) : dispatches p 1 m = [m] := by
  cases hstep : m.step p with
  | mk next o => cases o <;> simp [dispatches, hi, hstep]

variable {labels : Labels} (hcollect : Labels.collect p = .ok labels)
include hcollect

theorem steps_history (m : Machine) (fuels : List Nat) :
    Steps p { m with labels := labels } (m.history p fuels)
      { fuels.foldl (fun n fuel => (n.execute p fuel).1) m with labels := labels } :=
  steps_executions hcollect m fuels

theorem history_one {i : Instruction} (hi : p.get? m.pc = some i) :
    m.history p [1] = [{ m with labels := labels }] := by
  have hone := @dispatches_one p { m with labels := labels } i hi
  simp [history, executions, execution_eq hcollect, hone]

theorem next_of_history (hn : (m.history p fuels)[t]? = some n) {more : List Nat} {next : Machine}
    (hnext : (m.history p (fuels ++ more))[t + 1]? = some next) :
    next = (n.step p).1 ∧ ∃ i, p.get? next.pc = some i := by
  have hsteps := steps_history hcollect m (fuels ++ more)
  refine ⟨?_, hsteps.exists_get (List.mem_of_getElem? hnext)⟩
  rcases hsteps.getElem_succ (getElem_history_append hn more) with hsucc | ⟨hlength, -⟩
  · exact Option.some.inj (hnext.symm.trans hsucc)
  · obtain ⟨ht, -⟩ := List.getElem?_eq_some_iff.mp hnext
    exact absurd hlength (Nat.ne_of_gt ht)

theorem exists_next (hn : (m.history p fuels)[t]? = some n) {i : Instruction}
    (hi : p.get? (n.step p).1.pc = some i) : ∃ more, (m.history p (fuels ++ more))[t + 1]? ≠ none := by
  rcases (steps_history hcollect m fuels).getElem_succ hn with hsucc | ⟨hlength, hlast⟩
  · refine ⟨[], ?_⟩
    rw [List.append_nil, hsucc]
    nofun
  · -- The executions so far end right after the instruction.
    refine ⟨[1], ?_⟩
    have hpc : p.get? (fuels.foldl (fun n fuel => (n.execute p fuel).1) m).pc = some i := by
      rw [← hlast] at hi
      exact hi
    rw [history_append, history_one hcollect hpc, List.getElem?_append_right (Nat.le_of_eq hlength), hlength,
      Nat.sub_self]
    nofun

end

/-! ## Reports -/

theorem step_of_break {p : Program} {n : Machine} {i : Instruction} (hi : p.get? n.pc = some i) (h : i.IsBreak) :
    (n.step p).1.output = (n.output.write ⟨.err, (n.advance i).report p i.order⟩).1 ∧
      (n.step p).1.pc = n.pc + 1 := by
  have heffect := effect_of_isBreak h p (n.advance i)
  refine ⟨(step_of_issues ⟨i, hi, heffect⟩).1, ?_⟩
  rw [step_of_get hi, heffect]
  rfl

theorem output_of_break_arguments {p : Program} {n : Machine} {i : Instruction} (hi : p.get? n.pc = some i)
    (hop : i.opcode = .break) (h : i.arguments ≠ []) : (n.step p).1.output = n.output := by
  have hlabel : i.opcode ≠ .label := by simp [hop]
  rw [step_of_get hi, Instruction.effect, if_neg hlabel]
  cases hoperation : i.operation with
  | error f => rfl
  | ok op =>
    obtain rfl := break_of_operation hoperation hop
    exact absurd (isBreak_of_operation hoperation).2 h

/-- The report of an instruction, told by those that were dispatched before and by what comes next. -/
def reportAfter (p : Program) (past : List Machine) (n : Machine) (order : Int) (next : String) : String :=
  let executed := (past ++ [n]).countP (isCounted p)
  let last := (past.getLast?.bind fun l => describe p l.pc).getD "<none>"
  let calls := Text.join ", " (n.calls.reverse.map toString)
  Text.concat [
    s!"BREAK at [{n.pc}] order {order}\n",
    s!"executed: {executed}\n",
    "last: " ++ last ++ "\n",
    "next: " ++ next ++ "\n",
    s!"call stack: [{calls}], value stack depth: {n.values.length}\n",
    n.frames.text]

theorem Tallies.report {p : Program} {n : Machine} {past : List Machine} {i : Instruction}
    (hn : Tallies p past n) (hi : p.get? n.pc = some i) (h : i.IsBreak) :
    (n.advance i).report p i.order = reportAfter p past n i.order ((describe p (n.pc + 1)).getD "<end>") := by
  have hcounted : isCounted p n = true := by simp [isCounted, hi, h.1]
  have hexecuted : (n.advance i).executed = (past ++ [n]).countP (isCounted p) := by
    simp [advance, h.1, hn.executed, hcounted]
  have hlast : (n.advance i).last.bind (describe p) = past.getLast?.bind fun l => describe p l.pc := by
    simp [advance, hn.current, Option.bind_map]
  rw [Machine.report, hexecuted, hlast]
  rfl

/-- A `BREAK` reports the instructions counted so far, the one before and the one after it in the run, and the
heights of both stacks. -/
theorem break_reports_run (p : Program) (input : Input) (device : Device) (fuels : List Nat) (t : Nat)
    (n : Machine) (i : Instruction) (hn : ((start input device).history p fuels)[t]? = some n)
    (hi : p.get? n.pc = some i) (hop : i.opcode = .break) :
    let m := start input device
    let past := (m.history p fuels).take t
    (i.arguments ≠ [] → (n.step p).1.output = n.output) ∧
    (i.arguments = [] → ∃ next,
      (n.step p).1.output = (n.output.write ⟨.err, reportAfter p past n i.order next⟩).1 ∧
      (∀ more n', (m.history p (fuels ++ more))[t + 1]? = some n' → describe p n'.pc = some next) ∧
      ((∀ more, (m.history p (fuels ++ more))[t + 1]? = none) → next = "<end>") ∧
      n.calls.length + past.countP (succeeds p .return) = past.countP (succeeds p .call) ∧
      n.values.length + past.countP (succeeds p .pops) = past.countP (succeeds p .pushs)) := by
  intro m past
  refine ⟨output_of_break_arguments hi hop, fun harguments => ?_⟩
  have hbreak : i.IsBreak := ⟨hop, harguments⟩
  cases hcollect : Labels.collect p with
  | error f =>
    rw [history_of_error hcollect] at hn
    cases hn
  | ok labels =>
    have hstart : Tallies p [] { m with labels := labels } := ⟨rfl, rfl, rfl, rfl⟩
    have htallies : Tallies p past n := (steps_history hcollect m fuels).tallies hstart hn
    obtain ⟨houtput, hpc⟩ := step_of_break hi hbreak
    rw [htallies.report hi hbreak] at houtput
    refine ⟨_, houtput, ?_, ?_, htallies.calls, htallies.values⟩
    · intro more n' hn'
      obtain ⟨rfl, j, hj⟩ := next_of_history hcollect hn hn'
      rw [hpc] at hj ⊢
      simp [describe, hj]
    · intro hnone
      cases hj : p.get? (n.pc + 1) with
      | none => simp [describe, hj]
      | some j =>
        rw [← hpc] at hj
        obtain ⟨more, hmore⟩ := exists_next hcollect hn hj
        exact absurd (hnone more) hmore

/-- Fails to pop, and reports twice in a routine. -/
def observed : Program where
  instructions := [
    ⟨1, .pushs, [⟨0, .literal .int, "1"⟩]⟩,
    ⟨2, .pops, [⟨0, .var, "GF@x"⟩]⟩,
    ⟨3, .call, [⟨0, .label, "on"⟩]⟩,
    ⟨4, .label, [⟨0, .label, "on"⟩]⟩,
    ⟨5, .break, []⟩,
    ⟨6, .break, []⟩]
  ordered := by decide
  positive := by decide
  placed := by decide

theorem observed_reports :
    let m := start Input.empty Device.reliable
    ∃ n, (m.history observed [9, 9])[4]? = some n ∧
      (n.step observed).1.output.text .err =
        "BREAK at [4] order 5\nexecuted: 4\nlast: [3] order 4: LABEL on\nnext: [5] order 6: BREAK\n" ++
          "call stack: [3], value stack depth: 1\nGF:\nLF: <none>\nTF: <none>\n" := by
  intro m
  have hn : (m.history observed [9, 9])[4]? = some (m.after observed 4) := rfl
  obtain ⟨next, houtput, hnext, -⟩ :=
    (break_reports_run observed Input.empty Device.reliable [9, 9] 4 _ _ hn rfl rfl).2 rfl
  obtain rfl : "[5] order 6: BREAK" = next := Option.some.inj (hnext [] _ rfl)
  refine ⟨_, hn, ?_⟩
  rw [houtput]
  decide +kernel

end Machine

end FrameMachine
