import FrameMachine.Proofs.Lockstep
import FrameMachine.Proofs.Positions

/-!
# Runs that end

A step goes on to the following instruction, to a label or back to a place of the call stack (`moves_step`). The
index of an instruction weighs three times as much as the following one, so the weights of the next index and of all
places to return to together fall with every step that does not go back to a label: a call trades its index for
two later ones, and a return drops the index at which it stands. A run without such steps is therefore no longer
than the weight that it starts with, and one that does not end goes back again and again.
-/

namespace FrameMachine

def Instruction.GoesTo (i : Instruction) (name : String) : Prop :=
  i.opcode ∈ [.jump, .jumpifeq, .jumpifneq, .call] ∧
    ∃ a rest, i.arguments = a :: rest ∧ a.kind = .label ∧ a.text = name

theorem goesTo_of_operation {i : Instruction} {op : Operation} {name : String} (h : i.operation = .ok op)
    (hname : op.label? = some name) (hlabel : op.opcode ≠ .label) : i.GoesTo name := by
  refine ⟨?_, label_argument h hname⟩
  rw [← opcode_of_operation h]
  cases op with
  | call | jump => simp [Operation.opcode]
  | jumpIf wanted => cases wanted <;> simp [Operation.opcode]
  | label => exact absurd rfl hlabel
  | _ => cases hname

namespace Program

/-- Every label that a jump or a call names stands after it, if there is one. -/
def Forward (p : Program) : Prop :=
  ∀ k i name, p.get? k = some i → i.GoesTo name → ∀ index l, p.get? index = some l → l.IsLabel name → k < index

/-! ## Weights -/

def weight (p : Program) (index : Nat) : Nat := Nat.pow 3 (p.length - index)

variable {p : Program}

theorem weight_pos (index : Nat) : 0 < p.weight index := Nat.pow_pos (by decide)

theorem weight_succ {index : Nat} (h : index < p.length) : p.weight index = 3 * p.weight (index + 1) := by
  have hlength : p.length - index = p.length - (index + 1) + 1 := by omega
  unfold weight
  rw [hlength]
  exact Nat.pow_succ'

theorem weight_le {index later : Nat} (h : index ≤ later) : p.weight later ≤ p.weight index :=
  Nat.pow_le_pow_right (by decide) (by omega)

end Program

namespace Machine

/-- The weight of the next index and of the places to return to. -/
def weight (p : Program) (m : Machine) : Nat := p.weight m.pc + (m.calls.map p.weight).sum

/-! ## Where a step goes -/

inductive Moves (p : Program) (m : Machine) : Machine → Prop
  | on {next : Machine} : next.pc = m.pc + 1 → next.calls = m.calls → Moves p m next
  | return {next : Machine} : m.calls = next.pc :: next.calls → Moves p m next
  | jump {i : Instruction} {name : String} {next : Machine} : p.get? m.pc = some i → i.GoesTo name →
      p.LabelAt name next.pc → next.calls = m.calls → Moves p m next
  | call {i : Instruction} {name : String} {next : Machine} : p.get? m.pc = some i → i.GoesTo name →
      p.LabelAt name next.pc → next.calls = (m.pc + 1) :: m.calls → Moves p m next

section
variable {p : Program} {t : Labels} (hcollect : Labels.collect p = .ok t) {m : Machine} (hm : m.Collected p)
include hcollect hm

theorem Collected.labelAt {name : String} {index : Nat} (h : m.labels.target name = .ok index) :
    p.LabelAt name index := by
  apply Labels.labelAt_of_find hcollect
  rw [← hm t hcollect]
  exact Labels.find_of_target h

theorem moves_step (h : (m.step p).2 = none) : p.get? m.pc ≠ none ∧ m.Moves p (m.step p).1 := by
  have hstep := step_cases p m
  rw [h] at hstep
  generalize (m.step p).1 = next at hstep
  cases hstep with
  | @next i e hi he =>
    refine ⟨by simp [hi], ?_⟩
    rcases yields_of_instruction he with ⟨-, rfl⟩ | ⟨op, hoperation, -, hyields⟩
    · exact .on rfl rfl
    · cases hyields with
      | call hindex =>
        have hgoes := goesTo_of_operation hoperation rfl (by simp [Operation.opcode])
        exact .call hi hgoes (hm.labelAt hcollect hindex) rfl
      | «return» hcalls => exact .return hcalls
      | jump hindex =>
        have hgoes := goesTo_of_operation hoperation rfl (by simp [Operation.opcode])
        exact .jump hi hgoes (hm.labelAt hcollect hindex) rfl
      | @taken wanted _ _ _ _ _ _ hindex =>
        have hgoes := goesTo_of_operation hoperation rfl (by cases wanted <;> simp [Operation.opcode])
        exact .jump hi hgoes (hm.labelAt hcollect hindex) rfl
      | _ => exact .on rfl rfl

/-- The next step is a jump or a call to a label that does not stand after it. -/
def GoesBack (p : Program) (m : Machine) : Prop :=
  ∃ i name, p.get? m.pc = some i ∧ i.GoesTo name ∧ p.LabelAt name (m.step p).1.pc ∧ (m.step p).1.pc ≤ m.pc

theorem weight_step (hforward : ¬ m.GoesBack p) (h : (m.step p).2 = none) :
    (m.step p).1.weight p < m.weight p := by
  obtain ⟨hget, hmoves⟩ := moves_step hcollect hm h
  obtain ⟨i, hi⟩ := Option.ne_none_iff_exists'.mp hget
  have hsucc := Program.weight_succ (Program.lt_of_get hi)
  have hpos := p.weight_pos (m.pc + 1)
  unfold weight
  generalize hnext : (m.step p).1 = next at hmoves
  have hlater : ∀ {j : Instruction} {name : String}, p.get? m.pc = some j → j.GoesTo name →
      p.LabelAt name next.pc → p.weight next.pc ≤ p.weight (m.pc + 1) := by
    intro j name hj hgoes hlabel
    apply Program.weight_le
    by_contra hle
    exact hforward ⟨j, name, hj, hgoes, by rwa [hnext], by rw [hnext]; omega⟩
  cases hmoves with
  | on hpc hcalls =>
    rw [hpc, hcalls]
    omega
  | «return» hcalls =>
    rw [hcalls, List.map_cons, List.sum_cons]
    omega
  | jump hj hgoes hlabel hcalls =>
    have hle := hlater hj hgoes hlabel
    rw [hcalls]
    omega
  | call hj hgoes hlabel hcalls =>
    -- Two later indices weigh at most two thirds of the index of the call.
    have hle := hlater hj hgoes hlabel
    rw [hcalls, List.map_cons, List.sum_cons]
    omega

end

/-! ## Runs -/

section
variable {p : Program} {m : Machine}

theorem execute_running_of_succ {k : Nat} {n : Machine} (h : m.execute p (k + 1) = (n, none)) :
    ∃ before, m.execute p k = (before, none) ∧ before.step p = (n, none) := by
  cases hk : m.execute p k with
  | mk before o =>
    cases o with
    | none => exact ⟨before, rfl, by rw [← execute_succ_of_none hk, h]⟩
    | some o =>
      rw [execute_succ_of_some hk] at h
      cases h

theorem steps_add_weight_le {k : Nat} {n : Machine} (h : m.execute p k = (n, none))
    (hforward : ∀ j < k, ¬ (m.execute p j).1.GoesBack p) : k + n.weight p ≤ m.weight p := by
  obtain ⟨t, hcollect⟩ := collect_of_execute (congrArg Prod.snd h)
  induction k generalizing n with
  | zero =>
    have hn : n = m.after p 0 := by rw [after, h]
    rw [hn, after_zero hcollect, Nat.zero_add]
    exact Nat.le_refl _
  | succ k ih =>
    obtain ⟨before, hbefore, hstep⟩ := execute_running_of_succ h
    have hle := ih hbefore fun j hj => hforward j (Nat.lt_succ_of_lt hj)
    have hlast : ¬ before.GoesBack p := by simpa [hbefore] using hforward k (Nat.lt_succ_self k)
    have hcollected : before.Collected p := by simpa [hbefore] using collected_execute p k m
    have hlt : n.weight p < before.weight p := by
      simpa [hstep] using weight_step hcollect hcollected hlast (by rw [hstep])
    omega

theorem exists_goesBack {k : Nat} (hk : m.weight p < k) (h : (m.execute p k).2 = none) :
    ∃ j < k, (m.execute p j).2 = none ∧ (m.execute p j).1.GoesBack p := by
  by_contra hnone
  have hrunning : ∀ j ≤ k, (m.execute p j).2 = none := by
    intro j hj
    cases hexecute : m.execute p j with
    | mk n o =>
      cases o with
      | none => rfl
      | some o =>
        rw [execute_of_ended hexecute hj] at h
        cases h
  have hle := @steps_add_weight_le p m k (m.execute p k).1 (by rw [← h]) fun j hj hback =>
    hnone ⟨j, hj, hrunning j (Nat.le_of_lt hj), hback⟩
  omega

theorem not_goesBack_of_forward (hforward : p.Forward) (m : Machine) : ¬ m.GoesBack p := by
  rintro ⟨i, name, hi, hgoes, ⟨⟨l, hl, hlabel⟩, -⟩, hle⟩
  have hlt := hforward m.pc i name hi hgoes _ l hl hlabel
  omega

theorem execute_add {k : Nat} {n : Machine} (h : m.execute p k = (n, none)) (j : Nat) :
    m.execute p (k + j) = n.execute p j := by
  obtain ⟨t, hcollect⟩ := collect_of_execute (congrArg Prod.snd h)
  have hcollected : n.Collected p := by simpa [h] using collected_execute p k m
  induction j with
  | zero =>
    rw [Nat.add_zero, h, execute_of_collected hcollected hcollect, run]
  | succ j ih =>
    cases hj : n.execute p j with
    | mk next o =>
      rw [hj] at ih
      cases o with
      | none => rw [execute_succ_of_none hj, ← Nat.add_assoc, execute_succ_of_none ih]
      | some o => rw [execute_succ_of_some hj, ← Nat.add_assoc, execute_succ_of_some ih]

end

/-- If jumps and calls only go forward, every execution ends after no more steps than its state weighs; one that
does not end goes back again and again. -/
theorem forward_programs_end (p : Program) :
    (p.Forward → ∀ m : Machine, ∃ next o, ∀ fuel, m.weight p < fuel → m.execute p fuel = (next, some o)) ∧
      (p.Forward → ∀ input device, ∃ next o, ∀ fuel, Nat.pow 3 p.length < fuel →
        p.run fuel input device = (next, some o)) ∧
      ∀ m : Machine, (∀ fuel, (m.execute p fuel).2 = none) →
        ∀ k, ∃ j, k ≤ j ∧ (m.execute p j).1.GoesBack p := by
  have hends : p.Forward → ∀ m : Machine, ∃ next o, ∀ fuel, m.weight p < fuel →
      m.execute p fuel = (next, some o) := by
    intro hforward m
    cases hexecute : m.execute p (m.weight p + 1) with
    | mk next o =>
      cases o with
      | none =>
        obtain ⟨j, -, -, hback⟩ := exists_goesBack (Nat.lt_succ_self _) (congrArg Prod.snd hexecute)
        exact absurd hback (not_goesBack_of_forward hforward _)
      | some o => exact ⟨next, o, fun fuel hfuel => execute_of_ended hexecute hfuel⟩
  refine ⟨hends, fun hforward input device => ?_, fun m hrunning k => ?_⟩
  · obtain ⟨next, o, hexecute⟩ := hends hforward (start input device)
    refine ⟨next.flushIf true, p.flushed device.flushRefusal o, fun fuel hfuel => ?_⟩
    rw [Program.run_eq, hexecute fuel hfuel]
    rfl
  · have hk : m.execute p k = ((m.execute p k).1, none) := by rw [← hrunning k]
    obtain ⟨j, -, -, hback⟩ := @exists_goesBack p (m.execute p k).1 _ (Nat.lt_succ_self _)
      (by rw [← execute_add hk]; exact hrunning _)
    exact ⟨k + j, Nat.le_add_right k j, by rwa [execute_add hk]⟩

/-- Calls a routine twice, so that the same instructions are executed again after a return. -/
def calledTwice : Program where
  instructions := [
    ⟨1, .call, [⟨0, .label, "routine"⟩]⟩,
    ⟨2, .call, [⟨0, .label, "routine"⟩]⟩,
    ⟨3, .exit, [⟨0, .literal .int, "0"⟩]⟩,
    ⟨4, .label, [⟨0, .label, "routine"⟩]⟩,
    ⟨5, .return, []⟩]
  ordered := by decide
  positive := by decide
  placed := by decide

theorem calledTwice_forward : calledTwice.Forward := by
  rintro k i name hi ⟨hop, -⟩ index l hl ⟨hlabel, -⟩
  have hk : k < 3 := by
    by_contra hge
    have hlt : k < 5 := Program.lt_of_get hi
    obtain rfl | rfl : k = 3 ∨ k = 4 := by omega
    all_goals
      obtain rfl := Option.some.inj hi
      exact absurd hop (by decide)
  have hindex : 3 ≤ index := by
    by_contra hlt
    obtain rfl | rfl | rfl : index = 0 ∨ index = 1 ∨ index = 2 := by omega
    all_goals
      obtain rfl := Option.some.inj hl
      cases hlabel
  omega

/-- Jumps to its own label without end. -/
def endless : Program where
  instructions := [⟨1, .label, [⟨0, .label, "again"⟩]⟩, ⟨2, .jump, [⟨0, .label, "again"⟩]⟩]
  ordered := by decide
  positive := by decide
  placed := by decide

theorem endless_running (m : Machine) (hm : m.labels = ⟨[("again", 0)]⟩) (hpc : m.pc ≤ 1) (fuel : Nat) :
    (run endless fuel m).2 = none := by
  induction fuel generalizing m with
  | zero => rfl
  | succ fuel ih =>
    obtain ⟨next, hstep, hlabels, hnext⟩ :
        ∃ next, m.step endless = (next, none) ∧ next.labels = ⟨[("again", 0)]⟩ ∧ next.pc ≤ 1 := by
      obtain hpc | hpc : m.pc = 0 ∨ m.pc = 1 := by omega
      · have hget : endless.get? m.pc = some ⟨1, .label, [⟨0, .label, "again"⟩]⟩ := by rw [hpc]; rfl
        exact ⟨_, step_of_get hget, hm, by simp [advance, hpc, Effect.apply]⟩
      · have hget : endless.get? m.pc = some ⟨2, .jump, [⟨0, .label, "again"⟩]⟩ := by rw [hpc]; rfl
        have hop : (Instruction.mk 2 .jump [⟨0, .label, "again"⟩]).operation = .ok (.jump "again") := by
          decide +kernel
        have htarget : m.labels.target "again" = .ok 0 := by rw [hm]; rfl
        have heffect : (Instruction.mk 2 .jump [⟨0, .label, "again"⟩]).effect endless (m.advance
            (Instruction.mk 2 .jump [⟨0, .label, "again"⟩])) = .ok (.jump 0) := by
          simp [Instruction.effect, hop, Operation.effect, advance, htarget, bind, Except.bind, pure, Except.pure]
        have hstep := step_of_get hget
        rw [heffect] at hstep
        exact ⟨_, hstep, hm, Nat.zero_le 1⟩
    rw [run, hstep]
    exact ih next hlabels hnext

theorem calledTwice_ends :
    (∀ input device, ∃ next o, ∀ fuel, 243 < fuel → calledTwice.run fuel input device = (next, some o)) ∧
      ∀ k, ∃ j, k ≤ j ∧ ((start Input.empty Device.reliable).execute endless j).1.GoesBack endless := by
  refine ⟨(forward_programs_end calledTwice).2.1 calledTwice_forward, ?_⟩
  apply (forward_programs_end endless).2.2
  intro fuel
  have hcollect : Labels.collect endless = .ok ⟨[("again", 0)]⟩ := by decide +kernel
  rw [execute, hcollect]
  exact endless_running _ rfl (by decide) fuel

end Machine

end FrameMachine
