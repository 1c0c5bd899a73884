import FrameMachine.CommandLine
import FrameMachine.Proofs.Stages

/-!
# Where faults come from

A fault of a run is that of collecting the labels, of reading the instruction, of the state in which the
instruction is executed, or of the device (`execute_fault`). None of these is internal.
-/

namespace FrameMachine

def Fault.isDynamic : Fault → Bool
  | malformed _ | wrongArity .. | wrongOperand .. | unreadableType _ | labelRedefined .. => false
  | invalidEscape _ | output _ | internal _ => false
  | _ => true

theorem Fault.category_of_isDynamic {f : Fault} (h : f.isDynamic = true) :
    f.category ≠ .structural ∧ f.category ≠ .internal := by
  cases f with
  | malformed | wrongArity | wrongOperand | unreadableType | output | internal => cases h
  | _ => exact ⟨nofun, nofun⟩

theorem Fault.isDynamic_of_stage {f : Fault} (h : f.stage ≠ .arguments ∧ f.stage ≠ .outside) :
    f.isDynamic = true := by
  cases f with
  | malformed | wrongArity | wrongOperand | unreadableType | invalidEscape => exact absurd rfl h.1
  | labelRedefined | output | internal => exact absurd rfl h.2
  | _ => rfl

/-! ## Effects -/

theorem effect_fault {p : Program} {m : Machine} {i : Instruction} {f : Fault}
    (h : i.effect p m = .error f) : i.operation = .error f ∨ f.isDynamic = true := by
  unfold Instruction.effect at h
  split at h
  · cases h
  · cases hop : i.operation with
    | error g =>
      rw [hop] at h
      exact Or.inl (congrArg _ (Except.error.inj h))
    | ok op =>
      rw [hop] at h
      exact Or.inr (Fault.isDynamic_of_stage (Operation.fails_of_effect hop h).stage_ne)

/-! ## Labels -/

namespace Labels

theorem define_fault {t : Labels} {name : String} {k : Nat} {f : Failure}
    (h : t.define name k = .error f) : ∃ first, f = ⟨k, .labelRedefined name first⟩ := by
  rw [define_eq] at h
  split at h
  · cases h
  · rename_i first _
    split at h
    · cases h
    · exact ⟨first, (Except.error.inj h).symm⟩

theorem addAll_fault {t : Labels} {k : Nat} {is : List Instruction} {f : Failure}
    (h : t.addAll k is = .error f) :
    (∃ name first, f.fault = .labelRedefined name first) ∨
      ∃ j i, is[j]? = some i ∧ f.index = k + j ∧ i.opcode = .label ∧ labelName i = .error f.fault := by
  induction is generalizing t k with
  | nil => cases h
  | cons i is ih =>
    have hlater : ∀ t, addAll t (k + 1) is = .error f →
        (∃ name first, f.fault = .labelRedefined name first) ∨
          ∃ j i', (i :: is)[j]? = some i' ∧ f.index = k + j ∧ i'.opcode = .label ∧
            labelName i' = .error f.fault := by
      intro t ht
      rcases ih ht with hredefined | ⟨j, i', hi', hindex, hfault⟩
      · exact Or.inl hredefined
      · exact Or.inr ⟨j + 1, i', hi', by omega, hfault⟩
    rw [addAll] at h
    split at h
    · rename_i hop
      split at h
      · rename_i g hg
        obtain rfl := Except.error.inj h
        exact Or.inr ⟨0, i, rfl, rfl, hop, hg⟩
      · rename_i name _
        split at h
        · rename_i g hg
          obtain rfl := Except.error.inj h
          obtain ⟨first, rfl⟩ := define_fault hg
          exact Or.inl ⟨name, first, rfl⟩
        · exact hlater _ h
    · exact hlater _ h

theorem collect_fault {p : Program} {f : Failure} (h : collect p = .error f) :
    (∃ name first, f.fault = .labelRedefined name first) ∨
      ∃ i, p.get? f.index = some i ∧ i.opcode = .label ∧ labelName i = .error f.fault := by
  rcases addAll_fault h with hredefined | ⟨j, i, hi, hindex, hfault⟩
  · exact Or.inl hredefined
  · rw [Nat.zero_add] at hindex
    exact Or.inr ⟨i, by rw [hindex]; exact hi, hfault⟩

end Labels

/-! ## Runs -/

namespace Machine

theorem apply_device (m : Machine) (e : Effect) : (e.apply m).output.device = m.output.device := by
  cases e <;> rfl

theorem step_device (p : Program) (m : Machine) : (m.step p).1.output.device = m.output.device := by
  have hstep := step_cases p m
  generalize (m.step p).1 = next, (m.step p).2 = o at hstep ⊢
  cases hstep with
  | complete | fault | refused | exit => rfl
  | next => exact apply_device _ _

theorem execute_device (p : Program) (fuel : Nat) (m : Machine) :
    (m.execute p fuel).1.output.device = m.output.device := by
  unfold execute
  split
  · rfl
  · exact run_invariant (P := fun n => n.output.device = m.output.device)
      (fun n hn => (step_device p n).trans hn) fuel rfl

theorem step_fault {p : Program} {m next : Machine} {f : Failure} (h : m.step p = (next, some (.error f))) :
    ∃ i, p.get? m.pc = some i ∧ f.index = m.pc ∧
      (i.operation = .error f.fault ∨ f.fault.isDynamic = true ∨
        ∃ w reason, m.output.device.refusal m.output.attempts w = some reason ∧
          f.fault = .output reason) := by
  have hstep := step_cases p m
  rw [h] at hstep
  cases hstep with
  | @fault i _ hi he =>
    rcases effect_fault he with hoperation | hdynamic
    · exact ⟨i, hi, rfl, Or.inl hoperation⟩
    · exact ⟨i, hi, rfl, Or.inr (Or.inl hdynamic)⟩
  | @refused i w reason hi _ hw => exact ⟨i, hi, rfl, Or.inr (Or.inr ⟨w, reason, hw, rfl⟩)⟩

theorem execute_fault {p : Program} {fuel : Nat} {m next : Machine} {f : Failure}
    (h : m.execute p fuel = (next, some (.error f))) :
    (∃ name first, f.fault = .labelRedefined name first) ∨
      (∃ i, p.get? f.index = some i ∧ i.operation = .error f.fault) ∨ f.fault.isDynamic = true ∨
        ∃ attempts w reason, m.output.device.refusal attempts w = some reason ∧
          f.fault = .output reason := by
  rcases execute_outcome h with ⟨g, hcollect, hg, -⟩ | ⟨k, n, hn, hstep⟩
  · obtain rfl := Except.error.inj hg
    rcases Labels.collect_fault hcollect with hredefined | ⟨i, hi, hop, hname⟩
    · exact Or.inl hredefined
    · exact Or.inr (Or.inl ⟨i, hi, labelName_fault hop hname⟩)
  · have hdevice := execute_device p k m
    rw [hn] at hdevice
    obtain ⟨i, hi, hindex, hoperation | hdynamic | ⟨w, reason, hw, hfault⟩⟩ := step_fault hstep
    · exact Or.inr (Or.inl ⟨i, by rw [hindex]; exact hi, hoperation⟩)
    · exact Or.inr (Or.inr (Or.inl hdynamic))
    · rw [hdevice] at hw
      exact Or.inr (Or.inr (Or.inr ⟨_, w, reason, hw, hfault⟩))

theorem execute_category {p : Program} {fuel : Nat} {m next : Machine} {f : Failure}
    (h : m.execute p fuel = (next, some (.error f))) (hf : f.fault.category = .internal) :
    ∃ attempts w reason, m.output.device.refusal attempts w = some reason ∧ f.fault = .output reason := by
  rcases execute_fault h with ⟨name, first, hredefined⟩ | ⟨i, -, hoperation⟩ | hdynamic | hrefused
  · rw [hredefined] at hf
    cases hf
  · rcases operation_fault hoperation with hcategory | ⟨a, -, -, hescape⟩
    · rw [hcategory] at hf
      cases hf
    · rw [hescape] at hf
      cases hf
  · exact absurd hf (Fault.category_of_isDynamic hdynamic).2
  · exact hrefused

theorem Reachable.device {p : Program} {input : Input} {device : Device} {m : Machine}
    (hm : Reachable p input device m) : m.output.device = device :=
  Reachable.invariant (P := fun m => m.output.device = device) rfl (fun _ _ _ h => h)
    (fun m h => (step_device p m).trans h) hm

theorem category_of_code {output : Output} {o : Outcome} (h : (Response.ofRun output o).code = 99) :
    ∃ f, o = .error f ∧ f.fault.category = .internal := by
  cases o with
  | ok ending =>
    cases ending with
    | completed => cases h
    | exit status =>
      have hstatus : status.val = 99 := h
      omega
  | error f =>
    refine ⟨f, rfl, ?_⟩
    have hcode : f.fault.category.exitCode = 99 := h
    cases hc : f.fault.category with
    | internal => rfl
    | _ => rw [hc] at hcode; cases hcode

theorem code_of_accepting {p : Program} {fuel : Nat} {m next : Machine} {o : Outcome}
    (hdevice : ∀ attempts w, m.output.device.refusal attempts w = none)
    (h : m.execute p fuel = (next, some o)) (output : Output) : (Response.ofRun output o).code ≠ 99 := by
  intro hcode
  obtain ⟨f, rfl, hf⟩ := category_of_code hcode
  obtain ⟨attempts, w, reason, hrefused, -⟩ := execute_category h hf
  rw [hdevice] at hrefused
  cases hrefused

theorem execute_of_run {p : Program} {fuel : Nat} {input : Input} {device : Device} {next : Machine}
    {o : Outcome} (hflush : device.flushRefusal = none) (h : p.run fuel input device = (next, some o)) :
    ∃ m, (start input device).execute p fuel = (m, some o) := by
  unfold Program.run at h
  split at h
  · cases h
  · rename_i m outcome hexecute
    have hdevice := execute_device p fuel (start input device)
    rw [hexecute] at hdevice
    have hflush' : m.output.device.flushRefusal = none := by rw [hdevice]; exact hflush
    simp only [Output.flush, hflush', Prod.mk.injEq, Option.some.injEq] at h
    exact ⟨m, by rw [hexecute, h.2]⟩

/-- Why no run of a program has an internal fault of its own, and what follows for its exit code. -/
structure NeverInternal (p : Program) (input : Input) (device : Device) : Prop where
  runs : ∀ m, Reachable p input device m → ∀ fuel next f, m.execute p fuel = (next, some (.error f)) →
    ∀ reason, f.fault ≠ .internal reason
  operands : ∀ (i : Instruction) os, i.checkShapes = .ok () → Instruction.readOperands i.arguments = .ok os →
    os.length = i.opcode.arity ∧ ∃ op, Operation.ofOperands? i.opcode os = some op
  label : ∀ i : Instruction, i.opcode = .label → i.checkShapes = .ok () → ∃ a, i.arguments = [a]
  frame : ∀ name v fs gs, Frames.setFirst name v fs = some gs →
    ∃ (k : Nat) (hk : k < fs.length), fs[k].declares name = true ∧ gs = fs.set k (fs[k].insert name v)
  character : ∀ cs index k, charIndex cs index = .ok k → k < cs.length
  code : (∀ attempts w, device.refusal attempts w = none) →
    ∀ m, Reachable p input device m → ∀ fuel next o, m.execute p fuel = (next, some o) →
      (Response.ofRun next.output o).code ≠ 99
  flushed : (∀ attempts w, device.refusal attempts w = none) → device.flushRefusal = none →
    ∀ fuel next o, p.run fuel input device = (next, some o) → (Response.ofRun next.output o).code ≠ 99

theorem no_internal_fault (p : Program) (input : Input) (device : Device) : NeverInternal p input device where
  runs := by
    intro m _ fuel next f h reason hf
    obtain ⟨_, _, _, -, houtput⟩ := execute_category h (by rw [hf]; rfl)
    rw [hf] at houtput
    cases houtput
  operands := by
    intro i os hshapes hos
    have hfits := readOperands_fits (checkShapes_ok_iff.mp hshapes) hos
    obtain ⟨op, hop, -⟩ := ofOperands_of_fits hfits
    exact ⟨hfits.length_eq, op, hop⟩
  label := by
    intro i hop hshapes
    have hfits := checkShapes_ok_iff.mp hshapes
    rw [hop] at hfits
    exact List.length_eq_one_iff.mp hfits.length_eq
  frame := by
    intro name v fs gs h
    obtain ⟨k, hk, hdeclares, -, hgs⟩ := Frames.setFirst_eq_some h
    exact ⟨k, hk, hdeclares, hgs⟩
  character := fun _ _ _ => charIndex_lt
  code := by
    intro hdevice m hm fuel next o h
    exact code_of_accepting (fun attempts w => by rw [hm.device, hdevice]) h next.output
  flushed := by
    intro hdevice hflush fuel next o h
    obtain ⟨m, hm⟩ := execute_of_run hflush h
    exact code_of_accepting hdevice hm next.output

/-- The opcode wants three arguments, the label is no name, and the string cannot be decoded. -/
def misshapen : Program where
  instructions := [⟨1, .add, [⟨0, .label, ""⟩]⟩, ⟨2, .write, [⟨0, .literal .string, "\\999"⟩]⟩]
  ordered := by decide
  positive := by decide
  placed := by decide

theorem misshapen_not_internal :
    let m := ((start Input.empty Device.reliable).execute misshapen 1).1
    let r := m.execute misshapen 1
    r.2 = some (.error ⟨1, .invalidEscape "\\999"⟩) ∧
      (∀ reason, Fault.invalidEscape "\\999" ≠ .internal reason) ∧
      (Response.ofRun r.1.output (.error ⟨1, .invalidEscape "\\999"⟩)).code ≠ 99 := by
  intro m r
  have hr : r = (r.1, some (.error ⟨1, .invalidEscape "\\999"⟩)) := rfl
  have hm : Reachable misshapen Input.empty Device.reliable m := .execute 1 .start
  have hnever := no_internal_fault misshapen Input.empty Device.reliable
  exact ⟨rfl, hnever.runs m hm 1 _ _ hr, hnever.code (fun _ _ => rfl) m hm 1 _ _ hr⟩

end Machine

end FrameMachine
