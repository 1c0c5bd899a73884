import FrameMachine.Proofs.History
import FrameMachine.Proofs.LabelTable

/-!
# Positions in the program

Every index that a machine holds is one of the program: the next instruction, the ones executed last, the
places to return to and the labels (`Placed`). Each step keeps this, because the only indices that it
takes over are those of labels and of the call stack, and so it holds in every reachable state.
-/

namespace FrameMachine

theorem Program.lt_of_get {p : Program} {k : Nat} {i : Instruction} (h : p.get? k = some i) : k < p.length :=
  (List.getElem?_eq_some_iff.mp h).1

/-- The index is that of the only `LABEL` with the given name. -/
def Program.LabelAt (p : Program) (name : String) (index : Nat) : Prop :=
  (∃ i, p.get? index = some i ∧ i.IsLabel name) ∧
    ∀ k i, p.get? k = some i → i.IsLabel name → k = index

theorem Labels.labelAt_of_find {p : Program} {t : Labels} (h : collect p = .ok t) {name : String}
    {index : Nat} (hfind : t.find? name = some index) : p.LabelAt name index := by
  refine ⟨label_of_find h hfind, fun k i hi hlabel => ?_⟩
  have hk := find_of_collect h hi hlabel
  rw [hfind] at hk
  exact (Option.some.inj hk).symm

theorem Labels.find_of_target {t : Labels} {name : String} {index : Nat} (h : t.target name = .ok index) :
    t.find? name = some index := by
  unfold target at h
  split at h
  · rename_i k hk
    cases h
    exact hk
  · cases h

namespace Machine

def FollowsCall (p : Program) (index : Nat) : Prop :=
  1 ≤ index ∧ index ≤ p.length ∧ ∃ i, p.get? (index - 1) = some i ∧ i.opcode = .call

structure Placed (p : Program) (m : Machine) : Prop where
  pc : m.pc ≤ p.length
  current : ∀ k, m.current = some k → k < p.length
  last : ∀ k, m.last = some k → k < p.length
  calls : ∀ index ∈ m.calls, FollowsCall p index
  labels : m.labels = Labels.empty ∨ Labels.collect p = .ok m.labels

section
variable {p : Program} {m : Machine} (hm : m.Placed p)
include hm

theorem Placed.labelAt {name : String} {index : Nat} (h : m.labels.target name = .ok index) :
    p.LabelAt name index := by
  have hfind := Labels.find_of_target h
  rcases hm.labels with hempty | hcollect
  · rw [hempty] at hfind
    cases hfind
  · exact Labels.labelAt_of_find hcollect hfind

theorem Placed.target_le {name : String} {index : Nat} (h : m.labels.target name = .ok index) :
    index ≤ p.length := by
  obtain ⟨⟨i, hi, -⟩, -⟩ := hm.labelAt h
  exact Nat.le_of_lt (Program.lt_of_get hi)

theorem Placed.advance {i : Instruction} (hi : p.get? m.pc = some i) : (m.advance i).Placed p where
  pc := Program.lt_of_get hi
  current := by
    intro k hk
    obtain rfl : m.pc = k := Option.some.inj hk
    exact Program.lt_of_get hi
  last := hm.current
  calls := hm.calls
  labels := hm.labels

theorem Placed.apply {i : Instruction} {op : Operation} {e : Effect} (hyields : op.Yields p i m e)
    (hcall : op.opcode = .call → FollowsCall p m.pc) : (e.apply m).Placed p := by
  cases hyields with
  | call hindex =>
    refine ⟨hm.target_le hindex, hm.current, hm.last, fun index hmem => ?_, hm.labels⟩
    rcases List.mem_cons.mp hmem with rfl | hmem
    · exact hcall rfl
    · exact hm.calls index hmem
  | «return» hcalls =>
    have hmem := hm.calls
    rw [hcalls] at hmem
    obtain ⟨hindex, hrest⟩ := List.forall_mem_cons.mp hmem
    exact ⟨hindex.2.1, hm.current, hm.last, hrest, hm.labels⟩
  | jump hindex => exact ⟨hm.target_le hindex, hm.current, hm.last, hm.calls, hm.labels⟩
  | taken hindex => exact ⟨hm.target_le hindex, hm.current, hm.last, hm.calls, hm.labels⟩
  | _ => exact ⟨hm.pc, hm.current, hm.last, hm.calls, hm.labels⟩

theorem Placed.step : (m.step p).1.Placed p := by
  have hstep := step_cases p m
  generalize (m.step p).1 = next, (m.step p).2 = o at hstep
  cases hstep with
  | complete => exact hm
  | fault hi => exact hm.advance hi
  | refused hi =>
    have hadvance := hm.advance hi
    exact ⟨hadvance.pc, hadvance.current, hadvance.last, hadvance.calls, hadvance.labels⟩
  | exit hi => exact hm.advance hi
  | @next i e hi he =>
    have hadvance := hm.advance hi
    rcases yields_of_instruction he with ⟨-, rfl⟩ | ⟨op, -, hop, hyields⟩
    · exact hadvance
    · refine hadvance.apply hyields fun hcall => ?_
      exact ⟨Nat.succ_pos _, hadvance.pc, i, hi, hop.symm.trans hcall⟩

end

theorem placed_of_reachable {p : Program} {input : Input} {device : Device} {m : Machine}
    (hm : Reachable p input device m) : m.Placed p := by
  refine hm.invariant ?_ (fun m labels h hm => ?_) fun m hm => hm.step
  · exact ⟨Nat.zero_le _, nofun, nofun, nofun, Or.inl rfl⟩
  · exact ⟨hm.pc, hm.current, hm.last, hm.calls, Or.inr h⟩

/-! ## Jumps -/

theorem Placed.jump {p : Program} {m : Machine} (hm : m.Placed p) {i : Instruction}
    (hi : p.get? m.pc = some i) (hop : i.opcode ∈ [.jump, .jumpifeq, .jumpifneq, .call])
    (h : (m.step p).2 = none) :
    ∃ a rest, i.arguments = a :: rest ∧ a.kind = .label ∧
      (p.LabelAt a.text (m.step p).1.pc ∨
        ∃ wanted b c v w, i.operation = .ok (.jumpIf wanted a.text b c) ∧ b.value m.frames = .ok v ∧
          c.value m.frames = .ok w ∧ testEqual i.opcode v w = .ok (!wanted) ∧
          (m.step p).1.pc = m.pc + 1) := by
  simp only [List.mem_cons, List.not_mem_nil, or_false] at hop
  have hlabel : i.opcode ≠ .label := by
    rcases hop with hop | hop | hop | hop <;> simp [hop]
  have hcases : i.opcode = .jump ∨ i.opcode = .call ∨ i.opcode = .jumpifeq ∨ i.opcode = .jumpifneq := by
    tauto
  obtain ⟨op, e, hoperation, hyields, hnext⟩ := step_yields hi hlabel h
  have hadvance := hm.advance hi
  rw [hnext]
  rcases hcases with hop | hop | hop
  · obtain ⟨name, rfl⟩ := jump_of_operation hoperation hop
    obtain ⟨a, rest, harguments, hkind, rfl⟩ := label_argument hoperation rfl
    cases hyields with
    | jump hindex => exact ⟨a, rest, harguments, hkind, Or.inl (hadvance.labelAt hindex)⟩
  · obtain ⟨name, rfl⟩ := call_of_operation hoperation hop
    obtain ⟨a, rest, harguments, hkind, rfl⟩ := label_argument hoperation rfl
    cases hyields with
    | call hindex => exact ⟨a, rest, harguments, hkind, Or.inl (hadvance.labelAt hindex)⟩
  · obtain ⟨wanted, name, b, c, rfl⟩ := jumpIf_of_operation hoperation hop
    obtain ⟨a, rest, harguments, hkind, rfl⟩ := label_argument hoperation rfl
    refine ⟨a, rest, harguments, hkind, ?_⟩
    cases hyields with
    | taken hindex => exact Or.inl (hadvance.labelAt hindex)
    | untaken _ hv hw hequal => exact Or.inr ⟨wanted, b, c, _, _, hoperation, hv, hw, hequal, rfl⟩

/-- In every reachable state each index is one of the program, returns follow a `CALL`, and labels and taken
jumps lead to their `LABEL`. -/
theorem positions_of_reachable (p : Program) (input : Input) (device : Device) (m : Machine)
    (hm : Reachable p input device m) :
    m.pc ≤ p.length ∧ (∀ k, m.current = some k → k < p.length) ∧ (∀ k, m.last = some k → k < p.length) ∧
      (∀ r ∈ m.calls, 1 ≤ r ∧ r ≤ p.length ∧ ∃ i, p.get? (r - 1) = some i ∧ i.opcode = .call) ∧
      (∀ name k, (name, k) ∈ m.labels.entries → ∃ i, p.get? k = some i ∧ i.IsLabel name) ∧
      ∀ i next, p.get? m.pc = some i → i.opcode ∈ [.jump, .jumpifeq, .jumpifneq, .call] →
        m.execute p 1 = (next, none) →
        ∃ a rest, i.arguments = a :: rest ∧ a.kind = .label ∧
          (p.LabelAt a.text next.pc ∨
            ∃ wanted b c v w, i.operation = .ok (.jumpIf wanted a.text b c) ∧ b.value m.frames = .ok v ∧
              c.value m.frames = .ok w ∧ testEqual i.opcode v w = .ok (!wanted) ∧
              next.pc = m.pc + 1) := by
  have hplaced := placed_of_reachable hm
  refine ⟨hplaced.pc, hplaced.current, hplaced.last, hplaced.calls, fun name k he => ?_, ?_⟩
  · rcases hplaced.labels with hempty | hcollect
    · rw [hempty] at he
      cases he
    · exact Labels.entry_of_collect hcollect he
  · intro i next hi hop h
    obtain ⟨t, hcollect⟩ := collect_of_execute (congrArg Prod.snd h)
    have hzero := after_zero hcollect m
    have hstep := step_after_zero hcollect m
    -- The step is taken by the machine with the labels collected, which has the same frames and index.
    have hplaced : (m.after p 0).Placed p := placed_of_reachable (hm.execute 0)
    have hjump := hplaced.jump (by rwa [hzero]) hop (by rw [hstep, h])
    rw [hstep, h, hzero] at hjump
    exact hjump

/-- Calls a routine that only returns, and then jumps to the end. -/
def callThenBranch : Program where
  instructions := [
    ⟨1, .call, [⟨0, .label, "routine"⟩]⟩,
    ⟨2, .jumpifeq, [⟨0, .label, "end"⟩, ⟨1, .literal .int, "1"⟩, ⟨2, .literal .int, "0x1"⟩]⟩,
    ⟨3, .exit, [⟨0, .literal .int, "3"⟩]⟩,
    ⟨4, .label, [⟨0, .label, "routine"⟩]⟩,
    ⟨5, .return, []⟩,
    ⟨6, .label, [⟨0, .label, "end"⟩]⟩]
  ordered := by decide
  positive := by decide
  placed := by decide

theorem callThenBranch_positions :
    let m := ((start Input.empty Device.reliable).execute callThenBranch 1).1
    let n := (m.execute callThenBranch 2).1
    (m.calls = [1] ∧ ∃ i, callThenBranch.get? 0 = some i ∧ i.opcode = .call) ∧
      n.pc = 1 ∧ callThenBranch.LabelAt "end" (n.execute callThenBranch 1).1.pc := by
  intro m n
  have hm : Reachable callThenBranch Input.empty Device.reliable m := Reachable.start.execute 1
  have hn : Reachable callThenBranch Input.empty Device.reliable n := hm.execute 2
  obtain ⟨-, -, -, hcalls, -⟩ := positions_of_reachable _ _ _ m hm
  obtain ⟨-, -, -, -, -, hjump⟩ := positions_of_reachable _ _ _ n hn
  obtain ⟨-, -, hcall⟩ := hcalls 1 (by decide +kernel)
  refine ⟨⟨by decide +kernel, hcall⟩, by decide +kernel, ?_⟩
  obtain ⟨a, rest, harguments, -, hlands | ⟨-, -, -, -, -, -, -, -, -, hpc⟩⟩ := hjump _ _ rfl (by decide) rfl
  · obtain ⟨rfl, -⟩ := List.cons.inj harguments
    exact hlands
  · exact absurd hpc (by decide +kernel)

end Machine

end FrameMachine
