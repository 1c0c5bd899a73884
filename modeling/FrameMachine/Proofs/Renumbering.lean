import FrameMachine.Proofs.Arrange
import FrameMachine.Proofs.Dispatch
import FrameMachine.Proofs.Faults
import FrameMachine.Proofs.Lockstep
import Mathlib.Data.List.Forall2
import Mathlib.Data.List.Nodup

/-!
# Order numbers

Order numbers tell in which order the instructions of a list stand, and nothing else. A permutation of
a program's instructions is arranged to the same program (`ofInstructions_of_perm`), and two programs
whose instructions are the same but for their numbers run in step (`Machine.Agrees.execute`): the numbers
appear in the report of a `BREAK` only.
-/

namespace FrameMachine

/-! ## Arranging a permutation -/

theorem perm_insertOn {α : Type} (key : α → Int) (a : α) (l : List α) : (insertOn key a l).Perm (a :: l) := by
  induction l with
  | nil => exact .refl _
  | cons b l ih =>
    rw [insertOn]
    by_cases h : key a ≤ key b
    · rw [if_pos h]
    · rw [if_neg h]
      exact (ih.cons b).trans (.swap a b l)

theorem perm_sortOn {α : Type} (key : α → Int) (l : List α) : (sortOn key l).Perm l := by
  induction l with
  | nil => exact .refl _
  | cons a l ih => exact (perm_insertOn key a _).trans (ih.cons a)

namespace Program

theorem instructions_of_ofInstructions {l : List Instruction} {p : Program} (h : ofInstructions l = .ok p) :
    p.instructions = arrange l := by
  unfold ofInstructions at h
  split at h
  · cases h
  · split at h
    · cases h
    · rw [← Except.ok.inj h]

theorem perm_of_ofInstructions {l : List Instruction} {p : Program} (h : ofInstructions l = .ok p) :
    p.instructions.Perm l := by
  rw [instructions_of_ofInstructions h]
  exact perm_sortOn _ l

theorem eq_of_order_eq {p : Program} {i j : Instruction} (hi : i ∈ p.instructions) (hj : j ∈ p.instructions)
    (h : i.order = j.order) : i = j := by
  have hnodup : (p.instructions.map (·.order)).Nodup := List.pairwise_map.mpr (p.ordered.imp Int.ne_of_lt)
  exact List.inj_on_of_nodup_map hnodup hi hj h

theorem arrange_of_perm {p : Program} {l : List Instruction} (h : l.Perm p.instructions) :
    arrange l = p.instructions := by
  have hperm : (arrange l).Perm p.instructions := (perm_sortOn _ l).trans h
  refine hperm.eq_of_pairwise ?_ (pairwise_sortOn _ l) (p.ordered.imp Int.le_of_lt)
  intro i j hi hj hij hji
  exact eq_of_order_eq (hperm.mem_iff.mp hi) hj (Int.le_antisymm hij hji)

theorem ofInstructions_of_perm {p : Program} {l : List Instruction} (h : l.Perm p.instructions) :
    ofInstructions l = .ok p := by
  have harrange := arrange_of_perm h
  have hdefect : l.findSome? Instruction.defect? = none := by
    refine List.findSome?_eq_none_iff.mpr fun i hi => ?_
    exact defect_of_sound (p.positive i (h.mem_iff.mp hi)) (p.placed i (h.mem_iff.mp hi))
  have hrepeat : firstRepeat ((arrange l).map (·.order)) = none := by
    rw [harrange]
    exact firstRepeat_of_pairwise (List.pairwise_map.mpr p.ordered)
  unfold ofInstructions
  split
  · rename_i d hd
    rw [hdefect] at hd
    cases hd
  · split
    · rename_i o ho
      rw [hrepeat] at ho
      cases ho
    · simp only [harrange]

end Program

/-! ## Other numbers -/

def Instruction.renumber (f : Int → Int) (i : Instruction) : Instruction := { i with order := f i.order }

/-- A program with other order numbers, which increase as the old ones do. -/
def Program.renumber (p : Program) (f : Int → Int)
    (increasing : ∀ i ∈ p.instructions, ∀ j ∈ p.instructions, i.order < j.order → f i.order < f j.order)
    (positive : ∀ i ∈ p.instructions, 0 < f i.order) : Program where
  instructions := p.instructions.map (·.renumber f)
  ordered := by
    rw [List.pairwise_map]
    exact p.ordered.imp_of_mem fun hi hj hij => increasing _ hi _ hj hij
  positive := by
    intro i hi
    obtain ⟨j, hj, rfl⟩ := List.mem_map.mp hi
    exact positive j hj
  placed := by
    intro i hi
    obtain ⟨j, hj, rfl⟩ := List.mem_map.mp hi
    exact p.placed j hj

/-- The instructions are the same but for their order numbers. -/
structure Instruction.SameCode (i j : Instruction) : Prop where
  opcode : j.opcode = i.opcode
  arguments : j.arguments = i.arguments

def Program.SameCode (p p' : Program) : Prop :=
  List.Forall₂ Instruction.SameCode p.instructions p'.instructions

theorem Program.sameCode_renumber (p : Program) (f : Int → Int)
    (increasing : ∀ i ∈ p.instructions, ∀ j ∈ p.instructions, i.order < j.order → f i.order < f j.order)
    (positive : ∀ i ∈ p.instructions, 0 < f i.order) : p.SameCode (p.renumber f increasing positive) := by
  unfold SameCode renumber
  rw [List.forall₂_map_right_iff]
  exact List.forall₂_same.mpr fun i _ => ⟨rfl, rfl⟩

theorem Instruction.SameCode.operation {i j : Instruction} (h : i.SameCode j) : j.operation = i.operation := by
  simp only [Instruction.operation, checkShapes, h.opcode, h.arguments]

theorem Program.SameCode.get {p p' : Program} (h : p.SameCode p') (k : Nat) :
    p.get? k = none ∧ p'.get? k = none ∨
      ∃ i j, p.get? k = some i ∧ p'.get? k = some j ∧ i.SameCode j := by
  unfold SameCode at h
  unfold get?
  generalize p.instructions = is, p'.instructions = js at h
  induction h generalizing k with
  | nil => simp
  | cons hij _ ih =>
    cases k with
    | zero => exact Or.inr ⟨_, _, rfl, rfl, hij⟩
    | succ k => simpa using ih k

theorem Labels.addAll_of_sameCode {is js : List Instruction} (h : List.Forall₂ Instruction.SameCode is js)
    (t : Labels) (k : Nat) : t.addAll k js = t.addAll k is := by
  induction h generalizing t k with
  | nil => rfl
  | cons hij _ ih => simp only [addAll, labelName, hij.opcode, hij.operation, ih]

theorem Program.SameCode.collect {p p' : Program} (h : p.SameCode p') : Labels.collect p' = Labels.collect p :=
  Labels.addAll_of_sameCode h Labels.empty 0

theorem Program.SameCode.flushed {p p' : Program} (h : p.SameCode p') : p'.flushed = p.flushed :=
  flushed_of_length (List.Forall₂.length_eq h).symm

/-! ## Runs in step -/

def Program.Quiet (p : Program) : Prop := ∀ i ∈ p.instructions, i.opcode ≠ .break

/-- The outputs have the same writes to the standard stream, and if `quiet` all the same writes. -/
structure Output.Agrees (quiet : Prop) (o o' : Output) : Prop where
  device : o'.device = o.device
  flushes : o'.flushes = o.flushes
  out : o'.writes.filter (·.stream = .out) = o.writes.filter (·.stream = .out)
  all : quiet → o'.attempts = o.attempts

section
variable {quiet : Prop} {o o' : Output} (h : o.Agrees quiet o')
  (haccepts : ∀ attempts w, o.device.refusal attempts w = none)
include h haccepts

theorem Output.Agrees.accepts (w : Write) : (o.write w).2 = none ∧ (o'.write w).2 = none := by
  refine ⟨haccepts _ _, ?_⟩
  show o'.device.refusal o'.attempts w = none
  rw [h.device]
  exact haccepts _ _

theorem Output.Agrees.write (w : Write) : (o.write w).1.Agrees quiet (o'.write w).1 := by
  obtain ⟨haccepted, haccepted'⟩ := h.accepts haccepts w
  refine ⟨h.device, h.flushes, ?_, fun hquiet => ?_⟩
  · rw [writes_of_accepted haccepted, writes_of_accepted haccepted', List.filter_append, List.filter_append,
      h.out]
  · simp only [Output.write, h.all hquiet, h.device]

theorem Output.Agrees.report (hquiet : ¬ quiet) (s s' : String) :
    (o.write ⟨.err, s⟩).1.Agrees quiet (o'.write ⟨.err, s'⟩).1 := by
  refine ⟨h.device, h.flushes, ?_, fun hq => absurd hq hquiet⟩
  rw [writes_of_accepted (h.accepts haccepts _).1, writes_of_accepted (h.accepts haccepts _).2,
    List.filter_append, List.filter_append, h.out]
  rfl

end

namespace Machine

/-- The machines are in the same state, and their outputs agree. -/
structure Agrees (quiet : Prop) (m m' : Machine) : Prop where
  state : m.SameState m'
  output : m.output.Agrees quiet m'.output

theorem effect_agrees {m m' : Machine} (h : m.SameState m') {i j : Instruction} (hij : i.SameCode j)
    (p p' : Program) :
    j.effect p' m' = i.effect p m ∨
      i.opcode = .break ∧ ∃ s s', i.effect p m = .ok (.write ⟨.err, s⟩) ∧
        j.effect p' m' = .ok (.write ⟨.err, s'⟩) := by
  unfold Instruction.effect
  rw [hij.opcode, hij.operation]
  by_cases hlabel : i.opcode = .label
  · simp only [hlabel, ite_true, true_or]
  · simp only [hlabel, ite_false]
    cases hop : i.operation with
    | error f => exact Or.inl rfl
    | ok op =>
      by_cases hbreak : op = .break
      · subst hbreak
        exact Or.inr ⟨(opcode_of_operation hop).symm, _, _, rfl, rfl⟩
      · exact Or.inl (h.effect_of_ne_break p p' hij.opcode hbreak)

theorem Agrees.apply {quiet : Prop} {m m' : Machine} (h : m.Agrees quiet m')
    (haccepts : ∀ attempts w, m.output.device.refusal attempts w = none) (e : Effect) :
    (e.apply m).Agrees quiet (e.apply m') ∧ e.refusal m = none ∧ e.refusal m' = none := by
  refine ⟨⟨h.state.apply e, ?_⟩, ?_⟩
  · cases e with
    | write w => exact h.output.write haccepts w
    | _ => exact h.output
  · cases e with
    | write w => exact h.output.accepts haccepts w
    | _ => exact ⟨rfl, rfl⟩

theorem Agrees.step {p p' : Program} (hcode : p.SameCode p') {m m' : Machine}
    (h : m.Agrees p.Quiet m')
    (haccepts : ∀ attempts w, m.output.device.refusal attempts w = none) :
    (m.step p).1.Agrees p.Quiet (m'.step p').1 ∧
      (m'.step p').2 = (m.step p).2 := by
  have hpc := h.state.pc
  rcases hcode.get m.pc with ⟨hnone, hnone'⟩ | ⟨i, j, hi, hj, hij⟩
  · rw [← hpc] at hnone'
    rw [step_of_end hnone, step_of_end hnone']
    exact ⟨h, rfl⟩
  · rw [← hpc] at hj
    have hadvance := h.state.advance hij.opcode
    rw [step_of_get hi, step_of_get hj]
    rcases effect_agrees hadvance hij p p' with heffect | ⟨hbreak, s, s', heffect, heffect'⟩
    · rw [heffect]
      cases i.effect p (m.advance i) with
      | error f => exact ⟨⟨hadvance, h.output⟩, by simp only [settle, hpc]⟩
      | ok e =>
        obtain ⟨hnext, hr, hr'⟩ := Agrees.apply ⟨hadvance, h.output⟩ haccepts e
        simpa only [settle, hr, hr', and_true] using hnext
    · have hloud : ¬ p.Quiet := fun hquiet => hquiet i (List.mem_of_getElem? hi) hbreak
      have hr : (Effect.write ⟨.err, s⟩).refusal (m.advance i) = none := (h.output.accepts haccepts _).1
      have hr' : (Effect.write ⟨.err, s'⟩).refusal (m'.advance j) = none := (h.output.accepts haccepts _).2
      rw [heffect, heffect']
      simp only [settle, hr, hr']
      exact ⟨⟨{ hadvance with }, h.output.report haccepts hloud s s'⟩, rfl⟩

theorem Agrees.execute {p p' : Program} (hcode : p.SameCode p') (fuel : Nat) {m m' : Machine}
    (h : m.Agrees p.Quiet m') (haccepts : ∀ attempts w, m.output.device.refusal attempts w = none) :
    (m.execute p fuel).1.Agrees p.Quiet (m'.execute p' fuel).1 ∧
      (m'.execute p' fuel).2 = (m.execute p fuel).2 := by
  have hrelated := @execute_related p p'
    (fun n n' => n.Agrees p.Quiet n' ∧ ∀ attempts w, n.output.device.refusal attempts w = none)
    (fun n n' hn => ?_) hcode.collect (fun n n' labels hn => ?_) fuel m m' ⟨h, haccepts⟩
  · exact ⟨hrelated.1.1, hrelated.2⟩
  · obtain ⟨hnext, ho⟩ := Agrees.step hcode hn.1 hn.2
    exact ⟨⟨hnext, by rw [step_device]; exact hn.2⟩, ho⟩
  · exact ⟨⟨{ hn.1.state with labels := rfl }, hn.1.output⟩, hn.2⟩

end Machine

/-- A program whose instructions are put in another order and renumbered in an increasing way runs in step with
the first one, but for what `BREAK` reports. -/
theorem renumbered_runs_agree (l l' : List Instruction) (f : Int → Int) (p : Program)
    (hp : Program.ofInstructions l = .ok p) (hl : l'.Perm (l.map (·.renumber f)))
    (increasing : ∀ i ∈ l, ∀ j ∈ l, i.order < j.order → f i.order < f j.order)
    (positive : ∀ i ∈ l, 0 < f i.order) :
    ∃ p', Program.ofInstructions l' = .ok p' ∧
      ∀ input device, (∀ attempts w, device.refusal attempts w = none) → ∀ fuel,
        (p'.run fuel input device).2 = (p.run fuel input device).2 ∧
        (p.run fuel input device).1.SameState (p'.run fuel input device).1 ∧
        (p'.run fuel input device).1.output.text .out = (p.run fuel input device).1.output.text .out ∧
        ((∀ i ∈ l, i.opcode ≠ .break) →
          (p'.run fuel input device).1.output.text .err = (p.run fuel input device).1.output.text .err) := by
  have hperm := Program.perm_of_ofInstructions hp
  have increasing' : ∀ i ∈ p.instructions, ∀ j ∈ p.instructions, i.order < j.order → f i.order < f j.order :=
    fun i hi j hj => increasing i (hperm.mem_iff.mp hi) j (hperm.mem_iff.mp hj)
  have positive' : ∀ i ∈ p.instructions, 0 < f i.order := fun i hi => positive i (hperm.mem_iff.mp hi)
  refine ⟨p.renumber f increasing' positive', ?_, fun input device haccepts fuel => ?_⟩
  · exact Program.ofInstructions_of_perm (hl.trans (hperm.symm.map _))
  · have hcode := p.sameCode_renumber f increasing' positive'
    have hstart : (Machine.start input device).Agrees p.Quiet (Machine.start input device) :=
      ⟨⟨rfl, rfl, rfl, rfl, rfl, rfl, rfl, rfl, rfl⟩, ⟨rfl, rfl, rfl, fun _ => rfl⟩⟩
    obtain ⟨hagrees, ho⟩ := hstart.execute hcode fuel haccepts
    rw [Program.run_eq, Program.run_eq, ho, hcode.flushed]
    refine ⟨rfl, { hagrees.state with }, ?_, fun hquiet => ?_⟩
    · exact congrArg (fun ws => Text.concat (ws.map (·.text))) hagrees.output.out
    · have hall := hagrees.output.all fun i hi => hquiet i (hperm.mem_iff.mp hi)
      simp only [Machine.flushIf, Output.text, Output.writes, hall]

/-- Writes, jumps over a second write and reports. -/
def shuffled : List Instruction := [
  ⟨3, .write, [⟨0, .literal .string, "skipped"⟩]⟩,
  ⟨9, .break, []⟩,
  ⟨1, .write, [⟨0, .literal .string, "written"⟩]⟩,
  ⟨5, .label, [⟨0, .label, "end"⟩]⟩,
  ⟨2, .jump, [⟨0, .label, "end"⟩]⟩]

def unshuffled : Program where
  instructions := [
    ⟨1, .write, [⟨0, .literal .string, "written"⟩]⟩,
    ⟨2, .jump, [⟨0, .label, "end"⟩]⟩,
    ⟨3, .write, [⟨0, .literal .string, "skipped"⟩]⟩,
    ⟨5, .label, [⟨0, .label, "end"⟩]⟩,
    ⟨9, .break, []⟩]
  ordered := by decide
  positive := by decide
  placed := by decide

theorem shuffled_runs_agree :
    ∃ p', Program.ofInstructions (shuffled.map (·.renumber (10 * ·))).reverse = .ok p' ∧
      (p'.run 5 Input.empty Device.reliable).1.output.text .out = "written" ∧
      (p'.run 5 Input.empty Device.reliable).1.executed = 3 ∧
      (p'.run 5 Input.empty Device.reliable).2 = some (.ok .completed) := by
  have hp : Program.ofInstructions shuffled = .ok unshuffled := rfl
  obtain ⟨p', hp', hruns⟩ := renumbered_runs_agree shuffled _ (10 * ·) unshuffled hp (List.reverse_perm _)
    (fun i _ j _ hij => by omega) (by decide)
  obtain ⟨ho, hstate, hout, -⟩ := hruns Input.empty Device.reliable (fun _ _ => rfl) 5
  refine ⟨p', hp', hout.trans ?_, hstate.executed.trans ?_, ho.trans ?_⟩
  · rfl
  · rfl
  · rfl

end FrameMachine
