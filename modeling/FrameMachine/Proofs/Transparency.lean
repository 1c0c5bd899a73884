import FrameMachine.Proofs.LabelTable
import FrameMachine.Proofs.Renumbering

/-!
# Reports change nothing

A `BREAK` writes a report and does nothing else. `Program.relabel` puts a `LABEL` in its place, whose name no
jump can mean. The two programs stay in step (`Mirrors`): they differ in what they write to the diagnostic
stream, in how many instructions they count, and in the new labels.
-/

namespace FrameMachine

/-! ## Labels in place of `BREAK`s -/

def Instruction.IsBreak (i : Instruction) : Prop := i.opcode = .break ∧ i.arguments = []

instance (i : Instruction) : Decidable i.IsBreak := inferInstanceAs (Decidable (_ ∧ _))

def Instruction.relabel (name : String) (i : Instruction) : Instruction :=
  if i.IsBreak then ⟨i.order, .label, [⟨0, .label, name⟩]⟩ else i

/-- The instructions stand from an index on, which chooses the names of the new labels. -/
def relabelFrom (name : Nat → String) : Nat → List Instruction → List Instruction
  | _, [] => []
  | k, i :: is => i.relabel (name k) :: relabelFrom name (k + 1) is

theorem order_relabel (name : String) (i : Instruction) : (i.relabel name).order = i.order := by
  unfold Instruction.relabel
  by_cases h : i.IsBreak
  · rw [if_pos h]
  · rw [if_neg h]

theorem getElem_relabelFrom (name : Nat → String) (k : Nat) (is : List Instruction) (j : Nat) :
    (relabelFrom name k is)[j]? = is[j]?.map (·.relabel (name (k + j))) := by
  induction is generalizing k j with
  | nil => rfl
  | cons i is ih =>
    cases j with
    | zero => rfl
    | succ j =>
      have hindex : k + (j + 1) = k + 1 + j := by omega
      rw [relabelFrom, List.getElem?_cons_succ, List.getElem?_cons_succ, ih, hindex]

theorem mem_relabelFrom {name : Nat → String} {k : Nat} {is : List Instruction} {j : Instruction}
    (h : j ∈ relabelFrom name k is) : ∃ n, ∃ i ∈ is, j = i.relabel n := by
  induction is generalizing k with
  | nil => cases h
  | cons i is ih =>
    rcases List.mem_cons.mp h with rfl | h
    · exact ⟨_, i, by simp, rfl⟩
    · obtain ⟨n, i', hi', rfl⟩ := ih h
      exact ⟨n, i', List.mem_cons_of_mem _ hi', rfl⟩

theorem map_order_relabelFrom (name : Nat → String) (k : Nat) (is : List Instruction) :
    (relabelFrom name k is).map (·.order) = is.map (·.order) := by
  induction is generalizing k with
  | nil => rfl
  | cons i is ih => simp only [relabelFrom, List.map_cons, order_relabel, ih]

def Program.relabel (p : Program) (name : Nat → String) : Program where
  instructions := relabelFrom name 0 p.instructions
  ordered := by
    rw [← List.pairwise_map, map_order_relabelFrom, List.pairwise_map]
    exact p.ordered
  positive := by
    intro j hj
    obtain ⟨n, i, hi, rfl⟩ := mem_relabelFrom hj
    rw [order_relabel]
    exact p.positive i hi
  placed := by
    intro j hj
    obtain ⟨n, i, hi, rfl⟩ := mem_relabelFrom hj
    unfold Instruction.relabel
    by_cases h : i.IsBreak
    · rw [if_pos h]
      rfl
    · rw [if_neg h]
      exact p.placed i hi

theorem Program.get_relabel (p : Program) (name : Nat → String) (k : Nat) :
    (p.relabel name).get? k = (p.get? k).map (·.relabel (name k)) := by
  have h := getElem_relabelFrom name 0 p.instructions k
  rwa [Nat.zero_add] at h

/-- The name is that of a label in place of a `BREAK`. -/
def Program.IsNew (p : Program) (name : Nat → String) (n : String) : Prop :=
  ∃ k i, p.get? k = some i ∧ i.IsBreak ∧ n = name k

/-- Names for the new labels: texts that can be names, no label arguments of the program, and a different one
for each `BREAK`. -/
structure Program.Fresh (p : Program) (name : Nat → String) : Prop where
  nonempty : ∀ k i, p.get? k = some i → i.IsBreak → name k ≠ ""
  unused : ∀ n, p.IsNew name n → ∀ i ∈ p.instructions, ∀ a ∈ i.arguments, a.kind = .label → a.text ≠ n
  distinct : ∀ k l i j, p.get? k = some i → i.IsBreak → p.get? l = some j → j.IsBreak → name k = name l → k = l

/-! ## Collecting the labels -/

theorem labelName_relabel {i : Instruction} (h : i.IsBreak) {n : String} (hn : n ≠ "") :
    (i.relabel n).opcode = .label ∧ Labels.labelName (i.relabel n) = .ok n := by
  have hempty : n.isEmpty = false := by simpa using hn
  rw [Instruction.relabel, if_pos h]
  refine ⟨rfl, ?_⟩
  simp [Labels.labelName, Instruction.operation, Instruction.checkShapes, Instruction.readOperands,
    Instruction.misfit?, Argument.operand, hempty, Opcode.arity, Opcode.shapes, Kind.fits, bind, Except.bind,
    Operation.ofOperands?, Operation.onLabel, Except.map, pure, Except.pure]

theorem relabel_of_not_break {i : Instruction} (h : ¬ i.IsBreak) (n : String) : i.relabel n = i := by
  rw [Instruction.relabel, if_neg h]

namespace Labels

/-- The tables agree on all names but the new ones. -/
def AgreeBut (new : String → Prop) (t t' : Labels) : Prop := ∀ n, ¬ new n → t'.find? n = t.find? n

theorem find_append (t : Labels) (name n : String) (index : Nat) :
    (Labels.mk (t.entries ++ [(name, index)])).find? n =
      if n = name then (t.find? n).or (some index) else t.find? n := by
  unfold find?
  rw [List.lookup_append]
  by_cases h : n = name
  · simp [h]
  · simp [h, List.lookup_cons, beq_false_of_ne h]

section
variable {new : String → Prop} {t t' : Labels} (h : AgreeBut new t t')
include h

theorem AgreeBut.append_new {name : String} (hname : new name) (index : Nat) :
    AgreeBut new t ⟨t'.entries ++ [(name, index)]⟩ := by
  intro n hn
  have hne : n ≠ name := by
    intro heq
    exact hn (heq ▸ hname)
  rw [find_append, if_neg hne, h n hn]

theorem AgreeBut.append {name : String} (index : Nat) :
    AgreeBut new ⟨t.entries ++ [(name, index)]⟩ ⟨t'.entries ++ [(name, index)]⟩ := by
  intro n hn
  rw [find_append, find_append, h n hn]

theorem AgreeBut.define {name : String} (hname : ¬ new name) (index : Nat) :
    (∃ f, t.define name index = .error f ∧ t'.define name index = .error f) ∨
      ∃ u u', t.define name index = .ok u ∧ t'.define name index = .ok u' ∧ AgreeBut new u u' ∧
        ∀ n, n ≠ name → u'.find? n = t'.find? n := by
  rw [define_eq, define_eq]
  rw [h name hname]
  cases t.find? name with
  | none =>
    refine Or.inr ⟨_, _, rfl, rfl, h.append index, ?_⟩
    intro n hn
    rw [find_append, if_neg hn]
  | some first =>
    by_cases hfirst : first = index
    · simp only [hfirst, ite_true]
      exact Or.inr ⟨_, _, rfl, rfl, h, fun n _ => rfl⟩
    · simp only [hfirst, ite_false]
      exact Or.inl ⟨_, rfl, rfl⟩

end

theorem not_new_of_labelName {new : String → Prop} {i : Instruction} {name : String}
    (hunused : ∀ a ∈ i.arguments, a.kind = .label → ¬ new a.text) (h : labelName i = .ok name) : ¬ new name := by
  obtain ⟨a, rest, harguments, hkind, rfl⟩ := label_argument (operation_of_labelName h) rfl
  exact hunused a (by simp [harguments]) hkind

/-- No label argument is new, and the names for the `BREAK`s to come are new, different and not yet in the
table. -/
structure Upcoming (new : String → Prop) (name : Nat → String) (k : Nat) (is : List Instruction) (t : Labels) :
    Prop where
  unused : ∀ i ∈ is, ∀ a ∈ i.arguments, a.kind = .label → ¬ new a.text
  isNew : ∀ j i, is[j]? = some i → i.IsBreak → new (name (k + j)) ∧ name (k + j) ≠ ""
  absent : ∀ j i, is[j]? = some i → i.IsBreak → t.find? (name (k + j)) = none
  distinct : ∀ j l i i', is[j]? = some i → i.IsBreak → is[l]? = some i' → i'.IsBreak →
    name (k + j) = name (k + l) → j = l

theorem Upcoming.tail {new : String → Prop} {name : Nat → String} {k : Nat} {i : Instruction}
    {is : List Instruction} {t u : Labels} (h : Upcoming new name k (i :: is) t)
    (hkeep : ∀ j i', is[j]? = some i' → i'.IsBreak → u.find? (name (k + (j + 1))) = t.find? (name (k + (j + 1)))) :
    Upcoming new name (k + 1) is u := by
  have hshift : ∀ j, k + 1 + j = k + (j + 1) := by omega
  refine ⟨?_, ?_, ?_, ?_⟩
  · intro i' hi'
    exact h.unused i' (List.mem_cons_of_mem _ hi')
  · intro j i' hj hbreak
    rw [hshift]
    exact h.isNew (j + 1) i' hj hbreak
  · intro j i' hj hbreak
    rw [hshift, hkeep j i' hj hbreak]
    exact h.absent (j + 1) i' hj hbreak
  · intro j l i₁ i₂ hj hbreak hl hbreak' heq
    rw [hshift, hshift] at heq
    exact Nat.succ.inj (h.distinct (j + 1) (l + 1) i₁ i₂ hj hbreak hl hbreak' heq)

theorem addAll_relabelFrom {new : String → Prop} {name : Nat → String} {is : List Instruction} {k : Nat}
    {t t' : Labels} (h : AgreeBut new t t') (hnames : Upcoming new name k is t') :
    (∃ f, t.addAll k is = .error f ∧ t'.addAll k (relabelFrom name k is) = .error f) ∨
      ∃ u u', t.addAll k is = .ok u ∧ t'.addAll k (relabelFrom name k is) = .ok u' ∧ AgreeBut new u u' := by
  induction is generalizing k t t' with
  | nil => exact Or.inr ⟨t, t', rfl, rfl, h⟩
  | cons i is ih =>
    rw [relabelFrom]
    by_cases hbreak : i.IsBreak
    · -- Only the second program has a label here.
      obtain ⟨hname, hne⟩ := hnames.isNew 0 i rfl hbreak
      have hnone : t'.find? (name k) = none := hnames.absent 0 i rfl hbreak
      have hdefine : t'.define (name k) k = .ok ⟨t'.entries ++ [(name k, k)]⟩ := by
        rw [define_eq, hnone]
      have hop : i.opcode ≠ .label := by simp [hbreak.1]
      obtain ⟨hlabel, hlabelName⟩ := labelName_relabel hbreak hne
      rw [Nat.add_zero] at hname hlabel hlabelName
      simp only [addAll, hop, ite_false, hlabel, ite_true, hlabelName, hdefine]
      refine ih (h.append_new hname k) (hnames.tail ?_)
      intro j i' hj hbreak'
      have hother : name (k + (j + 1)) ≠ name k := by
        intro heq
        exact absurd (hnames.distinct (j + 1) 0 i' i hj hbreak' rfl hbreak heq) (Nat.succ_ne_zero j)
      rw [find_append, if_neg hother]
    · rw [relabel_of_not_break hbreak]
      by_cases hop : i.opcode = .label
      · simp only [addAll, hop, ite_true]
        cases hlabelName : labelName i with
        | error f => exact Or.inl ⟨_, rfl, rfl⟩
        | ok n =>
          have hold := not_new_of_labelName (hnames.unused i (by simp)) hlabelName
          dsimp only
          rcases h.define hold k with ⟨f, hf, hf'⟩ | ⟨u, u', hu, hu', hagree, hkeep⟩
          · rw [hf, hf']
            exact Or.inl ⟨_, rfl, rfl⟩
          · rw [hu, hu']
            refine ih hagree (hnames.tail ?_)
            intro j i' hj hbreak'
            have hname := (hnames.isNew (j + 1) i' hj hbreak').1
            exact hkeep _ (fun heq => hold (heq ▸ hname))
      · simp only [addAll, hop, ite_false]
        exact ih h (hnames.tail fun _ _ _ _ => rfl)

end Labels

theorem Program.Fresh.collect {p : Program} {name : Nat → String} (h : p.Fresh name) :
    (∃ f, Labels.collect p = .error f ∧ Labels.collect (p.relabel name) = .error f) ∨
      ∃ t t', Labels.collect p = .ok t ∧ Labels.collect (p.relabel name) = .ok t' ∧
        Labels.AgreeBut (p.IsNew name) t t' := by
  refine Labels.addAll_relabelFrom (fun n _ => rfl) ⟨?_, ?_, ?_, ?_⟩
  · intro i hi a ha hkind hnew
    exact h.unused _ hnew i hi a ha hkind rfl
  · intro k i hi hbreak
    rw [Nat.zero_add]
    exact ⟨⟨k, i, hi, hbreak, rfl⟩, h.nonempty k i hi hbreak⟩
  · intro k i _ _
    rfl
  · intro k l i j hi hbreak hj hbreak' heq
    rw [Nat.zero_add, Nat.zero_add] at heq
    exact h.distinct k l i j hi hbreak hj hbreak' heq

theorem Program.length_relabel (p : Program) (name : Nat → String) : (p.relabel name).length = p.length := by
  have h := congrArg List.length (map_order_relabelFrom name 0 p.instructions)
  rwa [List.length_map, List.length_map] at h

/-! ## Steps -/

theorem operation_of_isBreak {i : Instruction} (h : i.IsBreak) : i.operation = .ok .break := by
  obtain ⟨order, opcode, arguments⟩ := i
  obtain ⟨rfl, rfl⟩ : opcode = .break ∧ arguments = [] := h
  rfl

theorem isBreak_of_operation {i : Instruction} (h : i.operation = .ok .break) : i.IsBreak := by
  have hop : i.opcode = .break := (opcode_of_operation h).symm
  obtain ⟨os, hfits, hall, -⟩ := ofOperands_of_operation h
  refine ⟨hop, List.length_eq_zero_iff.mp ?_⟩
  rw [hall.length_eq, hfits.length_eq, hop]
  rfl

theorem effect_of_isBreak {i : Instruction} (h : i.IsBreak) (p : Program) (m : Machine) :
    i.effect p m = .ok (.write ⟨.err, m.report p i.order⟩) := by
  have hop : i.opcode ≠ .label := by simp [h.1]
  rw [Instruction.effect, if_neg hop, operation_of_isBreak h]
  rfl

theorem effect_relabel {i : Instruction} (h : i.IsBreak) (p : Program) (n : String) (m : Machine) :
    (i.relabel n).effect p m = .ok .none := by
  rw [Instruction.effect, Instruction.relabel, if_pos h]
  rfl

theorem Output.Agrees.reported {o o' : Output} (h : o.Agrees False o')
    (haccepts : ∀ attempts w, o.device.refusal attempts w = none) (s : String) :
    (o.write ⟨.err, s⟩).1.Agrees False o' := by
  refine ⟨h.device, h.flushes, ?_, False.elim⟩
  rw [writes_of_accepted (h.accepts haccepts _).1, List.filter_append, h.out]
  simp

namespace Machine

/-- The second machine has further labels, and has written other things to the diagnostic stream. -/
structure Mirrors (new : String → Prop) (m m' : Machine) : Prop where
  store : m.SameStore m'
  labels : Labels.AgreeBut new m.labels m'.labels
  output : m.output.Agrees False m'.output

theorem Mirrors.apply {new : String → Prop} {m m' : Machine} (h : m.Mirrors new m')
    (haccepts : ∀ attempts w, m.output.device.refusal attempts w = none) (e : Effect) :
    (e.apply m).Mirrors new (e.apply m') ∧ e.refusal m = none ∧ e.refusal m' = none := by
  refine ⟨⟨h.store.apply e, ?_, ?_⟩, ?_⟩
  · rw [Effect.labels_apply, Effect.labels_apply]
    exact h.labels
  · cases e with
    | write w => exact h.output.write haccepts w
    | _ => exact h.output
  · cases e with
    | write w => exact h.output.accepts haccepts w
    | _ => exact ⟨rfl, rfl⟩

section
variable {p : Program} {name : Nat → String} (hfresh : p.Fresh name) {m m' : Machine}
include hfresh

theorem Mirrors.effect (h : m.Mirrors (p.IsNew name) m') {i : Instruction} (hi : i ∈ p.instructions)
    (hbreak : ¬ i.IsBreak) : i.effect (p.relabel name) m' = i.effect p m := by
  unfold Instruction.effect
  by_cases hlabel : i.opcode = .label
  · simp only [hlabel, ite_true]
  · simp only [hlabel, ite_false]
    cases hop : i.operation with
    | error f => rfl
    | ok op =>
      refine h.store.effect p (p.relabel name) rfl ?_ ?_
      · intro heq
        exact hbreak (isBreak_of_operation (heq ▸ hop))
      · intro n hn
        apply h.labels
        intro hnew
        obtain ⟨a, rest, harguments, hkind, htext⟩ := label_argument hop hn
        exact hfresh.unused n hnew i hi a (by simp [harguments]) hkind htext

theorem Mirrors.step (h : m.Mirrors (p.IsNew name) m')
    (haccepts : ∀ attempts w, m.output.device.refusal attempts w = none) :
    (m.step p).1.Mirrors (p.IsNew name) (m'.step (p.relabel name)).1 ∧
      (m'.step (p.relabel name)).2 = (m.step p).2 := by
  have hpc := h.store.pc
  cases hi : p.get? m.pc with
  | none =>
    have hend : (p.relabel name).get? m'.pc = none := by rw [p.get_relabel, hpc, hi]; rfl
    rw [step_of_end hi, step_of_end hend]
    exact ⟨h, rfl⟩
  | some i =>
    have hget : (p.relabel name).get? m'.pc = some (i.relabel (name m.pc)) := by
      rw [p.get_relabel, hpc, hi]
      rfl
    have hadvance : ∀ j, (m.advance i).Mirrors (p.IsNew name) (m'.advance j) := by
      intro j
      exact ⟨h.store.advance i j, h.labels, h.output⟩
    rw [step_of_get hi, step_of_get hget]
    by_cases hbreak : i.IsBreak
    · rw [effect_of_isBreak hbreak, effect_relabel hbreak]
      have hr : (Effect.write ⟨.err, (m.advance i).report p i.order⟩).refusal (m.advance i) = none :=
        haccepts _ _
      have hnext := hadvance (i.relabel (name m.pc))
      simp only [settle, hr]
      exact ⟨⟨{ hnext.store with }, hnext.labels, hnext.output.reported haccepts _⟩, rfl⟩
    · rw [relabel_of_not_break hbreak, (hadvance i).effect hfresh (List.mem_of_getElem? hi) hbreak]
      cases i.effect p (m.advance i) with
      | error f => exact ⟨hadvance i, by simp only [settle, hpc]⟩
      | ok e =>
        obtain ⟨hnext, hr, hr'⟩ := (hadvance i).apply haccepts e
        simpa only [settle, hr, hr', and_true] using hnext

theorem Mirrors.execute (fuel : Nat) (h : m.Mirrors (p.IsNew name) m')
    (haccepts : ∀ attempts w, m.output.device.refusal attempts w = none) :
    (m.execute p fuel).1.Mirrors (p.IsNew name) (m'.execute (p.relabel name) fuel).1 ∧
      (m'.execute (p.relabel name) fuel).2 = (m.execute p fuel).2 := by
  unfold Machine.execute
  rcases hfresh.collect with ⟨f, hf, hf'⟩ | ⟨t, t', ht, ht', hagree⟩
  · rw [hf, hf']
    exact ⟨h, rfl⟩
  · rw [ht, ht']
    have hrelated := @run_related p (p.relabel name)
      (fun n n' => n.Mirrors (p.IsNew name) n' ∧ ∀ attempts w, n.output.device.refusal attempts w = none)
      ?_ fuel { m with labels := t } { m' with labels := t' } ⟨⟨{ h.store with }, hagree, h.output⟩, haccepts⟩
    · exact ⟨hrelated.1.1, hrelated.2⟩
    · intro n n' hn
      obtain ⟨hnext, ho⟩ := hn.1.step hfresh hn.2
      refine ⟨⟨hnext, ?_⟩, ho⟩
      rw [step_device]
      exact hn.2

end

end Machine

/-- A program with a fresh `LABEL` in place of each `BREAK` runs in step with it, but for the new labels and
what is written to the diagnostic stream. -/
theorem break_transparent (p : Program) (name : Nat → String) (hfresh : p.Fresh name) (input : Input)
    (device : Device) (haccepts : ∀ attempts w, device.refusal attempts w = none) (fuel : Nat) :
    let result := p.run fuel input device
    let result' := (p.relabel name).run fuel input device
    result.1.SameStore result'.1 ∧ result'.2 = result.2 ∧
      result'.1.output.writes.filter (·.stream = .out) = result.1.output.writes.filter (·.stream = .out) ∧
      result'.1.output.text .out = result.1.output.text .out ∧
      Labels.AgreeBut (p.IsNew name) result.1.labels result'.1.labels := by
  intro result result'
  have hstart : (Machine.start input device).Mirrors (p.IsNew name) (Machine.start input device) :=
    ⟨⟨rfl, rfl, rfl, rfl, rfl, rfl, rfl⟩, fun _ _ => rfl, ⟨rfl, rfl, rfl, fun _ => rfl⟩⟩
  obtain ⟨hmirrors, ho⟩ := hstart.execute hfresh fuel haccepts
  have hresult : result = _ := Program.run_eq p fuel input device
  have hresult' : result' = _ := Program.run_eq (p.relabel name) fuel input device
  rw [hresult, hresult', ho, Program.flushed_of_length (p.length_relabel name)]
  refine ⟨{ hmirrors.store with }, rfl, hmirrors.output.out, ?_, hmirrors.labels⟩
  exact congrArg (fun ws => Text.concat (ws.map (·.text))) hmirrors.output.out

/-- Reports twice, and ends with a `BREAK` that has an argument and fails. -/
def reporting : Program where
  instructions := [
    ⟨1, .break, []⟩,
    ⟨2, .jump, [⟨0, .label, "end"⟩]⟩,
    ⟨3, .write, [⟨0, .literal .string, "skipped"⟩]⟩,
    ⟨4, .label, [⟨0, .label, "end"⟩]⟩,
    ⟨5, .break, []⟩,
    ⟨6, .write, [⟨0, .literal .string, "written"⟩]⟩,
    ⟨7, .break, [⟨0, .label, "end"⟩]⟩]
  ordered := by decide
  positive := by decide
  placed := by decide

def reportingNames (k : Nat) : String := if k = 0 then "first" else "second"

theorem reporting_fresh : reporting.Fresh reportingNames := by
  have hname : ∀ k, reportingNames k = "first" ∨ reportingNames k = "second" := by
    intro k
    unfold reportingNames
    by_cases h : k = 0 <;> simp [h]
  have hplace : ∀ k i, reporting.get? k = some i → i.IsBreak → k = 0 ∨ k = 4 := by
    intro k i hi hbreak
    have hall : ∀ k < 7, ∀ i ∈ reporting.get? k, i.IsBreak → k = 0 ∨ k = 4 := by decide
    exact hall k (List.getElem?_eq_some_iff.mp hi).1 i hi hbreak
  refine ⟨?_, ?_, ?_⟩
  · intro k i _ _
    rcases hname k with h | h <;> simp [h]
  · rintro n ⟨k, -, -, -, rfl⟩
    rcases hname k with h | h <;> rw [h] <;> decide
  · intro k l i j hi hbreak hj hbreak' heq
    rcases hplace k i hi hbreak with rfl | rfl <;> rcases hplace l j hj hbreak' with rfl | rfl
    · rfl
    · exact absurd heq (by decide)
    · exact absurd heq (by decide)
    · rfl

theorem reporting_transparent :
    let result' := (reporting.relabel reportingNames).run 9 Input.empty Device.reliable
    result'.2 = some (.error ⟨6, .wrongArity .break 1⟩) ∧ result'.1.pc = 7 ∧
      result'.1.output.text .out = "written" ∧ result'.1.output.text .err = "" := by
  intro result'
  obtain ⟨hstore, ho, -, hout, -⟩ := break_transparent reporting reportingNames reporting_fresh Input.empty
    Device.reliable (fun _ _ => rfl) 9
  refine ⟨ho.trans ?_, hstore.pc.trans ?_, hout.trans ?_, ?_⟩
  · decide +kernel
  · decide +kernel
  · decide +kernel
  · decide +kernel

end FrameMachine
