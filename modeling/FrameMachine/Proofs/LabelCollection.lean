import FrameMachine.Proofs.LabelTable

/-!
# Collecting labels

`Mislabels` tells at which index of a list a `LABEL` has no name, or a name that an earlier one has. The
labels of a program are collected exactly if there is no such index, and otherwise the least one is
reported (`collect_exact`). A name keeps the index that it was first defined at (`find_attempts`).
-/

namespace FrameMachine

/-- The arguments of a `LABEL` give it no name, for the reason that the fault states. -/
inductive Instruction.Nameless (i : Instruction) : Fault → Prop
  | arity : i.arguments.length ≠ 1 → Nameless i (.wrongArity .label i.arguments.length)
  | kind {a : Argument} : i.arguments = [a] → a.kind ≠ .label → Nameless i (.wrongOperand .label 0 .label a.kind)
  | empty {a : Argument} : i.arguments = [a] → a.kind = .label → a.text = "" →
      Nameless i (.malformed (.invalidLiteral .label ""))

namespace Labels

/-! ## Names -/

theorem labelName_of_nameless {i : Instruction} {f : Fault} (hop : i.opcode = .label) (h : i.Nameless f) :
    labelName i = .error f := by
  obtain ⟨order, opcode, arguments⟩ := i
  obtain rfl : opcode = .label := hop
  cases h with
  | arity hlength =>
    have harity : arguments.length ≠ Opcode.arity .label := hlength
    simp only [labelName, Instruction.operation, Instruction.checkShapes, harity, ne_eq, not_false_eq_true,
      ite_true]
    rfl
  | @kind a ha hkind =>
    obtain rfl : arguments = [a] := ha
    obtain ⟨position, kind, text⟩ := a
    cases kind with
    | label => exact absurd rfl hkind
    | var | type | literal => rfl
  | @empty a ha hkind htext =>
    obtain rfl : arguments = [a] := ha
    obtain ⟨position, kind, text⟩ := a
    obtain rfl : kind = .label := hkind
    obtain rfl : text = "" := htext
    rfl

theorem labelName_of_isLabel {i : Instruction} {name : String} (h : i.IsLabel name) (hname : name ≠ "") :
    labelName i = .ok name := by
  obtain ⟨order, opcode, arguments⟩ := i
  obtain ⟨hop, a, ha, hkind, htext⟩ := h
  obtain rfl : opcode = .label := hop
  obtain rfl : arguments = [a] := ha
  obtain ⟨position, kind, text⟩ := a
  obtain rfl : kind = .label := hkind
  obtain rfl : text = name := htext
  have hnonempty : text.isEmpty = false := by simpa using hname
  have hoperand : (⟨position, .label, text⟩ : Argument).operand = .ok (.label text) := by
    simp [Argument.operand, hnonempty]
  have hread : Instruction.readOperands [⟨position, .label, text⟩] = .ok [.label text] := by
    simp only [Instruction.readOperands, hoperand]
    rfl
  simp only [labelName, Instruction.operation, hread]
  rfl

theorem labelName_of_operation {i : Instruction} {name : String} (h : i.operation = .ok (.label name)) :
    labelName i = .ok name := by
  simp only [labelName, h]
  rfl

theorem named_or_nameless (i : Instruction) (hop : i.opcode = .label) :
    (∃ name, i.IsLabel name ∧ name ≠ "") ∨ ∃ f, i.Nameless f := by
  by_cases hlength : i.arguments.length = 1
  · obtain ⟨a, ha⟩ := List.length_eq_one_iff.mp hlength
    by_cases hkind : a.kind = .label
    · by_cases htext : a.text = ""
      · exact Or.inr ⟨_, .empty ha hkind htext⟩
      · exact Or.inl ⟨a.text, ⟨hop, a, ha, hkind, rfl⟩, htext⟩
    · exact Or.inr ⟨_, .kind ha hkind⟩
  · exact Or.inr ⟨_, .arity hlength⟩

theorem labelName_eq_ok_iff {i : Instruction} (hop : i.opcode = .label) {name : String} :
    labelName i = .ok name ↔ i.IsLabel name ∧ name ≠ "" := by
  refine ⟨fun h => ?_, fun h => labelName_of_isLabel h.1 h.2⟩
  rcases named_or_nameless i hop with ⟨name', hlabel, hname⟩ | ⟨f, hf⟩
  · rw [labelName_of_isLabel hlabel hname, Except.ok.injEq] at h
    exact h ▸ ⟨hlabel, hname⟩
  · rw [labelName_of_nameless hop hf] at h
    cases h

theorem labelName_eq_error_iff {i : Instruction} (hop : i.opcode = .label) {f : Fault} :
    labelName i = .error f ↔ i.Nameless f := by
  refine ⟨fun h => ?_, labelName_of_nameless hop⟩
  rcases named_or_nameless i hop with ⟨name', hlabel, hname⟩ | ⟨f', hf⟩
  · rw [labelName_of_isLabel hlabel hname] at h
    cases h
  · rw [labelName_of_nameless hop hf, Except.error.injEq] at h
    exact h ▸ hf

/-! ## Definitions -/

theorem define_eq_error_iff {t : Labels} {name : String} {index : Nat} {f : Failure} :
    t.define name index = .error f ↔
      ∃ first, t.find? name = some first ∧ first ≠ index ∧ f = ⟨index, .labelRedefined name first⟩ := by
  rw [define_eq]
  cases hfind : t.find? name with
  | none => simp
  | some first =>
    by_cases hfirst : first = index
    · simp [hfirst]
    · simp only [hfirst, ite_false, Except.error.injEq, Option.some.injEq, ne_eq, exists_eq_left',
        not_false_eq_true, true_and]
      exact eq_comm

theorem define_of_find {t : Labels} {name : String} {index : Nat} (h : t.find? name = some index) :
    t.define name index = .ok t := by
  simp [define_eq, h]

/-- The table as a call leaves it, whether or not the call fails. -/
def attempt (t : Labels) (call : String × Nat) : Labels :=
  match record call.1 call.2 t with
  | .ok _ t' => t'
  | .error _ t' => t'

def attempts (t : Labels) (calls : List (String × Nat)) : Labels := calls.foldl attempt t

theorem attempt_of_error {t : Labels} {call : String × Nat} {f : Failure} (h : t.define call.1 call.2 = .error f) :
    t.attempt call = t := by
  obtain ⟨first, hfind, hfirst, -⟩ := define_eq_error_iff.mp h
  simp [attempt, record_run, hfind, hfirst]

theorem find_attempt (t : Labels) (call : String × Nat) (name : String) :
    (t.attempt call).find? name = (t.find? name).or ([call].lookup name) := by
  rw [attempt, record_run]
  cases hfind : t.find? call.1 with
  | none => exact List.lookup_append
  | some first =>
    have hsame : t.find? name = (t.find? name).or ([call].lookup name) := by
      by_cases hname : name = call.1
      · rw [hname, hfind]
        rfl
      · obtain ⟨key, index⟩ := call
        rw [List.lookup_cons, beq_false_of_ne hname, List.lookup_nil, Option.or_none]
    by_cases hfirst : first = call.2
    · simpa [hfirst] using hsame
    · simpa [hfirst] using hsame

theorem find_attempts (t : Labels) (calls : List (String × Nat)) (name : String) :
    (t.attempts calls).find? name = (t.find? name).or (calls.lookup name) := by
  induction calls generalizing t with
  | nil => simp [attempts]
  | cons call calls ih =>
    have hsplit : ([call] ++ calls).lookup name = ([call].lookup name).or (calls.lookup name) := List.lookup_append
    have hrest := ih (t.attempt call)
    rw [find_attempt, Option.or_assoc, ← hsplit] at hrest
    exact hrest

/-! ## Lists of instructions -/

/-- The `LABEL` at the index has no name, or the name of an earlier one. -/
inductive Mislabels (is : List Instruction) : Nat → Fault → Prop
  | nameless {k : Nat} {i : Instruction} {f : Fault} : is[k]? = some i → i.opcode = .label → i.Nameless f →
      Mislabels is k f
  | repeated {j k : Nat} {i i' : Instruction} {name : String} : j < k → is[j]? = some i → i.IsLabel name →
      is[k]? = some i' → i'.IsLabel name → Mislabels is k (.labelRedefined name j)

theorem mislabels_append {is js : List Instruction} {k : Nat} {f : Fault} (hk : k < is.length) :
    Mislabels (is ++ js) k f ↔ Mislabels is k f := by
  constructor
  · intro h
    cases h with
    | nameless hi hop hf =>
      rw [List.getElem?_append_left hk] at hi
      exact .nameless hi hop hf
    | repeated hjk hi hname hi' hname' =>
      rw [List.getElem?_append_left hk] at hi'
      rw [List.getElem?_append_left (Nat.lt_trans hjk hk)] at hi
      exact .repeated hjk hi hname hi' hname'
  · intro h
    cases h with
    | nameless hi hop hf => exact .nameless (by rwa [List.getElem?_append_left hk]) hop hf
    | repeated hjk hi hname hi' hname' =>
      exact .repeated hjk (by rwa [List.getElem?_append_left (Nat.lt_trans hjk hk)]) hname
        (by rwa [List.getElem?_append_left hk]) hname'

theorem Adds.find_label {t t' : Labels} {k : Nat} {is : List Instruction} (h : Adds t k is t') {j : Nat}
    {i : Instruction} {name : String} (hi : is[j]? = some i) (hlabel : i.IsLabel name) :
    t'.find? name = some (k + j) := by
  obtain ⟨name', hop, hfind⟩ := h.find hi hlabel.1
  rwa [hlabel.name_eq (isLabel_of_operation hop)]

theorem Adds.not_mislabels {is : List Instruction} {t : Labels} (h : Adds empty 0 is t) {k : Nat} {f : Fault} :
    ¬ Mislabels is k f := by
  intro hbad
  cases hbad with
  | nameless hi hop hf =>
    obtain ⟨name, hname, -⟩ := h.find hi hop
    have hok := labelName_of_operation hname
    rw [labelName_of_nameless hop hf] at hok
    cases hok
  | repeated hjk hi hname hi' hname' =>
    have hj := h.find_label hi hname
    rw [h.find_label hi' hname', Option.some.injEq] at hj
    omega

theorem addAll_eq_error {is : List Instruction} {t : Labels} {k : Nat} {f : Failure}
    (h : t.addAll k is = .error f) :
    ∃ before i after t', is = before ++ i :: after ∧ Adds t k before t' ∧ i.opcode = .label ∧
      f.index = k + before.length ∧ (labelName i = .error f.fault ∨
        ∃ name first, labelName i = .ok name ∧ t'.find? name = some first ∧
          f.fault = .labelRedefined name first) := by
  induction is generalizing t k with
  | nil => cases h
  | cons i is ih =>
    rw [addAll] at h
    by_cases hop : i.opcode = .label
    · rw [if_pos hop] at h
      cases hname : labelName i with
      | error g =>
        rw [hname] at h
        obtain rfl := Except.error.inj h
        exact ⟨[], i, is, t, rfl, .nil, hop, rfl, Or.inl hname⟩
      | ok name =>
        simp only [hname] at h
        cases hdefine : t.define name k with
        | error g =>
          rw [hdefine] at h
          obtain rfl := Except.error.inj h
          obtain ⟨first, hfind, -, rfl⟩ := define_eq_error_iff.mp hdefine
          exact ⟨[], i, is, t, rfl, .nil, hop, rfl, Or.inr ⟨name, first, hname, hfind, rfl⟩⟩
        | ok t₁ =>
          rw [hdefine] at h
          obtain ⟨before, i', after, t', rfl, hadds, hop', hindex, hfault⟩ := ih h
          have hadds := Adds.label (operation_of_labelName hname) hdefine hadds
          refine ⟨i :: before, i', after, t', rfl, hadds, hop', ?_, hfault⟩
          rw [hindex, List.length_cons]
          omega
    · rw [if_neg hop] at h
      obtain ⟨before, i', after, t', rfl, hadds, hop', hindex, hfault⟩ := ih h
      refine ⟨i :: before, i', after, t', rfl, .other hop hadds, hop', ?_, hfault⟩
      rw [hindex, List.length_cons]
      omega

theorem Mislabels.first_unique {is : List Instruction} {k : Nat} (hleast : ∀ j < k, ∀ g, ¬ Mislabels is j g)
    {j j' : Nat} {i i' : Instruction} {name : String} (hj : j < k) (hi : is[j]? = some i) (hlabel : i.IsLabel name)
    (hj' : j' < k) (hi' : is[j']? = some i') (hlabel' : i'.IsLabel name) : j = j' := by
  rcases Nat.lt_trichotomy j j' with hlt | heq | hgt
  · exact absurd (.repeated hlt hi hlabel hi' hlabel') (hleast j' hj' _)
  · exact heq
  · exact absurd (.repeated hgt hi' hlabel' hi hlabel) (hleast j hj _)

theorem Mislabels.unique {is : List Instruction} {k : Nat} (hleast : ∀ j < k, ∀ g, ¬ Mislabels is j g) {f g : Fault}
    (hf : Mislabels is k f) (hg : Mislabels is k g) : f = g := by
  -- A repeated name is not empty, for the earlier `LABEL` would have no name either.
  have hnamed : ∀ {j : Nat} {i i' : Instruction} {name : String}, j < k → is[j]? = some i → i.IsLabel name →
      i'.IsLabel name → labelName i' = .ok name := by
    intro j i i' name hj hi hlabel hlabel'
    refine labelName_of_isLabel hlabel' fun hempty => ?_
    obtain ⟨hop, a, ha, hkind, htext⟩ := hlabel
    exact hleast j hj _ (.nameless hi hop (.empty ha hkind (htext.trans hempty)))
  cases hf with
  | nameless hi hop hf =>
    have herror := labelName_of_nameless hop hf
    cases hg with
    | nameless hi' hop' hg =>
      obtain rfl := Option.some.inj (hi.symm.trans hi')
      exact Except.error.inj (herror.symm.trans (labelName_of_nameless hop' hg))
    | repeated hjk hj hlabel hi' hlabel' =>
      obtain rfl := Option.some.inj (hi.symm.trans hi')
      rw [hnamed hjk hj hlabel hlabel'] at herror
      cases herror
  | repeated hjk hj hlabel hi hlabel' =>
    have hok := hnamed hjk hj hlabel hlabel'
    cases hg with
    | nameless hi' hop' hg =>
      obtain rfl := Option.some.inj (hi.symm.trans hi')
      rw [labelName_of_nameless hop' hg] at hok
      cases hok
    | repeated hjk' hj' hlabel₁ hi' hlabel₁' =>
      obtain rfl := Option.some.inj (hi.symm.trans hi')
      obtain rfl := hlabel'.name_eq hlabel₁'
      rw [first_unique hleast hjk hj hlabel hjk' hj' hlabel₁]

/-! ## Programs -/

theorem mislabels_of_collect {p : Program} {f : Failure} (h : collect p = .error f) :
    Mislabels p.instructions f.index f.fault ∧ ∀ k < f.index, ∀ g, ¬ Mislabels p.instructions k g := by
  obtain ⟨before, i, after, t, his, hadds, hop, hindex, hfault⟩ := addAll_eq_error h
  rw [Nat.zero_add] at hindex
  have hi : p.instructions[f.index]? = some i := by simp [his, hindex]
  constructor
  · rcases hfault with hfault | ⟨name, first, hname, hfind, hfault⟩
    · exact .nameless hi hop ((labelName_eq_error_iff hop).mp hfault)
    · -- The name was found among the labels of the instructions before.
      obtain ⟨hlabel, -⟩ := (labelName_eq_ok_iff hop).mp hname
      obtain ⟨_, _, hentries, -⟩ := List.lookup_eq_some_iff.mp hfind
      rcases hadds.mem (e := (name, first)) (by simp [hentries]) with hempty | ⟨j, i', hi', hop', hj⟩
      · cases hempty
      · rw [Nat.zero_add] at hj
        obtain rfl : first = j := hj
        have hlt : first < before.length := (List.getElem?_eq_some_iff.mp hi').1
        have hget : p.instructions[first]? = some i' := by rw [his, List.getElem?_append_left hlt, hi']
        rw [hfault]
        exact .repeated (by omega) hget (isLabel_of_operation hop') hi hlabel
  · intro k hk g hbad
    rw [his, mislabels_append (by omega)] at hbad
    exact hadds.not_mislabels hbad

theorem not_mislabels_of_collect {p : Program} {t : Labels} (h : collect p = .ok t) {k : Nat} {f : Fault} :
    ¬ Mislabels p.instructions k f :=
  (adds_of_addAll h).not_mislabels

theorem collect_eq_error_iff {p : Program} {f : Failure} : collect p = .error f ↔
    Mislabels p.instructions f.index f.fault ∧ ∀ k < f.index, ∀ g, ¬ Mislabels p.instructions k g := by
  refine ⟨mislabels_of_collect, fun ⟨hbad, hleast⟩ => ?_⟩
  cases hcollect : collect p with
  | ok t => exact absurd hbad (not_mislabels_of_collect hcollect)
  | error g =>
    obtain ⟨hbad', hleast'⟩ := mislabels_of_collect hcollect
    have hindex : g.index = f.index := by
      rcases Nat.lt_trichotomy g.index f.index with hlt | heq | hgt
      · exact absurd hbad' (hleast _ hlt _)
      · exact heq
      · exact absurd hbad (hleast' _ hgt _)
    rw [hindex] at hbad'
    obtain ⟨index, fault⟩ := f
    obtain ⟨index', fault'⟩ := g
    obtain rfl : index' = index := hindex
    obtain rfl : fault = fault' := Mislabels.unique hleast hbad hbad'
    rfl

/-- Each `LABEL` has a name, and no two have the same. -/
structure Labelled (p : Program) : Prop where
  named : ∀ i ∈ p.instructions, i.opcode = .label → ∃ a, i.arguments = [a] ∧ a.kind = .label ∧ a.text ≠ ""
  distinct : ∀ {j k : Nat} {i i' : Instruction} {name : String}, p.get? j = some i → i.IsLabel name →
    p.get? k = some i' → i'.IsLabel name → j = k

theorem collect_ok_iff {p : Program} : (∃ t, collect p = .ok t) ↔ Labelled p := by
  constructor
  · rintro ⟨t, ht⟩
    refine ⟨fun i hi hop => ?_, fun {j k i i' name} hi hlabel hi' hlabel' => ?_⟩
    · obtain ⟨k, hk⟩ := List.mem_iff_getElem?.mp hi
      rcases named_or_nameless i hop with ⟨name, ⟨-, a, ha, hkind, htext⟩, hname⟩ | ⟨f, hf⟩
      · exact ⟨a, ha, hkind, htext ▸ hname⟩
      · exact absurd (.nameless hk hop hf) (not_mislabels_of_collect ht)
    · exact Option.some.inj ((find_of_collect ht hi hlabel).symm.trans (find_of_collect ht hi' hlabel'))
  · intro h
    cases hcollect : collect p with
    | ok t => exact ⟨t, rfl⟩
    | error f =>
      exfalso
      have hbad := (mislabels_of_collect hcollect).1
      generalize f.index = k, f.fault = g at hbad
      cases hbad with
      | nameless hi hop hf =>
        obtain ⟨a, ha, hkind, htext⟩ := h.named _ (List.mem_of_getElem? hi) hop
        have hok := labelName_of_isLabel ⟨hop, a, ha, hkind, rfl⟩ htext
        rw [labelName_of_nameless hop hf] at hok
        cases hok
      | repeated hjk hi hlabel hi' hlabel' => exact absurd (h.distinct hi hlabel hi' hlabel') (Nat.ne_of_lt hjk)

theorem define_again {t : Labels} {calls : List (String × Nat)} (h : ∀ c ∈ calls, t.find? c.1 = some c.2) :
    calls.foldlM (fun t c => t.define c.1 c.2) t = .ok t := by
  induction calls with
  | nil => rfl
  | cons c calls ih =>
    obtain ⟨hc, hcalls⟩ := List.forall_mem_cons.mp h
    rw [List.foldlM_cons, define_of_find hc]
    exact ih hcalls

/-- What collecting the labels of a program gives, and what calls that define labels do to a table. -/
structure Collects (p : Program) : Prop where
  succeeds : (∃ t, collect p = .ok t) ↔ Labelled p
  finds : ∀ t, collect p = .ok t → ∀ name k, t.find? name = some k ↔ ∃ i, p.get? k = some i ∧ i.IsLabel name
  size : ∀ t, collect p = .ok t → t.size = p.instructions.countP (·.opcode = .label)
  again : ∀ t, collect p = .ok t → ∀ calls : List (String × Nat),
    (∀ c ∈ calls, ∃ i, p.get? c.2 = some i ∧ i.IsLabel c.1) → calls.foldlM (fun t c => t.define c.1 c.2) t = .ok t
  fails : ∀ f, collect p = .error f ↔
    Mislabels p.instructions f.index f.fault ∧ ∀ k < f.index, ∀ g, ¬ Mislabels p.instructions k g
  first : ∀ k name first, collect p = .error ⟨k, .labelRedefined name first⟩ →
    ∀ j < k, (∃ i, p.get? j = some i ∧ i.IsLabel name) ↔ j = first
  keeps : ∀ (t : Labels) (calls : List (String × Nat)) (name : String),
    (t.attempts calls).find? name = (t.find? name).or (calls.lookup name)
  unchanged : ∀ (t : Labels) (calls : List (String × Nat)) (c : String × Nat) (f : Failure),
    (t.attempts calls).define c.1 c.2 = .error f → t.attempts (calls ++ [c]) = t.attempts calls

theorem collect_exact (p : Program) : Collects p where
  succeeds := collect_ok_iff
  finds := fun t ht name k => ⟨label_of_find ht, fun ⟨i, hi, hlabel⟩ => find_of_collect ht hi hlabel⟩
  size := fun t => size_of_collect
  again := by
    intro t ht calls hcalls
    refine define_again fun c hc => ?_
    obtain ⟨i, hi, hlabel⟩ := hcalls c hc
    exact find_of_collect ht hi hlabel
  fails := fun f => collect_eq_error_iff
  first := by
    intro k name first h j hj
    obtain ⟨hbad, hleast⟩ := mislabels_of_collect h
    cases hbad with
    | nameless _ _ hf => cases hf
    | repeated hfirst hi hlabel _ _ =>
      constructor
      · rintro ⟨i', hi', hlabel'⟩
        exact Mislabels.first_unique hleast hj hi' hlabel' hfirst hi hlabel
      · rintro rfl
        exact ⟨_, hi, hlabel⟩
  keeps := find_attempts
  unchanged := by
    intro t calls c f h
    rw [attempts, List.foldl_append]
    exact attempt_of_error h

/-- Two labels, with the first of them again at the end if `again` is its name. -/
def labelsThen (again : String) : Program where
  instructions := [⟨1, .label, [⟨0, .label, "a"⟩]⟩, ⟨2, .createframe, []⟩, ⟨3, .label, [⟨0, .label, "b"⟩]⟩,
    ⟨4, .label, [⟨0, .label, again⟩]⟩]
  ordered := by simp
  positive := by simp
  placed := by simp [List.range, List.range.loop]

theorem labelsThen_collected :
    (∃ t, collect (labelsThen "c") = .ok t ∧ t.find? "b" = some 2 ∧
        [("c", 3), ("a", 0)].foldlM (fun t c => t.define c.1 c.2) t = .ok t) ∧
      collect (labelsThen "a") = .error ⟨3, .labelRedefined "a" 0⟩ ∧
        ¬ (∃ i, (labelsThen "a").get? 2 = some i ∧ i.IsLabel "a") ∧
        (empty.attempts [("a", 4), ("b", 1), ("a", 7)]).find? "a" = some 4 := by
  have hlabel : ∀ order name, (⟨order, .label, [⟨0, .label, name⟩]⟩ : Instruction).IsLabel name :=
    fun _ _ => ⟨rfl, _, rfl, rfl, rfl⟩
  have hgood : collect (labelsThen "c") = .ok ⟨[("a", 0), ("b", 2), ("c", 3)]⟩ := rfl
  have hbad : collect (labelsThen "a") = .error ⟨3, .labelRedefined "a" 0⟩ := rfl
  have hthree := collect_exact (labelsThen "c")
  have htwice := collect_exact (labelsThen "a")
  have hfind := (hthree.finds _ hgood "b" 2).mpr ⟨_, rfl, hlabel 3 "b"⟩
  refine ⟨⟨_, hgood, hfind, hthree.again _ hgood _ ?_⟩, hbad, ?_, ?_⟩
  · simp only [List.forall_mem_cons, List.not_mem_nil, false_imp_iff, implies_true, and_true]
    exact ⟨⟨_, rfl, hlabel 4 "c"⟩, ⟨_, rfl, hlabel 1 "a"⟩⟩
  · rw [htwice.first 3 "a" 0 hbad 2 (by decide)]
    decide
  · rw [htwice.keeps empty _ "a"]
    rfl

end Labels

end FrameMachine
