import FrameMachine.Proofs.Dispatch

/-!
# The labels of a program

Every entry of a collected table is a `LABEL` of the program at its index (`entry_of_collect`), and
every `LABEL` is found at its own index (`find_of_collect`), so that a name has one place only and the
table as many entries as there are `LABEL`s (`size_of_collect`).
-/

namespace FrameMachine

def Instruction.IsLabel (i : Instruction) (name : String) : Prop :=
  i.opcode = .label ∧ ∃ a, i.arguments = [a] ∧ a.kind = .label ∧ a.text = name

theorem isLabel_of_operation {i : Instruction} {name : String} (h : i.operation = .ok (.label name)) :
    i.IsLabel name := by
  have hop : i.opcode = .label := (opcode_of_operation h).symm
  obtain ⟨os, hfits, hall, -⟩ := ofOperands_of_operation h
  obtain ⟨a, rest, has, hkind, htext⟩ := label_argument h rfl
  have hlength : i.arguments.length = 1 := by
    rw [hall.length_eq, hfits.length_eq, hop]
    rfl
  rw [has, List.length_cons, Nat.succ.injEq, List.length_eq_zero_iff] at hlength
  exact ⟨hop, a, by rw [has, hlength], hkind, htext⟩

theorem Instruction.IsLabel.name_eq {i : Instruction} {name name' : String} (h : i.IsLabel name)
    (h' : i.IsLabel name') : name = name' := by
  obtain ⟨-, a, ha, -, rfl⟩ := h
  obtain ⟨-, b, hb, -, rfl⟩ := h'
  rw [ha, List.singleton_inj] at hb
  rw [hb]

namespace Labels

theorem operation_of_labelName {i : Instruction} {name : String} (h : labelName i = .ok name) :
    i.operation = .ok (.label name) := by
  unfold labelName at h
  obtain ⟨op, hop, h⟩ := ok_of_bind h
  split at h
  · cases h
    exact hop
  · cases h

/-! ## Definitions -/

theorem define_cases {t t' : Labels} {name : String} {index : Nat} (h : t.define name index = .ok t') :
    (t.find? name = none ∧ t' = ⟨t.entries ++ [(name, index)]⟩) ∨ t.find? name = some index ∧ t' = t := by
  rw [define_eq] at h
  split at h
  · rename_i hnone
    cases h
    exact Or.inl ⟨hnone, rfl⟩
  · rename_i first hsome
    split at h
    · rename_i hfirst
      cases h
      exact Or.inr ⟨hfirst ▸ hsome, rfl⟩
    · cases h

theorem find_define {t t' : Labels} {name : String} {index : Nat} (h : t.define name index = .ok t') :
    t'.find? name = some index := by
  rcases define_cases h with ⟨hnone, rfl⟩ | ⟨hsome, rfl⟩
  · unfold find? at hnone ⊢
    simp [List.lookup_append, hnone]
  · exact hsome

theorem find_of_define {t t' : Labels} {name : String} {index : Nat} (h : t.define name index = .ok t')
    {n : String} {k : Nat} (hk : t.find? n = some k) : t'.find? n = some k := by
  rcases define_cases h with ⟨-, rfl⟩ | ⟨-, rfl⟩
  · unfold find? at hk ⊢
    simp [List.lookup_append, hk]
  · exact hk

theorem mem_define {t t' : Labels} {name : String} {index : Nat} (h : t.define name index = .ok t')
    {e : String × Nat} (he : e ∈ t'.entries) : e ∈ t.entries ∨ e = (name, index) := by
  rcases define_cases h with ⟨-, rfl⟩ | ⟨-, rfl⟩
  · simpa using he
  · exact Or.inl he

/-! ## Lists of instructions -/

/-- The second table is the first with the labels of instructions that stand from an index on. -/
inductive Adds : Labels → Nat → List Instruction → Labels → Prop
  | nil {t : Labels} {k : Nat} : Adds t k [] t
  | label {t t' t'' : Labels} {k : Nat} {i : Instruction} {is : List Instruction} {name : String} :
      i.operation = .ok (.label name) → t.define name k = .ok t' → Adds t' (k + 1) is t'' →
      Adds t k (i :: is) t''
  | other {t t' : Labels} {k : Nat} {i : Instruction} {is : List Instruction} : i.opcode ≠ .label →
      Adds t (k + 1) is t' → Adds t k (i :: is) t'

theorem adds_of_addAll {is : List Instruction} {t t' : Labels} {k : Nat} (h : t.addAll k is = .ok t') :
    Adds t k is t' := by
  induction is generalizing t k with
  | nil =>
    cases h
    exact .nil
  | cons i is ih =>
    rw [addAll] at h
    by_cases hop : i.opcode = .label
    · rw [if_pos hop] at h
      split at h
      · cases h
      · rename_i name hname
        split at h
        · cases h
        · rename_i t₁ ht₁
          exact .label (operation_of_labelName hname) ht₁ (ih h)
    · rw [if_neg hop] at h
      exact .other hop (ih h)

section
variable {t t' : Labels} {k : Nat} {is : List Instruction} (h : Adds t k is t')
include h

theorem Adds.find_mono {n : String} {j : Nat} (hj : t.find? n = some j) : t'.find? n = some j := by
  induction h with
  | nil => exact hj
  | label _ hdefine _ ih => exact ih (find_of_define hdefine hj)
  | other _ _ ih => exact ih hj

theorem Adds.mem {e : String × Nat} (he : e ∈ t'.entries) :
    e ∈ t.entries ∨ ∃ j i, is[j]? = some i ∧ i.operation = .ok (.label e.1) ∧ e.2 = k + j := by
  induction h with
  | nil => exact Or.inl he
  | @label t t₁ t₂ k i is name hop hdefine _ ih =>
    rcases ih he with he | ⟨j, i', hi', hop', hj⟩
    · rcases mem_define hdefine he with he | rfl
      · exact Or.inl he
      · exact Or.inr ⟨0, i, rfl, hop, rfl⟩
    · exact Or.inr ⟨j + 1, i', hi', hop', by omega⟩
  | other _ _ ih =>
    rcases ih he with he | ⟨j, i', hi', hop', hj⟩
    · exact Or.inl he
    · exact Or.inr ⟨j + 1, i', hi', hop', by omega⟩

theorem Adds.find {j : Nat} {i : Instruction} (hi : is[j]? = some i) (hop : i.opcode = .label) :
    ∃ name, i.operation = .ok (.label name) ∧ t'.find? name = some (k + j) := by
  induction h generalizing j with
  | nil => cases hi
  | label hname hdefine hrest ih =>
    cases j with
    | zero =>
      cases hi
      exact ⟨_, hname, hrest.find_mono (find_define hdefine)⟩
    | succ j =>
      obtain ⟨name, hname, hfind⟩ := ih hi
      exact ⟨name, hname, by rw [hfind]; congr 1; omega⟩
  | other hne _ ih =>
    cases j with
    | zero =>
      cases hi
      exact absurd hop hne
    | succ j =>
      obtain ⟨name, hname, hfind⟩ := ih hi
      exact ⟨name, hname, by rw [hfind]; congr 1; omega⟩

theorem Adds.size (hbelow : ∀ e ∈ t.entries, e.2 < k) :
    t'.size = t.size + is.countP (·.opcode = .label) := by
  induction h with
  | nil => rfl
  | @label t t₁ t₂ k i is name hop hdefine _ ih =>
    have hlabel : i.opcode = .label := (opcode_of_operation hop).symm
    rcases define_cases hdefine with ⟨-, rfl⟩ | ⟨hsome, -⟩
    · have hbelow' : ∀ e ∈ t.entries ++ [(name, k)], e.2 < k + 1 := by
        intro e he
        rcases List.mem_append.mp he with he | he
        · exact Nat.lt_succ_of_lt (hbelow e he)
        · rw [List.mem_singleton.mp he]
          exact Nat.lt_succ_self k
      rw [ih hbelow', List.countP_cons]
      simp only [Labels.size, List.length_append, List.length_singleton, hlabel, decide_true, ite_true]
      omega
    · obtain ⟨before, after, hentries, -⟩ := List.lookup_eq_some_iff.mp hsome
      exact absurd (hbelow (name, k) (by simp [hentries])) (Nat.lt_irrefl k)
  | @other t t' k i is hne _ ih =>
    rw [ih fun e he => Nat.lt_succ_of_lt (hbelow e he), List.countP_cons]
    simp [hne]

end

/-! ## Programs -/

section
variable {p : Program} {t : Labels} (h : collect p = .ok t)
include h

theorem entry_of_collect {name : String} {index : Nat} (he : (name, index) ∈ t.entries) :
    ∃ i, p.get? index = some i ∧ i.IsLabel name := by
  rcases (adds_of_addAll h).mem he with he | ⟨j, i, hi, hop, hj⟩
  · cases he
  · obtain rfl : index = j := by simpa using hj
    exact ⟨i, hi, isLabel_of_operation hop⟩

theorem find_of_collect {i : Instruction} {index : Nat} {name : String} (hi : p.get? index = some i)
    (hlabel : i.IsLabel name) : t.find? name = some index := by
  obtain ⟨name', hop, hfind⟩ := (adds_of_addAll h).find hi hlabel.1
  rw [hlabel.name_eq (isLabel_of_operation hop)]
  simpa using hfind

theorem label_of_find {name : String} {index : Nat} (hfind : t.find? name = some index) :
    ∃ i, p.get? index = some i ∧ i.IsLabel name := by
  obtain ⟨before, after, hentries, -⟩ := List.lookup_eq_some_iff.mp hfind
  exact entry_of_collect h (by simp [hentries])

theorem size_of_collect : t.size = p.instructions.countP (·.opcode = .label) := by
  have hsize := (adds_of_addAll h).size (by simp [empty])
  simpa [empty, size] using hsize

end

end Labels

end FrameMachine
