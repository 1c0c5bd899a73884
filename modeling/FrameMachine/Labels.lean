import FrameMachine.Operation

/-! # Labels

The labels of a program are collected before it runs. A label may be defined again only at the index
where it already is. -/

namespace FrameMachine

structure Labels where
  entries : List (String × Nat)
deriving DecidableEq

namespace Labels

def empty : Labels := ⟨[]⟩

def find? (t : Labels) (name : String) : Option Nat := t.entries.lookup name

def size (t : Labels) : Nat := t.entries.length

/-- Puts a name into the table. A call that fails leaves the table with the changes it has made. -/
def record (name : String) (index : Nat) : EStateM Failure Labels Unit := do
  match (← get).find? name with
  | none => modify fun t => ⟨t.entries ++ [(name, index)]⟩
  | some first =>
    if first ≠ index then
      throw ⟨index, .labelRedefined name first⟩

def define (t : Labels) (name : String) (index : Nat) : Except Failure Labels :=
  match record name index t with
  | .ok _ t' => .ok t'
  | .error f _ => .error f

theorem record_run (name : String) (index : Nat) (t : Labels) :
    record name index t = match t.find? name with
      | none => .ok () ⟨t.entries ++ [(name, index)]⟩
      | some first => if first = index then .ok () t else .error ⟨index, .labelRedefined name first⟩ t := by
  show (match t.find? name with
    | none => modify fun t => ⟨t.entries ++ [(name, index)]⟩
    | some first => if first ≠ index then throw ⟨index, .labelRedefined name first⟩ else pure () :
      EStateM Failure Labels Unit) t = _
  cases t.find? name with
  | none => rfl
  | some first =>
    by_cases h : first = index
    · simp only [h, ne_eq, not_true_eq_false, ite_false, ite_true]
      rfl
    · simp only [h, ne_eq, not_false_eq_true, ite_false, ite_true]
      rfl

theorem define_eq (t : Labels) (name : String) (index : Nat) :
    t.define name index = match t.find? name with
      | none => .ok ⟨t.entries ++ [(name, index)]⟩
      | some first => if first = index then .ok t else .error ⟨index, .labelRedefined name first⟩ := by
  rw [define, record_run]
  cases t.find? name with
  | none => rfl
  | some first => by_cases h : first = index <;> simp [h]

/-- The name that a `LABEL` instruction defines. -/
def labelName (i : Instruction) : Except Fault String := do
  match ← i.operation with
  | .label name => return name
  | _ => throw (.internal "instruction defines no label")

/-- Adds the labels of instructions that stand from an index on. -/
def addAll (t : Labels) : Nat → List Instruction → Except Failure Labels
  | _, [] => .ok t
  | k, i :: is =>
    if i.opcode = .label then
      match labelName i with
      | .error f => .error ⟨k, f⟩
      | .ok name =>
        match t.define name k with
        | .error f => .error f
        | .ok t => addAll t (k + 1) is
    else addAll t (k + 1) is

def collect (p : Program) : Except Failure Labels := empty.addAll 0 p.instructions

end Labels

end FrameMachine
