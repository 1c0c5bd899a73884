import FrameMachine.Argument
import FrameMachine.Sort
import FrameMachine.Text.Join

/-! # Instructions and programs

A program is a list of instructions in the order of their order numbers. `Program.ofInstructions` puts
a list in that order, or names what is wrong with it. -/

namespace FrameMachine

structure Instruction where
  order : Int
  opcode : Opcode
  arguments : List Argument
deriving DecidableEq

namespace Instruction

/-- An instruction with its arguments put in the order of their positions. -/
def make (order : Int) (opcode : Opcode) (arguments : List Argument) : Instruction :=
  ⟨order, opcode, sortOn (fun a => a.position) arguments⟩

/-- The argument at a position. -/
def argument? (i : Instruction) (p : Nat) : Option Argument :=
  i.arguments[p]?.filter (·.position = p)

/-- The instruction as it is written in source code. -/
def source (i : Instruction) : String :=
  i.opcode.mnemonic ++ Text.concat (i.arguments.map fun a => " " ++ a.source)

end Instruction

/-- The first place, counted from `p`, at which an argument does not have its place as position. -/
def firstGap : Nat → List Argument → Option Nat
  | _, [] => none
  | p, a :: as => if a.position = p then firstGap (p + 1) as else some p

/-- What is wrong with an instruction on its own. -/
def Instruction.defect? (i : Instruction) : Option Defect :=
  if i.order ≤ 0 then some (.invalidOrder i.order)
  else (firstGap 0 i.arguments).map (.argumentGap i.order)

/-- The first number that is followed by itself. -/
def firstRepeat : List Int → Option Int
  | a :: b :: rest => if a = b then some a else firstRepeat (b :: rest)
  | _ => none

theorem firstGap_eq_none {as : List Argument} {p : Nat} (h : firstGap p as = none) :
    as.map (·.position) = List.range' p as.length := by
  induction as generalizing p with
  | nil => rfl
  | cons a as ih =>
    by_cases hp : a.position = p
    · simp only [firstGap, hp, ite_true] at h
      simp [List.range'_succ, hp, ih h]
    · simp [firstGap, hp] at h

theorem pairwise_lt_of_firstRepeat {l : List Int} (hs : l.Pairwise (· ≤ ·))
    (h : firstRepeat l = none) : l.Pairwise (· < ·) := by
  induction l with
  | nil => exact .nil
  | cons a as ih =>
    cases as with
    | nil => simp
    | cons b bs =>
      by_cases hab : a = b
      · simp [firstRepeat, hab] at h
      · simp only [firstRepeat, hab, ite_false] at h
        rw [List.pairwise_cons] at hs
        have hlt : a < b := by
          have := hs.1 b (by simp)
          omega
        refine List.pairwise_cons.2 ⟨?_, ih hs.2 h⟩
        intro x hx
        rcases List.mem_cons.1 hx with rfl | hx
        · exact hlt
        · have := (List.pairwise_cons.1 hs.2).1 x hx
          omega

/-! ## Programs -/

structure Program where
  instructions : List Instruction
  ordered : instructions.Pairwise (·.order < ·.order)
  positive : ∀ i ∈ instructions, 0 < i.order
  placed : ∀ i ∈ instructions, i.arguments.map (·.position) = List.range i.arguments.length
deriving DecidableEq

namespace Program

/-- The instructions of a list by increasing order number. -/
def arrange (l : List Instruction) : List Instruction := sortOn (·.order) l

/-- The program of a list of instructions. Defects of single instructions are reported before a
repeated order number, and the first instruction of the list that has one decides. -/
def ofInstructions (l : List Instruction) : Except Defect Program :=
  match hd : l.findSome? Instruction.defect? with
  | some d => .error d
  | none =>
    match hr : firstRepeat ((arrange l).map (·.order)) with
    | some order => .error (.duplicateOrder order)
    | none =>
      have sound : ∀ i ∈ arrange l, i.defect? = none := fun i hi =>
        List.findSome?_eq_none_iff.1 hd i (mem_sortOn.1 hi)
      .ok {
        instructions := arrange l
        ordered := by
          have h := pairwise_lt_of_firstRepeat (List.pairwise_map.2 (pairwise_sortOn _ l)) hr
          exact List.pairwise_map.1 h
        positive := by
          intro i hi
          have h := sound i hi
          unfold Instruction.defect? at h
          split at h
          · cases h
          · omega
        placed := by
          intro i hi
          have h := sound i hi
          unfold Instruction.defect? at h
          split at h
          · cases h
          · rw [List.range_eq_range']
            exact firstGap_eq_none (Option.map_eq_none_iff.1 h) }

def length (p : Program) : Nat := p.instructions.length

/-- The instruction at an index. -/
def get? (p : Program) (i : Nat) : Option Instruction := p.instructions[i]?

end Program

end FrameMachine
