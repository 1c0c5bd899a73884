import FrameMachine.Program
import Mathlib.Data.List.Basic

/-!
# Instructions that are already in order

A list of instructions with increasing positive order numbers, whose arguments stand at their
positions, is a program as it is (`ofInstructions_eq_ok`).
-/

namespace FrameMachine

theorem insertOn_of_le {α : Type} {key : α → Int} {a : α} {l : List α} (h : ∀ b ∈ l, key a ≤ key b) :
    insertOn key a l = a :: l := by
  cases l with
  | nil => rfl
  | cons b l => simp [insertOn, h b (List.mem_cons_self ..)]

theorem sortOn_eq_self {α : Type} {key : α → Int} {l : List α} (h : l.Pairwise (key · ≤ key ·)) :
    sortOn key l = l := by
  induction l with
  | nil => rfl
  | cons a l ih =>
    obtain ⟨ha, hl⟩ := List.pairwise_cons.mp h
    rw [sortOn, ih hl, insertOn_of_le ha]

theorem firstGap_of_placed {as : List Argument} {p : Nat}
    (h : as.map (·.position) = List.range' p as.length) : firstGap p as = none := by
  induction as generalizing p with
  | nil => rfl
  | cons a as ih =>
    rw [List.map_cons, List.length_cons, List.range'_succ, List.cons.injEq] at h
    rw [firstGap, if_pos h.1, ih h.2]

theorem firstRepeat_of_pairwise {l : List Int} (h : l.Pairwise (· < ·)) : firstRepeat l = none := by
  induction l with
  | nil => rfl
  | cons a l ih =>
    cases l with
    | nil => rfl
    | cons b l =>
      obtain ⟨ha, hl⟩ := List.pairwise_cons.mp h
      have hne : a ≠ b := Int.ne_of_lt (ha b (List.mem_cons_self ..))
      rw [firstRepeat, if_neg hne, ih hl]

theorem defect_of_sound {i : Instruction} (hpos : 0 < i.order)
    (hplaced : i.arguments.map (·.position) = List.range i.arguments.length) : i.defect? = none := by
  unfold Instruction.defect?
  rw [List.range_eq_range'] at hplaced
  rw [if_neg (by omega), firstGap_of_placed hplaced, Option.map_none]

theorem make_of_placed {order : Int} {op : Opcode} {as : List Argument} {p : Nat}
    (h : as.map (·.position) = List.range' p as.length) :
    Instruction.make order op as = ⟨order, op, as⟩ := by
  have hsorted : as.Pairwise fun a b => (a.position : Int) ≤ b.position := by
    have hlt : (List.range' p as.length).Pairwise (· < ·) := List.pairwise_lt_range'
    rw [← h, List.pairwise_map] at hlt
    exact hlt.imp fun hab => by omega
  unfold Instruction.make
  rw [sortOn_eq_self hsorted]

namespace Program

theorem ofInstructions_eq_ok {l : List Instruction} (ordered : l.Pairwise (·.order < ·.order))
    (positive : ∀ i ∈ l, 0 < i.order)
    (placed : ∀ i ∈ l, i.arguments.map (·.position) = List.range i.arguments.length) :
    ofInstructions l = .ok ⟨l, ordered, positive, placed⟩ := by
  have hsorted : arrange l = l := sortOn_eq_self (ordered.imp Int.le_of_lt)
  have hdefect : l.findSome? Instruction.defect? = none :=
    List.findSome?_eq_none_iff.mpr fun i hi => defect_of_sound (positive i hi) (placed i hi)
  have hrepeat : firstRepeat ((arrange l).map (·.order)) = none := by
    rw [hsorted]
    exact firstRepeat_of_pairwise (List.pairwise_map.mpr ordered)
  unfold ofInstructions
  split
  · rename_i d hd
    rw [hdefect] at hd
    cases hd
  · split
    · rename_i o ho
      rw [hrepeat] at ho
      cases ho
    · simp only [hsorted]

theorem ofInstructions_instructions (p : Program) : ofInstructions p.instructions = .ok p :=
  ofInstructions_eq_ok p.ordered p.positive p.placed

end Program

end FrameMachine
