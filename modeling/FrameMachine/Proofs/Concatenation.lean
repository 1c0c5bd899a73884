import FrameMachine.Proofs.SourceReading
import FrameMachine.Proofs.TextLines

/-!
# Source code in two parts

The lines of a text that ends with a line end and of the text after it are the lines of both, so a program in two
parts is loaded part by part: the second one as if it stood after a header of its own, with later order numbers and
line numbers. What is wrong with the first part is reported before the second is looked at.
-/

namespace FrameMachine

theorem textLines_append {as : List Char} (h : Text.Closed '\n' as) (bs : List Char) :
    Text.textLines (as ++ bs) = Text.textLines as ++ Text.textLines bs := by
  simp only [Text.textLines, Text.lines_eq_map_chomp, Text.cut_append h, List.map_append]

theorem length_textLines {as : List Char} (h : Text.Closed '\n' as) :
    (Text.textLines as).length = as.count '\n' := by
  rw [Text.textLines, Text.lines_eq_map_chomp, List.length_map, Text.length_cut h]

namespace Source

theorem read_append (count count' : Nat) (l : SourceLine) (ls ms : List SourceLine) :
    read count' (l :: ls ++ ms) = do
      let is ← read count (l :: ls)
      let js ← SourceLine.instructions (1 + ls.length) ms
      return is ++ js := by
  rw [List.cons_append, read, read]
  by_cases hheader : l.isHeader = true
  · simp only [hheader, ite_true]
    exact SourceLine.instructions_append 1 ls ms
  · simp only [hheader, Bool.false_eq_true, ite_false]
    rfl

theorem length_read {count : Nat} {l : SourceLine} {ls : List SourceLine} {is : List Instruction}
    (h : read count (l :: ls) = .ok is) : is.length = ls.length := by
  rw [read] at h
  split at h
  · exact SourceLine.length_instructions h
  · cases h

end Source

theorem ofLines_header (b : String) :
    SourceLine.ofLines 1 (Text.textLines (".IPPcode24\n" ++ b).toList) =
      ⟨1, ".IPPcode24", []⟩ :: SourceLine.ofLines 2 (Text.textLines b.toList) := by
  have hheader : SourceLine.ofLines 1 (Text.textLines ".IPPcode24\n".toList) = [⟨1, ".IPPcode24", []⟩] := by decide
  have hlength : (Text.textLines ".IPPcode24\n".toList).length = 1 := by decide
  rw [String.toList_append, textLines_append (Or.inr (by decide)), SourceLine.ofLines_append, hheader, hlength]
  rfl

theorem instructions_moved (n d : Nat) (ls : List (List Char)) :
    SourceLine.instructions (1 + n) (SourceLine.ofLines (2 + d) ls) =
      ((SourceLine.instructions 1 (SourceLine.ofLines 2 ls)).map (List.map (Instruction.later n))).mapError
        (·.respell (· + d) id) := by
  rw [SourceLine.ofLines_add, @SourceLine.instructions_respell (· + d) id fun _ => rfl,
    SourceLine.instructions_later]

/-- Source code after whole lines of other source code loads as if it stood below a header of its own, with
orders and line numbers moved on. -/
theorem load_append (a b : String) (hend : a.toList.getLast? = some '\n')
    (hline : ∃ l ∈ Text.textLines a.toList, ¬ Source.Vacant l) :
    (∀ e, Program.load a = .error e → Program.load (a ++ b) = .error e) ∧
      (∀ p q, Program.load a = .ok p → Program.load (".IPPcode24\n" ++ b) = .ok q →
        ∃ r, Program.load (a ++ b) = .ok r ∧
          r.instructions = p.instructions ++ q.instructions.map (Instruction.later p.length)) ∧
      ∀ p e, Program.load a = .ok p → Program.load (".IPPcode24\n" ++ b) = .error e →
        Program.load (a ++ b) = .error (e.respell (· + (a.toList.count '\n' - 1)) id) := by
  have hclosed : Text.Closed '\n' a.toList := Or.inr hend
  obtain ⟨l, ls, hlines⟩ : ∃ l ls, SourceLine.ofLines 1 (Text.textLines a.toList) = l :: ls := by
    apply List.exists_cons_of_ne_nil
    rw [ne_eq, SourceLine.ofLines_eq_nil_iff]
    simpa using hline
  obtain ⟨d, hd⟩ : ∃ d, a.toList.count '\n' = d + 1 := by
    have hmem : '\n' ∈ a.toList := List.mem_of_getLast? hend
    exact Nat.exists_eq_succ_of_ne_zero (List.count_pos_iff.mpr hmem).ne'
  have hboth : SourceLine.ofLines 1 (Text.textLines (a ++ b).toList) =
      l :: ls ++ SourceLine.ofLines (2 + d) (Text.textLines b.toList) := by
    rw [String.toList_append, textLines_append hclosed, SourceLine.ofLines_append, hlines,
      length_textLines hclosed, hd]
    congr 2
    omega
  have hread := Source.read_append (Text.textLines a.toList).length (Text.textLines (a ++ b).toList).length l ls
    (SourceLine.ofLines (2 + d) (Text.textLines b.toList))
  rw [← hboth, ← hlines, instructions_moved] at hread
  have hlength : ∀ {p}, Program.load a = .ok p → p.length = ls.length := by
    intro p hp
    rw [load_ok_iff, hlines] at hp
    exact Source.length_read hp
  refine ⟨fun e he => ?_, fun p q hp hq => ?_, fun p e hp he => ?_⟩
  · rw [load_error_iff] at he ⊢
    rw [hread, he]
    rfl
  · rw [hlength hp]
    apply exists_load
    rw [load_ok_iff] at hp hq
    rw [ofLines_header, Source.read, if_pos (by decide)] at hq
    rw [hread, hp, hq]
    rfl
  · rw [load_error_iff, ofLines_header, Source.read, if_pos (by decide)] at he
    rw [load_ok_iff] at hp
    rw [load_error_iff, hread, hp, he, hd]
    rfl

/-- A blank line, the header in another case with a comment, and one instruction. -/
def firstPart : String := "\r\n.ippcode24 # twice\nBREAK\n"

theorem firstPart_appended :
    Program.load (firstPart ++ "\nLABEL end\nfoo") = .error (.unknownOpcode 6 "foo") ∧
      ∃ r, Program.load (firstPart ++ "\nLABEL end\n") = .ok r ∧ r.instructions.map (·.order) = [1, 2] := by
  have hline : ∃ l ∈ Text.textLines firstPart.toList, ¬ Source.Vacant l :=
    ⟨"BREAK".toList, by decide, fun h => absurd (h 'B' (by decide)) (by decide)⟩
  obtain ⟨p, hp, hone⟩ := Option.map_eq_some_iff.mp
    (by decide +kernel : (Program.load firstPart).toOption.map (·.instructions.map (·.order)) = some [1])
  obtain ⟨q, hq, htwo⟩ := Option.map_eq_some_iff.mp (by decide +kernel :
    (Program.load (".IPPcode24\n" ++ "\nLABEL end\n")).toOption.map (·.instructions.map (·.order)) = some [1])
  have herror : Program.load (".IPPcode24\n" ++ "\nLABEL end\nfoo") = .error (.unknownOpcode 4 "foo") := by
    decide +kernel
  refine ⟨(load_append firstPart _ (by decide) hline).2.2 p _ (load_of_toOption hp) herror, ?_⟩
  obtain ⟨r, hr, his⟩ := (load_append firstPart "\nLABEL end\n" (by decide) hline).2.1 p q
    (load_of_toOption hp) (load_of_toOption hq)
  have hlength : p.length = 1 := by simpa [Program.length] using congrArg List.length hone
  have hlater : (q.instructions.map (Instruction.later 1)).map (·.order) = [2] := by
    have hmap := congrArg (List.map (· + (1 : Int))) htwo
    rw [List.map_map] at hmap ⊢
    exact hmap
  exact ⟨r, hr, by rw [his, List.map_append, hone, hlength, hlater]; rfl⟩

end FrameMachine
