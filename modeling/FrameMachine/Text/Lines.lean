/-! # Lines

A line ends with a line feed, or with a carriage return and a line feed; the end is not part of the
line. What follows the last line feed is a line unless it is empty. -/

namespace FrameMachine.Text

/-- Puts a symbol in front of the first line. -/
def consLine {α : Type} (a : α) : List (List α) → List (List α)
  | [] => [[a]]
  | l :: ls => (a :: l) :: ls

/-- The lines of a sequence of symbols in which `cr` is the carriage return and `lf` the line feed. -/
def lines {α : Type} [DecidableEq α] (cr lf : α) : List α → List (List α)
  | [] => []
  | [a] => if a = lf then [[]] else [[a]]
  | a :: b :: rest =>
    if a = lf then [] :: lines cr lf (b :: rest)
    else if a = cr ∧ b = lf then [] :: lines cr lf rest
    else consLine a (lines cr lf (b :: rest))

/-- The lines of a text. -/
def textLines (cs : List Char) : List (List Char) := lines '\r' '\n' cs

end FrameMachine.Text
