/-! # Concatenation of texts -/

namespace FrameMachine.Text

def concat : List String → String
  | [] => ""
  | s :: ss => s ++ concat ss

/-- The texts with a separator between each two of them. -/
def join (separator : String) : List String → String
  | [] => ""
  | [s] => s
  | s :: ss => s ++ separator ++ join separator ss

theorem toList_concat (ss : List String) : (concat ss).toList = ss.flatMap String.toList := by
  induction ss with
  | nil => rfl
  | cons s ss ih => simp [concat, ih]

end FrameMachine.Text
