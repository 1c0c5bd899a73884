/-! # Equality of texts up to the case of ASCII letters -/

namespace FrameMachine.Text

def sameLetters (s t : List Char) : Bool :=
  s.map Char.toLower == t.map Char.toLower

end FrameMachine.Text
