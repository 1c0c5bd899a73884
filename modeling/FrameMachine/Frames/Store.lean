import FrameMachine.Fault
import FrameMachine.Frames.Frame

/-! # The frames of a running program

There is one global frame, a stack of local frames, and at most one temporary frame. A name that the
addressed frame does not declare is looked up in the local frames below it and then in the global
frame. -/

namespace FrameMachine

structure Frames where
  /-- The frame addressed as `GF`. -/
  global : Frame
  /-- The local frames, the topmost first. -/
  locals : List Frame
  /-- The frame addressed as `TF`. -/
  temporary : Option Frame
deriving DecidableEq

namespace Frames

def empty : Frames := ⟨Frame.empty, [], none⟩

/-! ## Creating and moving frames -/

def create (s : Frames) : Frames := { s with temporary := some Frame.empty }

/-- Makes the temporary frame the topmost local frame. -/
def push (s : Frames) : Except Fault Frames :=
  match s.temporary with
  | none => .error (.frameNotAvailable .tf)
  | some t => .ok { s with locals := t :: s.locals, temporary := none }

/-- Makes the topmost local frame the temporary frame. -/
def pop (s : Frames) : Except Fault Frames :=
  match s.locals with
  | [] => .error (.frameNotAvailable .lf)
  | f :: fs => .ok { s with locals := fs, temporary := some f }

/-! ## Variables -/

/-- Declares a name in one frame. -/
def declareIn (x : Variable) (f : Frame) : Except Fault Frame :=
  if f.declares x.name then .error (.variableRedeclared x) else .ok (f.insert x.name none)

/-- Declares a variable in the frame that it addresses. -/
def declare (s : Frames) (x : Variable) : Except Fault Frames :=
  match x.scope with
  | .gf => (declareIn x s.global).map fun f => { s with global := f }
  | .lf =>
    match s.locals with
    | [] => .error (.frameNotAvailable .lf)
    | f :: fs => (declareIn x f).map fun f => { s with locals := f :: fs }
  | .tf =>
    match s.temporary with
    | none => .error (.frameNotAvailable .tf)
    | some f => (declareIn x f).map fun f => { s with temporary := some f }

/-- The frames in which a variable is looked up, in order. -/
def visible (s : Frames) : Scope → Except Fault (List Frame)
  | .gf => .ok [s.global]
  | .lf => if s.locals.isEmpty then .error (.frameNotAvailable .lf) else .ok (s.locals ++ [s.global])
  | .tf =>
    match s.temporary with
    | none => .error (.frameNotAvailable .tf)
    | some t => .ok [t, s.global]

/-- The value of a variable, if it has one; fails if the variable is not declared. -/
def lookup (s : Frames) (x : Variable) : Except Fault (Option Value) := do
  let fs ← s.visible x.scope
  match fs.findSome? (·.find? x.name) with
  | some v => .ok v
  | none => .error (.undeclaredVariable x)

/-- Sets a name in the first frame that declares it. -/
def setFirst (name : String) (v : Option Value) : List Frame → Option (List Frame)
  | [] => none
  | f :: fs => if f.declares name then some (f.insert name v :: fs) else (setFirst name v fs).map (f :: ·)

/-- Sets a variable in the global frame. -/
def setGlobal (s : Frames) (x : Variable) (v : Option Value) : Except Fault Frames :=
  if s.global.declares x.name then .ok { s with global := s.global.insert x.name v }
  else .error (.undeclaredVariable x)

/-- Sets the variable that `lookup` finds. -/
def set (s : Frames) (x : Variable) (v : Option Value) : Except Fault Frames :=
  match x.scope with
  | .gf => s.setGlobal x v
  | .lf =>
    if s.locals.isEmpty then .error (.frameNotAvailable .lf)
    else match setFirst x.name v s.locals with
      | some fs => .ok { s with locals := fs }
      | none => s.setGlobal x v
  | .tf =>
    match s.temporary with
    | none => .error (.frameNotAvailable .tf)
    | some t =>
      if t.declares x.name then .ok { s with temporary := some (t.insert x.name v) }
      else s.setGlobal x v

def assign (s : Frames) (x : Variable) (v : Value) : Except Fault Frames := s.set x (some v)

/-! ## Dump -/

def frameLine (tag : String) (f : Frame) : String := tag ++ ":" ++ f.text ++ "\n"

/-- The lines of a stack of local frames, each with its depth. -/
def localLines : List Frame → List String
  | [] => []
  | f :: fs => frameLine s!"LF[{fs.length}]" f :: localLines fs

/-- The contents of all frames, a line for each. -/
def text (s : Frames) : String :=
  let locals := if s.locals.isEmpty then ["LF: <none>\n"] else localLines s.locals
  let temporary := match s.temporary with
    | some t => frameLine "TF" t
    | none => "TF: <none>\n"
  Text.concat (frameLine "GF" s.global :: (locals ++ [temporary]))

end Frames

end FrameMachine
