import FrameMachine.Machine.Run
import FrameMachine.Proofs.Visibility

/-!
# The effect of an operation

Operations are written as actions that look, check and change in turn. `Operation.effect` states what
an operation is going to change without changing anything, and `decides_perform` shows that performing
an operation is deciding on its effect and then running it. What goes wrong while deciding therefore leaves
the machine as it was; only the write of an effect can still be refused.
-/

namespace FrameMachine

/-! ## Reading the state -/

def Symbol.value (s : Frames) : Symbol → Except Fault Value
  | .literal v => .ok v
  | .var x =>
    match s.lookup x with
    | .ok (some v) => .ok v
    | .ok none => .error (.uninitializedVariable x)
    | .error f => .error f

def Symbol.value? (s : Frames) : Symbol → Except Fault (Option Value)
  | .literal v => .ok (some v)
  | .var x => s.lookup x

def Symbol.values (s : Frames) : List Symbol → Except Fault (List Value)
  | [] => .ok []
  | a :: as => do
    let v ← a.value s
    let vs ← values s as
    return v :: vs

def Labels.target (t : Labels) (label : String) : Except Fault Nat :=
  match t.find? label with
  | some index => .ok index
  | none => .error (.undefinedLabel label)

/-! ## Effects -/

/-- What an operation changes when it succeeds. -/
inductive Effect where
  | none
  | frames (s : Frames)
  | jump (index : Nat)
  | call (index : Nat)
  | return (index : Nat) (rest : List Nat)
  | push (v : Value)
  | pop (rest : List Value) (s : Frames)
  | read (rest : Input) (s : Frames)
  | write (w : Write)
  | exit (status : Fin 10)

namespace Effect

def apply (m : Machine) : Effect → Machine
  | none => m
  | frames s => { m with frames := s }
  | jump index => { m with pc := index }
  | call index => { m with calls := m.pc :: m.calls, pc := index }
  | .return index rest => { m with calls := rest, pc := index }
  | push v => { m with values := v :: m.values }
  | pop rest s => { m with values := rest, frames := s }
  | read rest s => { m with input := rest, frames := s }
  | write w => { m with output := (m.output.write w).1 }
  | exit _ => m

def status : Effect → Option (Fin 10)
  | exit status => some status
  | _ => Option.none

/-- The reason for which the device refuses the write of an effect. -/
def refusal (m : Machine) : Effect → Option String
  | write w => (m.output.write w).2
  | _ => Option.none

def run (e : Effect) : Action (Option (Fin 10)) := fun m =>
  match e.refusal m with
  | Option.none => .ok e.status (e.apply m)
  | some reason => .error (.output reason) (e.apply m)

end Effect

/-- The effect of an operation on a machine, or the fault that it finds. -/
def Operation.effect (p : Program) (i : Instruction) (m : Machine) : Operation → Except Fault Effect
  | .move x a => do
    let _ ← m.frames.lookup x
    let v ← a.value m.frames
    return .frames (← m.frames.assign x v)
  | .typeOf x a => do
    let _ ← m.frames.lookup x
    let v ← a.value? m.frames
    return .frames (← m.frames.assign x (typeName v))
  | .createFrame => .ok (.frames m.frames.create)
  | .pushFrame => do return .frames (← m.frames.push)
  | .popFrame => do return .frames (← m.frames.pop)
  | .declare x => do return .frames (← m.frames.declare x)
  | .call name => do return .call (← m.labels.target name)
  | .return =>
    match m.calls with
    | [] => .error .emptyCallStack
    | index :: rest => .ok (.return index rest)
  | .label _ => .ok .none
  | .jump name => do return .jump (← m.labels.target name)
  | .jumpIf wanted name a b => do
    let index ← m.labels.target name
    let v ← a.value m.frames
    let w ← b.value m.frames
    let equal ← testEqual i.opcode v w
    return if equal = wanted then .jump index else .none
  | .exit a => do
    let v ← a.value m.frames
    return .exit (← exitStatus v)
  | .push a => do return .push (← a.value m.frames)
  | .pop x => do
    let _ ← m.frames.lookup x
    match m.values with
    | [] => .error .emptyValueStack
    | v :: rest => return .pop rest (← m.frames.assign x v)
  | .compute op x as => do
    let _ ← m.frames.lookup x
    let vs ← Symbol.values m.frames as
    let v ← evaluate op vs
    return .frames (← m.frames.assign x v)
  | .setChar x a b => do
    let vs ← Symbol.values m.frames [.var x, a, b]
    let v ← evaluate .setchar vs
    return .frames (← m.frames.assign x v)
  | .read x t => do
    let _ ← m.frames.lookup x
    let s ← m.frames.assign x ((m.input.read t).1.getD .nil)
    return .read (m.input.read t).2 s
  | .write a => do return .write ⟨.out, (← a.value m.frames).render⟩
  | .debugWrite a => do return .write ⟨.err, (← a.value m.frames).render⟩
  | .break => .ok (.write ⟨.err, m.report p i.order⟩)

namespace Action

variable {α : Type}

/-! ## Parts of operations that only look -/

theorem bind_run {β : Type} (x : Action α) (f : α → Action β) (m : Machine) :
    (x >>= f) m = match x m with
      | .ok a m' => f a m'
      | .error g m' => .error g m' := by
  show EStateM.bind x f m = _
  unfold EStateM.bind
  cases x m <;> rfl

theorem lookup_run (x : Variable) (m : Machine) : lookup x m = ofExcept (m.frames.lookup x) m := rfl

theorem valueOf_run (a : Symbol) (m : Machine) : valueOf a m = ofExcept (a.value m.frames) m := by
  cases a with
  | literal v => rfl
  | var x =>
    rw [valueOf, bind_run, lookup_run, Symbol.value]
    cases m.frames.lookup x with
    | error f => rfl
    | ok w => cases w <;> rfl

theorem valueOf?_run (a : Symbol) (m : Machine) : valueOf? a m = ofExcept (a.value? m.frames) m := by
  cases a <;> rfl

theorem valuesOf_run (as : List Symbol) (m : Machine) :
    valuesOf as m = ofExcept (Symbol.values m.frames as) m := by
  induction as with
  | nil => rfl
  | cons a as ih =>
    rw [valuesOf, bind_run, valueOf_run, Symbol.values]
    cases a.value m.frames with
    | error f => rfl
    | ok v =>
      show (valuesOf as >>= fun vs => pure (v :: vs)) m = _
      rw [bind_run, ih]
      cases Symbol.values m.frames as <;> rfl

theorem target_run (name : String) (m : Machine) : target name m = ofExcept (m.labels.target name) m := by
  show (match m.labels.find? name with
    | some index => pure index
    | none => throw (.undefinedLabel name) : Action Nat) m = _
  unfold Labels.target
  cases m.labels.find? name <;> rfl

/-! ## Deciding and running -/

/-- On this machine the action finds the fault or runs the effect. -/
def Decides (x : Action (Option (Fin 10))) (m : Machine) (e : Except Fault Effect) : Prop :=
  x m = (ofExcept e >>= Effect.run) m

theorem Decides.bind {x : Action α} {m : Machine} {c : Except Fault α} (hx : x m = ofExcept c m)
    {f : α → Action (Option (Fin 10))} {g : α → Except Fault Effect}
    (h : ∀ a, c = .ok a → Decides (f a) m (g a)) : Decides (x >>= f) m (c >>= g) := by
  unfold Decides
  rw [bind_run, hx]
  cases c with
  | error e => rfl
  | ok a => exact h a rfl

theorem Decides.requireVisible {x : Variable} {m : Machine} {f : Unit → Action (Option (Fin 10))}
    {g : Option Value → Except Fault Effect}
    (h : ∀ w, m.frames.lookup x = .ok w → Decides (f ()) m (g w)) :
    Decides (requireVisible x >>= f) m (m.frames.lookup x >>= g) := by
  unfold Decides
  rw [bind_run, Action.requireVisible, bind_run, lookup_run]
  cases hx : m.frames.lookup x with
  | error e => rfl
  | ok w => exact h w hx

theorem decides_assign (x : Variable) (v : Value) (m : Machine) :
    Decides (assign x v >>= fun _ => pure none) m (m.frames.assign x v >>= fun s => pure (.frames s)) := by
  show (ofExcept (m.frames.assign x v) >>= setFrames >>= fun _ => pure none : Action _) m = _
  cases m.frames.assign x v <;> rfl

theorem decides_write (stream : Stream) (text : String) (m : Machine) :
    Decides (write stream text >>= fun _ => pure none) m (.ok (.write ⟨stream, text⟩)) := by
  have hwrite : write stream text m = match (m.output.write ⟨stream, text⟩).2 with
      | none => .ok () { m with output := (m.output.write ⟨stream, text⟩).1 }
      | some r => .error (.output r) { m with output := (m.output.write ⟨stream, text⟩).1 } := by
    show (match (m.output.write ⟨stream, text⟩).2 with
      | none => pure ()
      | some r => throw (.output r) : Action Unit) { m with output := (m.output.write ⟨stream, text⟩).1 } = _
    cases (m.output.write ⟨stream, text⟩).2 <;> rfl
  show _ = (Effect.write ⟨stream, text⟩).run m
  rw [bind_run, hwrite, Effect.run, Effect.refusal]
  cases (m.output.write ⟨stream, text⟩).2 <;> rfl

/-- The variable has been found, so that storing the value cannot fail after it has been taken. -/
theorem decides_pop {x : Variable} {m : Machine} {w : Option Value} (hx : m.frames.lookup x = .ok w) :
    Decides (popValue >>= fun v => assign x v >>= fun _ => pure none) m
      (match m.values with
      | [] => .error .emptyValueStack
      | v :: rest => do return .pop rest (← m.frames.assign x v)) := by
  have hpop : popValue m = match m.values with
      | [] => .error .emptyValueStack m
      | v :: rest => .ok v { m with values := rest } := by
    show (match m.values with
      | [] => throw .emptyValueStack
      | v :: rest => (modify fun m => { m with values := rest }) >>= fun _ => pure v : Action Value) m = _
    cases m.values <;> rfl
  unfold Decides
  rw [bind_run, hpop]
  cases m.values with
  | nil => rfl
  | cons v rest =>
    obtain ⟨s, hs⟩ := Frames.assign_of_lookup hx v
    have hassign := decides_assign x v { m with values := rest }
    simp only [Decides, hs] at hassign
    simp only [hassign, hs]
    rfl

theorem decides_read {x : Variable} {m : Machine} {w : Option Value} (hx : m.frames.lookup x = .ok w)
    (t : DataType) :
    Decides (readValue t >>= fun v => assign x v >>= fun _ => pure none) m (do
      let s ← m.frames.assign x ((m.input.read t).1.getD .nil)
      return .read (m.input.read t).2 s) := by
  obtain ⟨s, hs⟩ := Frames.assign_of_lookup hx ((m.input.read t).1.getD .nil)
  have hassign := decides_assign x ((m.input.read t).1.getD .nil) { m with input := (m.input.read t).2 }
  simp only [Decides, hs] at hassign
  show (assign x ((m.input.read t).1.getD .nil) >>= fun _ => pure none)
    { m with input := (m.input.read t).2 } = _
  rw [hassign, hs]
  rfl

theorem decides_return (m : Machine) :
    Decides (popCall >>= fun index => jumpTo index >>= fun _ => pure none) m
      (match m.calls with
      | [] => .error .emptyCallStack
      | index :: rest => .ok (.return index rest)) := by
  have hpop : popCall m = match m.calls with
      | [] => .error .emptyCallStack m
      | index :: rest => .ok index { m with calls := rest } := by
    show (match m.calls with
      | [] => throw .emptyCallStack
      | index :: rest => (modify fun m => { m with calls := rest }) >>= fun _ => pure index : Action Nat)
      m = _
    cases m.calls <;> rfl
  unfold Decides
  rw [bind_run, hpop]
  cases m.calls <;> rfl

theorem decides_perform (p : Program) (i : Instruction) (op : Operation) (m : Machine) :
    Decides (perform p i op) m (op.effect p i m) := by
  cases op with
  | move x a =>
    exact Decides.requireVisible fun _ _ => Decides.bind (valueOf_run a m) fun v _ => decides_assign x v m
  | typeOf x a =>
    exact Decides.requireVisible fun _ _ =>
      Decides.bind (valueOf?_run a m) fun v _ => decides_assign x (typeName v) m
  | createFrame => rfl
  | pushFrame => exact Decides.bind rfl fun _ _ => rfl
  | popFrame => exact Decides.bind rfl fun _ _ => rfl
  | declare x => exact Decides.bind rfl fun _ _ => rfl
  | call name => exact Decides.bind (target_run name m) fun _ _ => rfl
  | «return» => exact decides_return m
  | label name => rfl
  | jump name => exact Decides.bind (target_run name m) fun _ _ => rfl
  | jumpIf wanted name a b =>
    refine Decides.bind (target_run name m) fun index _ => Decides.bind (valueOf_run a m) fun v _ =>
      Decides.bind (valueOf_run b m) fun w _ => Decides.bind rfl fun equal _ => ?_
    by_cases h : equal = wanted
    · simp only [h, ite_true]
      rfl
    · simp only [h, ite_false]
      rfl
  | exit a => exact Decides.bind (valueOf_run a m) fun v _ => Decides.bind rfl fun _ _ => rfl
  | push a => exact Decides.bind (valueOf_run a m) fun _ _ => rfl
  | pop x => exact Decides.requireVisible fun _ hx => decides_pop hx
  | compute op x as =>
    exact Decides.requireVisible fun _ _ => Decides.bind (valuesOf_run as m) fun vs _ =>
      Decides.bind rfl fun v _ => decides_assign x v m
  | setChar x a b =>
    exact Decides.bind (valuesOf_run [.var x, a, b] m) fun vs _ =>
      Decides.bind rfl fun v _ => decides_assign x v m
  | read x t => exact Decides.requireVisible fun _ hx => decides_read hx t
  | write a => exact Decides.bind (valueOf_run a m) fun v _ => decides_write .out v.render m
  | debugWrite a => exact Decides.bind (valueOf_run a m) fun v _ => decides_write .err v.render m
  | «break» =>
    have hget : (get : Action Machine) m = ofExcept (.ok m) m := rfl
    show Decides _ m (Except.ok m >>= fun n => .ok (.write ⟨.err, n.report p i.order⟩))
    refine Decides.bind hget fun n hn => ?_
    obtain rfl := Except.ok.inj hn
    exact decides_write .err (m.report p i.order) m

end Action

end FrameMachine
