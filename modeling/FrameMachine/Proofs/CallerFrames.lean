import FrameMachine.Proofs.Cells
import FrameMachine.Proofs.Dispatch
import FrameMachine.Proofs.History
import Mathlib.Data.List.Forall2
import Mathlib.Tactic.IntervalCases

/-!
# What a routine can do to the frames of its caller

Between a `PUSHFRAME` and the `POPFRAME` that answers it, a program can reach the frames below through
assignments only: it cannot declare anything in them, remove them or take a value away. A step of the
machine changes the stack of local frames in one of the ways of `Restacks` (`restacks_step`), and each of
these keeps the pushed frame and those below it (`Restacks.caller_stays`) until the frame is popped.
-/

namespace FrameMachine

/-! ## Frames that lose nothing -/

namespace Frame

theorem isSome_find_iff {f : Frame} {name : String} : (f.find? name).isSome = true ↔ name ∈ f.names := by
  unfold find? names
  rw [List.mem_map, List.lookup_isSome_iff]
  constructor
  · rintro ⟨e, he, hname⟩
    exact ⟨e, he, (beq_iff_eq.mp hname).symm⟩
  · rintro ⟨e, he, hname⟩
    exact ⟨e, he, beq_iff_eq.mpr hname.symm⟩

/-- The second frame declares at least the names of the first, and what had a value has one. -/
structure Grows (f g : Frame) : Prop where
  declared : ∀ name ∈ f.names, name ∈ g.names
  defined : ∀ name v, f.find? name = some (some v) → ∃ w, g.find? name = some (some w)

/-- The second frame declares just the names of the first, and what had a value has one. -/
structure Keeps (f g : Frame) : Prop where
  names : g.names = f.names
  defined : ∀ name v, f.find? name = some (some v) → ∃ w, g.find? name = some (some w)

theorem Keeps.refl (f : Frame) : f.Keeps f := ⟨rfl, fun _ v h => ⟨v, h⟩⟩

theorem Keeps.trans {f g h : Frame} (hfg : f.Keeps g) (hgh : g.Keeps h) : f.Keeps h := by
  refine ⟨hgh.names.trans hfg.names, fun name v hv => ?_⟩
  obtain ⟨w, hw⟩ := hfg.defined name v hv
  exact hgh.defined name w hw

theorem Grows.refl (f : Frame) : f.Grows f := ⟨fun _ h => h, fun _ v h => ⟨v, h⟩⟩

theorem Grows.trans {f g h : Frame} (hfg : f.Grows g) (hgh : g.Grows h) : f.Grows h := by
  refine ⟨fun name hname => hgh.declared name (hfg.declared name hname), fun name v hv => ?_⟩
  obtain ⟨w, hw⟩ := hfg.defined name v hv
  exact hgh.defined name w hw

theorem Keeps.grows {f g : Frame} (h : f.Keeps g) : f.Grows g := by
  refine ⟨fun name hname => ?_, h.defined⟩
  rw [h.names]
  exact hname

theorem grows_insert {f : Frame} {name : String} (h : f.declares name = false) : f.Grows (f.insert name none) := by
  have hnone : f.find? name = none := by simpa [declares] using h
  have hother : ∀ other, (f.find? other).isSome = true → (f.insert name none).find? other = f.find? other := by
    intro other hsome
    apply find_insert_of_ne
    rintro rfl
    rw [hnone] at hsome
    cases hsome
  refine ⟨fun other hmem => ?_, fun other v hv => ⟨v, ?_⟩⟩
  · have hsome := isSome_find_iff.mpr hmem
    rw [← isSome_find_iff, hother other hsome]
    exact hsome
  · rw [hother other (by rw [hv]; rfl), hv]

end Frame

/-! ## Changes of the stack of local frames -/

/-- Frames of the stack are changed, but none comes or goes. -/
inductive Alters : List Frame → List Frame → Prop
  | keep {fs gs : List Frame} : List.Forall₂ Frame.Keeps fs gs → Alters fs gs
  | grow {f g : Frame} {fs : List Frame} : f.Grows g → Alters (f :: fs) (g :: fs)

theorem Alters.length_eq {fs gs : List Frame} (h : Alters fs gs) : gs.length = fs.length := by
  cases h with
  | keep hkeep => exact hkeep.length_eq.symm
  | grow => rfl

inductive Restacks : List Frame → List Frame → Prop
  | alter {fs gs : List Frame} : Alters fs gs → Restacks fs gs
  | push {fs : List Frame} (f : Frame) : Restacks fs (f :: fs)
  | pop {fs : List Frame} (f : Frame) : Restacks (f :: fs) fs

theorem forall_keeps_refl (fs : List Frame) : List.Forall₂ Frame.Keeps fs fs :=
  List.forall₂_same.mpr fun f _ => Frame.Keeps.refl f

theorem Alters.refl (fs : List Frame) : Alters fs fs := .keep (forall_keeps_refl fs)

theorem forall_keeps_trans {fs gs hs : List Frame} (h : List.Forall₂ Frame.Keeps fs gs)
    (h' : List.Forall₂ Frame.Keeps gs hs) : List.Forall₂ Frame.Keeps fs hs := by
  induction h generalizing hs with
  | nil => exact h'
  | cons hf _ ih =>
    cases h' with
    | cons hg hrest => exact .cons (hf.trans hg) (ih hrest)

/-- On the stack there is still a frame `t`, grown, and below it the frames `base`, with their names. -/
def HoldsCaller (t : Frame) (base l : List Frame) : Prop :=
  ∃ above t' base', l = above ++ t' :: base' ∧ t.Grows t' ∧ List.Forall₂ Frame.Keeps base base'

theorem HoldsCaller.keep {t : Frame} {base l next : List Frame} (hl : HoldsCaller t base l)
    (h : List.Forall₂ Frame.Keeps l next) : HoldsCaller t base next := by
  obtain ⟨above, t', base', rfl, ht, hbase⟩ := hl
  induction above generalizing next with
  | nil =>
    cases h with
    | @cons _ g _ gs hg hgs => exact ⟨[], g, gs, rfl, ht.trans hg.grows, forall_keeps_trans hbase hgs⟩
  | cons f above ih =>
    cases h with
    | @cons _ g _ gs _ hgs =>
      obtain ⟨above', t'', base'', rfl, ht', hbase'⟩ := ih hgs
      exact ⟨g :: above', t'', base'', rfl, ht', hbase'⟩

theorem HoldsCaller.alter {t : Frame} {base l next : List Frame} (hl : HoldsCaller t base l)
    (h : Alters l next) : HoldsCaller t base next := by
  cases h with
  | keep hkeep => exact hl.keep hkeep
  | @grow f g fs hgrow =>
    obtain ⟨above, t', base', hstack, ht, hbase⟩ := hl
    cases above with
    | nil =>
      obtain ⟨rfl, rfl⟩ := List.cons.inj hstack
      exact ⟨[], g, fs, rfl, ht.trans hgrow, hbase⟩
    | cons f' above =>
      obtain ⟨rfl, rfl⟩ := List.cons.inj hstack
      exact ⟨g :: above, t', base', rfl, ht, hbase⟩

theorem Restacks.caller_stays {t : Frame} {base l next : List Frame} (h : Restacks l next)
    (hl : HoldsCaller t base l) (hlength : base.length < next.length) : HoldsCaller t base next := by
  cases h with
  | alter halter => exact hl.alter halter
  | push f =>
    obtain ⟨above, t', base', rfl, ht, hbase⟩ := hl
    exact ⟨f :: above, t', base', rfl, ht, hbase⟩
  | pop f =>
    obtain ⟨above, t', base', hstack, ht, hbase⟩ := hl
    cases above with
    | nil =>
      obtain ⟨-, rfl⟩ := List.cons.inj hstack
      rw [hbase.length_eq] at hlength
      exact absurd hlength (Nat.lt_irrefl _)
    | cons f' above =>
      obtain ⟨rfl, rfl⟩ := List.cons.inj hstack
      exact ⟨above, t', base', rfl, ht, hbase⟩

theorem HoldsCaller.top {t f : Frame} {base fs : List Frame} (h : HoldsCaller t base (f :: fs))
    (hlength : fs.length = base.length) : t.Grows f ∧ List.Forall₂ Frame.Keeps base fs := by
  obtain ⟨above, t', base', hstack, ht, hbase⟩ := h
  cases above with
  | nil =>
    obtain ⟨rfl, rfl⟩ := List.cons.inj hstack
    exact ⟨ht, hbase⟩
  | cons f' above =>
    have hheight := congrArg List.length hstack
    simp only [List.length_cons, List.length_append, hlength, hbase.length_eq] at hheight
    omega

/-! ## Changes of the frames -/

namespace Frames

theorem update_of_assign {s s' : Frames} {x : Variable} {v : Value} (h : s.assign x v = .ok s') :
    ∃ c, s.Designates x c ∧ s' = s.update c (some v) := by
  rcases designates_or_unresolved s x with ⟨c, hc⟩ | ⟨-, hset⟩
  · have hset := set_designated hc (some v)
    exact ⟨c, hc, (Except.ok.inj (hset.symm.trans h)).symm⟩
  · exact nomatch (hset (some v)).symm.trans h

theorem replaces_of_assign {s s' : Frames} {x : Variable} {v : Value} (h : s.assign x v = .ok s') :
    ∃ c, (s.cell? c).isSome = true ∧ s.Replaces c (some v) s' := by
  obtain ⟨c, hc, rfl⟩ := update_of_assign h
  exact ⟨c, hc.isSome, replaces_update hc.isSome _⟩

theorem Replaces.keeps {s s' : Frames} {c : Cell} {v : Value} (h : s.Replaces c (some v) s') {place : Place}
    {f g : Frame} (hf : s.frame? place = some f) (hg : s'.frame? place = some g) : f.Keeps g := by
  have hnames := h.names place
  rw [hf, hg] at hnames
  refine ⟨Option.some.inj hnames, fun name w hw => ?_⟩
  have hcell : s.cell? ⟨place, name⟩ = f.find? name := by simp [cell?, hf]
  have hcell' : s'.cell? ⟨place, name⟩ = g.find? name := by simp [cell?, hg]
  by_cases hc : ⟨place, name⟩ = c
  · subst hc
    exact ⟨v, hcell'.symm.trans h.cell⟩
  · exact ⟨w, by rw [← hcell', h.others _ hc, hcell, hw]⟩

theorem Replaces.locals {s s' : Frames} {c : Cell} {v : Value} (h : s.Replaces c (some v) s') :
    List.Forall₂ Frame.Keeps s.locals s'.locals := by
  have hnames : s'.locals.map Frame.names = s.locals.map Frame.names := by
    apply List.ext_getElem?
    intro k
    simpa [frame?] using h.names (.stacked k)
  have hlength : s'.locals.length = s.locals.length := by simpa using congrArg List.length hnames
  refine List.forall₂_iff_get.mpr ⟨hlength.symm, fun k hk hk' => ?_⟩
  apply @Replaces.keeps s s' c v h (.stacked k)
  · exact List.getElem?_eq_getElem hk
  · exact List.getElem?_eq_getElem hk'

theorem declareIn_eq_ok {x : Variable} {f g : Frame} (h : declareIn x f = .ok g) :
    f.declares x.name = false ∧ g = f.insert x.name none := by
  unfold declareIn at h
  by_cases hdeclares : f.declares x.name = true
  · rw [if_pos hdeclares] at h
    cases h
  · rw [if_neg hdeclares] at h
    exact ⟨by simpa using hdeclares, (Except.ok.inj h).symm⟩

theorem declareIn_grows {x : Variable} {f g : Frame} (h : declareIn x f = .ok g) : f.Grows g := by
  obtain ⟨hnew, rfl⟩ := declareIn_eq_ok h
  exact Frame.grows_insert hnew

theorem alters_declare {s s' : Frames} {x : Variable} (h : s.declare x = .ok s') :
    Alters s.locals s'.locals := by
  unfold declare at h
  cases hscope : x.scope with
  | gf =>
    simp only [hscope] at h
    obtain ⟨g, -, rfl⟩ := ok_of_map h
    exact .refl _
  | lf =>
    simp only [hscope] at h
    cases hlocals : s.locals with
    | nil =>
      rw [hlocals] at h
      cases h
    | cons f fs =>
      rw [hlocals] at h
      obtain ⟨g, hg, rfl⟩ := ok_of_map h
      exact .grow (declareIn_grows hg)
  | tf =>
    simp only [hscope] at h
    cases ht : s.temporary with
    | none =>
      rw [ht] at h
      cases h
    | some f =>
      rw [ht] at h
      obtain ⟨g, -, rfl⟩ := ok_of_map h
      exact .refl _

theorem push_eq_ok {s s' : Frames} (h : s.push = .ok s') :
    ∃ t, s.temporary = some t ∧ s' = { s with locals := t :: s.locals, temporary := none } := by
  unfold push at h
  split at h
  · cases h
  · rename_i t ht
    exact ⟨t, ht, (Except.ok.inj h).symm⟩

theorem pop_eq_ok {s s' : Frames} (h : s.pop = .ok s') :
    ∃ f fs, s.locals = f :: fs ∧ s' = { s with locals := fs, temporary := some f } := by
  unfold pop at h
  split at h
  · cases h
  · rename_i f fs hlocals
    exact ⟨f, fs, hlocals, (Except.ok.inj h).symm⟩

end Frames

namespace Machine

/-- What a step does to the frames. -/
inductive FramesStep (p : Program) (m : Machine) : Machine → Option Outcome → Prop
  | keep {next : Machine} {o : Option Outcome} : next.frames = m.frames → FramesStep p m next o
  | assign {x : Variable} {v : Value} {next : Machine} : m.frames.assign x v = .ok next.frames →
      FramesStep p m next none
  | declare {x : Variable} {next : Machine} : m.frames.declare x = .ok next.frames → FramesStep p m next none
  | create {next : Machine} : next.frames = m.frames.create → FramesStep p m next none
  | push {i : Instruction} {next : Machine} : p.get? m.pc = some i → i.opcode = .pushframe →
      m.frames.push = .ok next.frames → FramesStep p m next none
  | pop {i : Instruction} {next : Machine} : p.get? m.pc = some i → i.opcode = .popframe →
      m.frames.pop = .ok next.frames → FramesStep p m next none

theorem frames_step (p : Program) (m : Machine) : FramesStep p m (m.step p).1 (m.step p).2 := by
  rcases step_performs p m with hsame | ⟨i, op, e, hi, -, hop, hyields, hstep⟩
  · exact .keep hsame.frames
  · rw [hstep]
    cases hyields with
    | move _ _ hs => exact .assign hs
    | typeOf _ _ hs => exact .assign hs
    | createFrame => exact .create rfl
    | pushFrame hs => exact .push hi hop.symm hs
    | popFrame hs => exact .pop hi hop.symm hs
    | declare hs => exact .declare hs
    | pop _ _ hs => exact .assign hs
    | compute _ _ _ hs => exact .assign hs
    | setChar _ _ hs => exact .assign hs
    | read _ hs => exact .assign hs
    | _ => exact .keep rfl

theorem restacks_step (p : Program) (m : Machine) : Restacks m.frames.locals (m.step p).1.frames.locals := by
  have hstep := frames_step p m
  generalize (m.step p).1 = next, (m.step p).2 = o at hstep
  cases hstep with
  | keep h =>
    rw [h]
    exact .alter (.refl _)
  | assign h =>
    obtain ⟨c, -, hreplaces⟩ := Frames.replaces_of_assign h
    exact .alter (.keep hreplaces.locals)
  | declare h => exact .alter (Frames.alters_declare h)
  | create h =>
    rw [h]
    exact .alter (.refl _)
  | push _ _ h =>
    obtain ⟨t, -, heq⟩ := Frames.push_eq_ok h
    rw [heq]
    exact .push t
  | pop _ _ h =>
    obtain ⟨f, fs, hlocals, heq⟩ := Frames.pop_eq_ok h
    rw [heq, hlocals]
    exact .pop f

variable {p : Program} {m : Machine}

theorem push_of_pushframe {i : Instruction} (hi : p.get? m.pc = some i) (hop : i.opcode = .pushframe)
    (h : (m.step p).2 = none) : m.frames.push = .ok (m.step p).1.frames := by
  obtain ⟨op, e, hoperation, hyields, hnext⟩ := step_yields hi (by simp [hop]) h
  obtain rfl := pushFrame_of_operation hoperation hop
  rw [hnext]
  cases hyields with
  | pushFrame hs => exact hs

theorem pop_of_lower (h : (m.step p).1.frames.locals.length < m.frames.locals.length) :
    ∃ r, p.get? m.pc = some r ∧ r.opcode = .popframe ∧ (m.step p).2 = none ∧
      m.frames.pop = .ok (m.step p).1.frames := by
  have hstep := frames_step p m
  generalize (m.step p).1 = next, (m.step p).2 = o at hstep h
  cases hstep with
  | keep hs =>
    rw [hs] at h
    exact absurd h (Nat.lt_irrefl _)
  | assign hs =>
    obtain ⟨c, -, hreplaces⟩ := Frames.replaces_of_assign hs
    rw [hreplaces.locals.length_eq] at h
    exact absurd h (Nat.lt_irrefl _)
  | declare hs =>
    rw [(Frames.alters_declare hs).length_eq] at h
    exact absurd h (Nat.lt_irrefl _)
  | create hs =>
    rw [hs] at h
    exact absurd h (Nat.lt_irrefl _)
  | push _ _ hs =>
    obtain ⟨t, -, heq⟩ := Frames.push_eq_ok hs
    rw [heq, List.length_cons] at h
    omega
  | @pop r _ hr hop hs => exact ⟨r, hr, hop, rfl, hs⟩

/-! ## Segments -/

theorem holdsCaller_after {t : Frame} {labels : Labels} (hcollect : Labels.collect p = .ok labels)
    (hfirst : (m.after p 1).frames.locals = t :: m.frames.locals) {k : Nat}
    (habove : ∀ j, 0 < j → j ≤ k + 1 → m.frames.locals.length < (m.after p j).frames.locals.length) :
    HoldsCaller t m.frames.locals (m.after p (k + 1)).frames.locals := by
  induction k with
  | zero => exact ⟨[], t, m.frames.locals, hfirst, .refl t, forall_keeps_refl _⟩
  | succ k ih =>
    have hprev := ih fun j hpos hj => habove j hpos (by omega)
    have hstep := restacks_step p (m.after p (k + 1))
    rw [← after_succ hcollect] at hstep
    exact hstep.caller_stays hprev (habove (k + 2) (by omega) (Nat.le_refl _))

/-- Between a `PUSHFRAME` and the `POPFRAME` that takes its frame off, the frames below keep their names and
values, and the pushed frame only grows. -/
theorem segment_keeps_frames (p : Program) (m : Machine) (t : Frame) (i : Instruction) (k : Nat)
    (ht : m.frames.temporary = some t) (hi : p.get? m.pc = some i) (hop : i.opcode = .pushframe)
    (hpush : (m.execute p 1).2 = none)
    (habove : ∀ j, 0 < j → j ≤ k → m.frames.locals.length + 1 ≤ (m.after p j).frames.locals.length)
    (hback : (m.after p (k + 1)).frames.locals.length = m.frames.locals.length) :
    (∃ r, p.get? (m.after p k).pc = some r ∧ r.opcode = .popframe ∧
      (m.after p k).execute p 1 = (m.after p (k + 1), none)) ∧
    List.Forall₂ Frame.Keeps m.frames.locals (m.after p (k + 1)).frames.locals ∧
    (∃ t', (m.after p (k + 1)).frames.temporary = some t' ∧ t.Grows t') ∧
    (k = 1 → (m.after p (k + 1)).frames = m.frames) := by
  obtain ⟨labels, hcollect⟩ := collect_of_execute hpush
  have hzero := after_zero hcollect m
  rw [← step_after_zero hcollect] at hpush
  have hframes := push_of_pushframe (by rwa [hzero]) hop hpush
  rw [← after_succ hcollect, hzero] at hframes
  obtain ⟨t', ht', hfirst⟩ := Frames.push_eq_ok hframes
  obtain rfl : t = t' := Option.some.inj (ht.symm.trans ht')
  have hlocals : (m.after p 1).frames.locals = t :: m.frames.locals := by rw [hfirst]
  cases k with
  | zero =>
    rw [hlocals, List.length_cons] at hback
    omega
  | succ k =>
    have hholds := holdsCaller_after hcollect hlocals habove
    have hnext := after_succ hcollect m (k + 1)
    -- The last step makes the stack lower.
    have hlower : ((m.after p (k + 1)).step p).1.frames.locals.length <
        (m.after p (k + 1)).frames.locals.length := by
      rw [← hnext, hback]
      exact habove (k + 1) (Nat.succ_pos _) (Nat.le_refl _)
    obtain ⟨r, hr, hrop, ho, hpop⟩ := pop_of_lower hlower
    rw [← hnext] at hpop
    obtain ⟨f, fs, hstack, hlast⟩ := Frames.pop_eq_ok hpop
    have hfs : (m.after p (k + 2)).frames.locals = fs := by rw [hlast]
    rw [hstack] at hholds
    obtain ⟨hgrows, hkeeps⟩ := hholds.top (by rw [← hfs, hback])
    refine ⟨⟨r, hr, hrop, ?_⟩, by rwa [hfs], ⟨f, by rw [hlast], hgrows⟩, fun hk => ?_⟩
    · rw [execute_after hcollect, hnext, ← ho]
    · obtain rfl : k = 0 := by omega
      rw [hlocals, List.cons.injEq] at hstack
      obtain ⟨rfl, rfl⟩ := hstack
      rw [hlast, hfirst, ← ht]

/-- A routine that gives a variable of its caller another value, declares one of its own and calls a
routine that does nothing. -/
def nestedFrames : Program where
  instructions := [
    ⟨1, .createframe, []⟩,
    ⟨2, .defvar, [⟨0, .var, "TF@a"⟩]⟩,
    ⟨3, .move, [⟨0, .var, "TF@a"⟩, ⟨1, .literal .int, "1"⟩]⟩,
    ⟨4, .pushframe, []⟩,
    ⟨5, .createframe, []⟩,
    ⟨6, .defvar, [⟨0, .var, "TF@b"⟩]⟩,
    ⟨7, .pushframe, []⟩,
    ⟨8, .move, [⟨0, .var, "LF@a"⟩, ⟨1, .literal .int, "2"⟩]⟩,
    ⟨9, .defvar, [⟨0, .var, "LF@c"⟩]⟩,
    ⟨10, .createframe, []⟩,
    ⟨11, .pushframe, []⟩,
    ⟨12, .popframe, []⟩,
    ⟨13, .popframe, []⟩]
  ordered := by decide
  positive := by decide
  placed := by decide

theorem nestedFrames_segments :
    let m := ((start Input.empty Device.reliable).execute nestedFrames 6).1
    let n := ((start Input.empty Device.reliable).execute nestedFrames 10).1
    (List.Forall₂ Frame.Keeps m.frames.locals (m.after nestedFrames 7).frames.locals ∧
      (m.after nestedFrames 7).frames.locals ≠ m.frames.locals ∧
      ∃ t, (m.after nestedFrames 7).frames.temporary = some t ∧ "b" ∈ t.names) ∧
    (n.after nestedFrames 2).frames = n.frames := by
  intro m n
  have habove : ∀ j, 0 < j → j ≤ 6 →
      m.frames.locals.length + 1 ≤ (m.after nestedFrames j).frames.locals.length := by
    intro j hpos hj
    interval_cases j <;> decide +kernel
  have habove' : ∀ j, 0 < j → j ≤ 1 →
      n.frames.locals.length + 1 ≤ (n.after nestedFrames j).frames.locals.length := by
    intro j hpos hj
    interval_cases j
    decide +kernel
  obtain ⟨-, hkeeps, ⟨t, ht, hgrows⟩, -⟩ := segment_keeps_frames nestedFrames m (Frame.empty.insert "b" none)
    _ 6 (by decide +kernel) rfl rfl rfl habove (by decide +kernel)
  obtain ⟨-, -, -, hsame⟩ := segment_keeps_frames nestedFrames n Frame.empty
    _ 1 (by decide +kernel) rfl rfl rfl habove' (by decide +kernel)
  -- Left as `6 + 1`, the index would be compared with `7` by running the machine.
  simp only [Nat.reduceAdd] at hkeeps ht
  refine ⟨⟨hkeeps, by decide +kernel, t, ht, hgrows.declared "b" ?_⟩, hsame rfl⟩
  decide

end Machine

end FrameMachine
