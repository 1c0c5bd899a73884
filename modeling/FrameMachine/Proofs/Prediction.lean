import FrameMachine.Proofs.LabelTable
import FrameMachine.Proofs.LoadedRuns
import FrameMachine.Proofs.Resumption

/-!
# What a check tells about a run

`check` and `run` read the same file, and a run begins by collecting the labels. A file that cannot be read or
loaded has the same response in both. Labels that cannot be collected end a run before its first instruction.
If they can, the run has no fault of the loader, of the labels or of the machine itself, and this leaves the
exit codes of `outcome_of_loadable`.
-/

namespace FrameMachine

/-! ## Exit codes -/

theorem Category.exitCode_range {c : Category} (hstructural : c ≠ .structural) (hinternal : c ≠ .internal) :
    52 ≤ c.exitCode ∧ c.exitCode ≤ 58 := by
  cases c with
  | structural => exact absurd rfl hstructural
  | internal => exact absurd rfl hinternal
  | _ => exact ⟨by decide, by decide⟩

theorem Ending.code_le (ending : Ending) : ending.code ≤ 9 := by
  cases ending with
  | completed => exact Nat.zero_le 9
  | exit status => exact Nat.le_of_lt_succ status.isLt

theorem Machine.step_fault_ne_redefined {p : Program} {m next : Machine} {f : Failure}
    (h : m.step p = (next, some (.error f))) (name : String) (first : Nat) :
    f.fault ≠ .labelRedefined name first := by
  intro hf
  obtain ⟨i, -, -, hoperation | hdynamic | ⟨w, reason, -, hrefused⟩⟩ := step_fault h
  · rw [hf] at hoperation
    rcases operation_fault hoperation with hcategory | ⟨a, -, -, hescape⟩
    · cases hcategory
    · cases hescape
  · rw [hf] at hdynamic
    cases hdynamic
  · rw [hf] at hrefused
    cases hrefused

namespace Program

variable {p : Program} {lines : Input} {fuel : Nat}

theorem run_of_error {f : Failure} (hcollect : Labels.collect p = .error f) (fuel : Nat) (lines : Input) :
    p.run fuel lines Device.reliable =
      ((Machine.start lines Device.reliable).flushIf true, some (.error f)) := by
  rw [run_eq, Machine.execute_of_error hcollect]
  rfl

theorem outcome_of_loadable (hp : p.Loadable) {labels : Labels} (hcollect : Labels.collect p = .ok labels)
    {m : Machine} {o : Outcome} (h : p.run fuel lines Device.reliable = (m, some o)) :
    (∃ ending, o = .ok ending ∧ ending.code ≤ 9) ∨
      ∃ f, o = .error f ∧ 52 ≤ f.exitCode ∧ f.exitCode ≤ 58 ∧
        ∀ name first, f.fault ≠ .labelRedefined name first := by
  cases o with
  | ok ending => exact Or.inl ⟨ending, rfl, ending.code_le⟩
  | error f =>
    obtain ⟨n, hexecute⟩ := Machine.execute_of_run rfl h
    obtain ⟨k, hstep⟩ := Machine.step_of_execute hcollect hexecute
    have hinternal : f.fault.category ≠ .internal := by
      intro hf
      obtain ⟨attempts, w, reason, hrefusal, -⟩ := Machine.execute_category hexecute hf
      cases hrefusal
    obtain ⟨hlow, hhigh⟩ := Category.exitCode_range (hp.step_fault hstep).1 hinternal
    exact Or.inr ⟨f, rfl, hlow, hhigh, Machine.step_fault_ne_redefined hstep⟩

end Program

/-! ## Files -/

theorem loadFile_cases (entries : String → Entry) (source : String) :
    (∃ r, loadFile entries source = .error r ∧ (r.code = 11 ∨ r.code = 32) ∧ r.out = "") ∨
      ∃ p, loadFile entries source = .ok p ∧ p.Loadable := by
  unfold loadFile
  cases entries source with
  | unreadable reason => exact Or.inl ⟨_, rfl, Or.inl rfl, rfl⟩
  | directory => exact Or.inl ⟨_, rfl, Or.inl rfl, rfl⟩
  | file bytes =>
    dsimp only
    cases String.fromUTF8? bytes with
    | none => exact Or.inl ⟨_, rfl, Or.inl rfl, rfl⟩
    | some text =>
      dsimp only
      cases hload : Program.load text with
      | error e => exact Or.inl ⟨_, rfl, Or.inr rfl, rfl⟩
      | ok p => exact Or.inr ⟨p, rfl, loadable_of_load hload⟩

/-! ## Responses -/

/-- The arguments of `run` after the source: none, or those that name the file to read from. -/
def inputArguments : Option String → List String
  | none => []
  | some path => ["--input", path]

theorem ofArguments_run (source : String) (input : Option String) :
    Command.ofArguments ("run" :: source :: inputArguments input) = .run source input := by
  cases input <;> simp [Command.ofArguments, inputArguments]

theorem ofArguments_check (source : String) : Command.ofArguments ["check", source] = .check source := by
  simp [Command.ofArguments]

/-- The response to a run that has ended by itself, or with a fault of an instruction and not of the labels. -/
def Program.Answers (p : Program) (fuel : Nat) (lines : Input) (q : Response) : Prop :=
  ∃ m o, p.run fuel lines Device.reliable = (m, some o) ∧ q = Response.ofRun m.output o ∧
    ((∃ ending, o = .ok ending ∧ q.code ≤ 9) ∨
      ∃ f, o = .error f ∧ 52 ≤ q.code ∧ q.code ≤ 58 ∧ ∀ name first, f.fault ≠ .labelRedefined name first)

/-- What the response to a check tells about the run of a source, for any number of steps, on an input. -/
structure Predicts (source : String) (loaded : Except Response Program) (lines : Input)
    (run : Nat → Option Response) (r : Response) : Prop where
  code : r.code = 0 ∨ r.code = 11 ∨ r.code = 32 ∨ r.code = 52
  rejected : ∀ code, code = 11 ∨ code = 32 → (r.code = code ↔ ∃ fuel q, run fuel = some q ∧ q.code = code)
  same : r.code = 11 ∨ r.code = 32 → r.out = "" ∧ ∀ fuel, run fuel = some r
  redefined : r.code = 52 →
    ∃ (p : Program) (f : Failure) (name : String) (first : Nat), loaded = .ok p ∧
      f.fault = .labelRedefined name first ∧
      r = ⟨52, "", s!"error: {f.message}\n"⟩ ∧
      ∀ fuel, run fuel = some ⟨52, "", s!"runtime error: {f.message}\n"⟩ ∧
        ((Machine.start lines Device.reliable).execution p fuel).dispatched = [] ∧
        (p.run fuel lines Device.reliable).1 = (Machine.start lines Device.reliable).flushIf true
  accepted : r.code = 0 →
    ∃ p count, loaded = .ok p ∧ count = p.instructions.countP (·.opcode = .label) ∧
      r = ⟨0, s!"OK: {source} ({p.instructions.length} instructions, {count} labels)\n", ""⟩ ∧
      ∀ fuel q, run fuel = some q → p.Answers fuel lines q

theorem rejected_iff {run : Nat → Option Response} {r : Response} (hr : r.code = 0 ∨ r.code = 52)
    (hrun : ∀ fuel q, run fuel = some q → q.code ≤ 9 ∨ 52 ≤ q.code) {code : Nat} (hcode : code = 11 ∨ code = 32) :
    r.code = code ↔ ∃ fuel q, run fuel = some q ∧ q.code = code := by
  constructor
  · intro h
    omega
  · rintro ⟨fuel, q, hq, rfl⟩
    have hrange := hrun fuel q hq
    omega

section
variable {entries : String → Entry} {stdin : ByteArray} {source : String} {input : Option String}
  {lines : Input}

theorem predicts_of_rejected {r : Response} (hload : loadFile entries source = .error r)
    (hcode : r.code = 11 ∨ r.code = 32) (hout : r.out = "") :
    Predicts source (.error r) lines (fun fuel => (Command.run source input).respond fuel entries stdin) r := by
  have hrun : ∀ fuel, (Command.run source input).respond fuel entries stdin = some r := by
    intro fuel
    simp only [Command.respond, hload]
  refine ⟨by omega, ?_, fun _ => ⟨hout, hrun⟩, by omega, by omega⟩
  intro code _
  constructor
  · intro h
    exact ⟨0, r, hrun 0, h⟩
  · rintro ⟨fuel, q, hq, rfl⟩
    rw [Option.some.inj ((hrun fuel).symm.trans hq)]

variable {p : Program} (hload : loadFile entries source = .ok p) (hopen : openInput entries stdin input = .ok lines)
include hload hopen

theorem respond_run (fuel : Nat) :
    (Command.run source input).respond fuel entries stdin =
      (p.run fuel lines Device.reliable).2.map (Response.ofRun (p.run fuel lines Device.reliable).1.output) := by
  simp only [Command.respond, hload, hopen]

theorem predicts_of_redefined (hp : p.Loadable) {f : Failure} (hcollect : Labels.collect p = .error f) :
    Predicts source (.ok p) lines (fun fuel => (Command.run source input).respond fuel entries stdin)
      (Response.ofCheck source p) := by
  obtain ⟨name, first, hf⟩ := hp.collect_fault hcollect
  have hcode : f.exitCode = 52 := by rw [Failure.exitCode, hf]; rfl
  have hcheck : Response.ofCheck source p = ⟨52, "", s!"error: {f.message}\n"⟩ := by
    simp only [Response.ofCheck, hcollect, hcode]
  have hrun : ∀ fuel, (Command.run source input).respond fuel entries stdin =
      some ⟨52, "", s!"runtime error: {f.message}\n"⟩ := by
    intro fuel
    rw [respond_run hload hopen, Program.run_of_error hcollect, ← hcode]
    rfl
  rw [hcheck]
  refine ⟨by simp, fun code => rejected_iff (Or.inr rfl) ?_, by simp, fun _ => ?_, by simp⟩
  · intro fuel q hq
    rw [← Option.some.inj ((hrun fuel).symm.trans hq)]
    exact Or.inr (Nat.le_refl 52)
  · refine ⟨p, f, name, first, rfl, hf, rfl, fun fuel => ⟨hrun fuel, ?_, ?_⟩⟩
    · simp only [Machine.execution, hcollect]
    · rw [Program.run_of_error hcollect]

theorem answers_of_collected (hp : p.Loadable) {labels : Labels} (hcollect : Labels.collect p = .ok labels)
    {fuel : Nat} {q : Response} (hq : (Command.run source input).respond fuel entries stdin = some q) :
    p.Answers fuel lines q := by
  rw [respond_run hload hopen] at hq
  obtain ⟨o, ho, rfl⟩ := Option.map_eq_some_iff.mp hq
  have hrun : p.run fuel lines Device.reliable = (_, some o) := Prod.ext rfl ho
  refine ⟨_, o, hrun, rfl, ?_⟩
  rcases Program.outcome_of_loadable hp hcollect hrun with ⟨ending, rfl, hcode⟩ | ⟨f, rfl, hf⟩
  · exact Or.inl ⟨ending, rfl, hcode⟩
  · exact Or.inr ⟨f, rfl, hf⟩

theorem predicts_of_collected (hp : p.Loadable) {labels : Labels} (hcollect : Labels.collect p = .ok labels) :
    Predicts source (.ok p) lines (fun fuel => (Command.run source input).respond fuel entries stdin)
      (Response.ofCheck source p) := by
  have hcheck : Response.ofCheck source p =
      ⟨0, s!"OK: {source} ({p.length} instructions, {labels.size} labels)\n", ""⟩ := by
    simp only [Response.ofCheck, hcollect]
  rw [hcheck]
  refine ⟨by simp, fun code => rejected_iff (Or.inl rfl) ?_, by simp, by simp, fun _ => ?_⟩
  · intro fuel q hq
    obtain ⟨m, o, -, -, ⟨ending, -, hcode⟩ | ⟨f, -, hcode, -⟩⟩ := answers_of_collected hload hopen hp hcollect hq
    · exact Or.inl hcode
    · exact Or.inr hcode
  · refine ⟨p, labels.size, rfl, Labels.size_of_collect hcollect, rfl, ?_⟩
    intro fuel q
    exact answers_of_collected hload hopen hp hcollect

end

/-- `check` always responds, and its response tells what `run` does on the same source, if the input of the run
can be opened. -/
theorem check_predicts_run (entries : String → Entry) (stdin : ByteArray) (source : String)
    (input : Option String) (lines : Input) (hopen : openInput entries stdin input = .ok lines) :
    ∃ r, (∀ fuel, (Command.ofArguments ["check", source]).respond fuel entries stdin = some r) ∧
      Predicts source (loadFile entries source) lines
        (fun fuel => (Command.ofArguments ("run" :: source :: inputArguments input)).respond fuel entries stdin)
        r := by
  rw [ofArguments_run, ofArguments_check]
  rcases loadFile_cases entries source with ⟨r, hload, hcode, hout⟩ | ⟨p, hload, hp⟩
  · refine ⟨r, fun fuel => by simp only [Command.respond, hload], ?_⟩
    rw [hload]
    exact predicts_of_rejected hload hcode hout
  · refine ⟨Response.ofCheck source p, fun fuel => by simp only [Command.respond, hload], ?_⟩
    rw [hload]
    cases hcollect : Labels.collect p with
    | error f => exact predicts_of_redefined hload hopen hp hcollect
    | ok labels => exact predicts_of_collected hload hopen hp hcollect

/-- A program that divides by zero, one with a label defined twice, and a file that is no program. -/
def threeFiles (name : String) : Entry :=
  if name = "zero" then .file ".IPPcode24\nLABEL on\nDEFVAR GF@x\nIDIV GF@x int@1 int@0\n".toUTF8
  else if name = "twice" then .file ".IPPcode24\nWRITE int@1\nLABEL on\nLABEL on\n".toUTF8
  else if name = "text" then .file "WRITE int@1\n".toUTF8
  else .missing

theorem threeFiles_predicted :
    let check source := (Command.ofArguments ["check", source]).respond 0 threeFiles ByteArray.empty
    let run source fuel :=
      (Command.ofArguments ["run", source, "--input", "text"]).respond fuel threeFiles ByteArray.empty
    (check "zero" = some ⟨0, "OK: zero (3 instructions, 1 labels)\n", ""⟩ ∧
      ∀ fuel q, run "zero" fuel = some q → q.code ≤ 9 ∨ 52 ≤ q.code ∧ q.code ≤ 58) ∧
    (∃ message, check "twice" = some ⟨52, "", "error: " ++ message ++ "\n"⟩ ∧
      ∀ fuel, run "twice" fuel = some ⟨52, "", "runtime error: " ++ message ++ "\n"⟩) ∧
    ∀ fuel, run "text" fuel = some ⟨32, "", "error: text: line 1: expected header '.IPPcode24'\n"⟩ := by
  intro check run
  have hpredicts : ∀ source r, check source = some r → ∃ lines,
      Predicts source (loadFile threeFiles source) lines (run source) r := by
    intro source r hr
    obtain ⟨r', hr', h⟩ := check_predicts_run threeFiles ByteArray.empty source (some "text") _ rfl
    obtain rfl := Option.some.inj ((hr' 0).symm.trans hr)
    exact ⟨_, h⟩
  have hzero : check "zero" = some ⟨0, "OK: zero (3 instructions, 1 labels)\n", ""⟩ := by decide +kernel
  have htwice : check "twice" =
      some ⟨52, "", "error: label 'on' redefined at instruction 2 (first defined at 1)\n"⟩ := by decide +kernel
  have htext : check "text" = some ⟨32, "", "error: text: line 1: expected header '.IPPcode24'\n"⟩ := by
    decide +kernel
  refine ⟨⟨hzero, ?_⟩, ?_, ?_⟩
  · obtain ⟨lines, h⟩ := hpredicts _ _ hzero
    obtain ⟨p, count, -, -, -, hanswers⟩ := h.accepted rfl
    intro fuel q hq
    obtain ⟨m, o, -, -, ⟨ending, -, hcode⟩ | ⟨f, -, hlow, hhigh, -⟩⟩ := hanswers fuel q hq
    · exact Or.inl hcode
    · exact Or.inr ⟨hlow, hhigh⟩
  · obtain ⟨lines, h⟩ := hpredicts _ _ htwice
    obtain ⟨p, f, name, first, -, -, hcheck, hrun⟩ := h.redefined rfl
    rw [hcheck] at htwice
    exact ⟨f.message, htwice, fun fuel => (hrun fuel).1⟩
  · obtain ⟨lines, h⟩ := hpredicts _ _ htext
    exact (h.same (Or.inr rfl)).2

end FrameMachine
