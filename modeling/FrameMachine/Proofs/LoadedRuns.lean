import FrameMachine.Proofs.Faults
import FrameMachine.Proofs.RoundTrip

/-!
# Runs of loaded programs

What the loader accepts, the machine can read: the arguments of a loadable program have the kinds and
texts that its instructions need, except that a string may hold an escape that is not allowed. This is
found only when its instruction is executed.
-/

namespace FrameMachine

namespace Program

theorem Loadable.of_get {p : Program} (hp : p.Loadable) {k : Nat} {i : Instruction}
    (hi : p.get? k = some i) : i.Written :=
  hp.written i (List.mem_of_getElem? hi)

theorem Loadable.collect_fault {p : Program} (hp : p.Loadable) {f : Failure}
    (h : Labels.collect p = .error f) : ∃ name first, f.fault = .labelRedefined name first := by
  rcases Labels.collect_fault h with hredefined | ⟨i, hi, hop, hname⟩
  · exact hredefined
  · obtain ⟨name, hok⟩ := labelName_of_written (hp.of_get hi) hop
    rw [hok] at hname
    cases hname

theorem Loadable.step_fault {p : Program} (hp : p.Loadable) {m next : Machine} {f : Failure}
    (h : m.step p = (next, some (.error f))) :
    f.fault.category ≠ .structural ∧
      ∀ text, f.fault = .invalidEscape text →
        ∃ i a, p.get? m.pc = some i ∧ a ∈ i.arguments ∧ a.Forbidden ∧ a.text = text := by
  obtain ⟨i, hi, -, hoperation | hdynamic | ⟨w, reason, -, hfault⟩⟩ := Machine.step_fault h
  · obtain ⟨a, ha, hforbidden, hfault⟩ := operation_of_written (hp.of_get hi) hoperation
    rw [hfault]
    refine ⟨nofun, fun text htext => ⟨i, a, hi, ha, hforbidden, ?_⟩⟩
    exact Fault.invalidEscape.inj htext
  · refine ⟨(Fault.category_of_isDynamic hdynamic).1, fun text htext => ?_⟩
    rw [htext] at hdynamic
    cases hdynamic
  · rw [hfault]
    exact ⟨nofun, nofun⟩

end Program

open Machine in
/-- A program that loads never fails for the form of its instructions: its arguments cause no fault but that of
a forbidden escape, where it is executed. -/
theorem loaded_runs_never_structural {t : String} {p : Program} (hload : Program.load t = .ok p) :
    (∀ f, Labels.collect p = .error f → ∃ name first, f.fault = .labelRedefined name first) ∧
    (∀ i ∈ p.instructions,
      ((∃ f, i.operation = .error f) ↔ ∃ a ∈ i.arguments, a.Forbidden) ∧
      ∀ f, i.operation = .error f → ∃ a ∈ i.arguments, a.Forbidden ∧ f = .invalidEscape a.text) ∧
    ∀ input device m fuel next f, Reachable p input device m →
      m.execute p fuel = (next, some (.error f)) →
      f.fault.category ≠ .structural ∧
        ∀ text, f.fault = .invalidEscape text →
          ∃ k n i a, m.execute p k = (n, none) ∧ n.step p = (next, some (.error f)) ∧
            p.get? n.pc = some i ∧ a ∈ i.arguments ∧ a.Forbidden ∧ a.text = text := by
  have hp : p.Loadable := loadable_of_load hload
  refine ⟨fun f => hp.collect_fault,
    fun i hi => ⟨⟨?_, ?_⟩, fun f => operation_of_written (hp.written i hi)⟩, ?_⟩
  · rintro ⟨f, hf⟩
    obtain ⟨a, ha, hforbidden, -⟩ := operation_of_written (hp.written i hi) hf
    exact ⟨a, ha, hforbidden⟩
  · rintro ⟨a, ha, hforbidden⟩
    exact operation_of_forbidden (hp.written i hi) ha hforbidden
  · intro input device m fuel next f _ h
    rcases execute_outcome h with ⟨g, hcollect, hg, -⟩ | ⟨k, n, hn, hstep⟩
    · obtain rfl := Except.error.inj hg
      obtain ⟨name, first, hredefined⟩ := hp.collect_fault hcollect
      rw [hredefined]
      exact ⟨nofun, nofun⟩
    · obtain ⟨hcategory, hescape⟩ := hp.step_fault hstep
      refine ⟨hcategory, fun text htext => ?_⟩
      obtain ⟨i, a, hfound⟩ := hescape text htext
      exact ⟨k, n, i, a, hn, hstep, hfound⟩

/-- The code 200 is not one that may be escaped. -/
def forbiddenSource : String := ".IPPcode24\nLABEL start\nWRITE string@a\\200\n"

open Machine in
theorem forbidden_escape_executed :
    ∃ p next, Program.load forbiddenSource = .ok p ∧
      (start Input.empty Device.reliable).execute p 2 = (next, some (.error ⟨1, .invalidEscape "a\\200"⟩)) ∧
      ∃ i a, p.get? 1 = some i ∧ a ∈ i.arguments ∧ a.Forbidden ∧ a.text = "a\\200" := by
  have hrun : ((Program.load forbiddenSource).toOption.map fun p =>
      ((start Input.empty Device.reliable).execute p 2).2) =
        some (some (.error ⟨1, .invalidEscape "a\\200"⟩)) := by decide +kernel
  obtain ⟨p, hp, houtcome⟩ := Option.map_eq_some_iff.mp hrun
  have hload := load_of_toOption hp
  have hexecute : (start Input.empty Device.reliable).execute p 2 =
      (_, some (.error ⟨1, .invalidEscape "a\\200"⟩)) := Prod.ext rfl houtcome
  obtain ⟨-, -, hruns⟩ := loaded_runs_never_structural hload
  obtain ⟨-, hescape⟩ := hruns Input.empty Device.reliable _ 2 _ _ .start hexecute
  obtain ⟨k, n, i, a, -, hstep, hi, hfound⟩ := hescape _ rfl
  obtain ⟨-, -, hindex, -⟩ := Machine.step_fault hstep
  rw [← hindex] at hi
  exact ⟨p, _, hload, hexecute, i, a, hi, hfound⟩

end FrameMachine
