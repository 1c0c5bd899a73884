import FrameMachine.Proofs.Step

/-!
# Histories

`after p m t` is the machine after `t` further instructions, in as many executions of the program as
that takes. Collecting the labels again changes nothing, so every machine that executions of any lengths
lead to is one of these moments (`executions_eq_after`), and from one moment to the next the machine takes
a step (`execute_after`). A single execution is taken apart at its last step.
-/

namespace FrameMachine

theorem Effect.labels_apply (e : Effect) (m : Machine) : (e.apply m).labels = m.labels := by
  cases e <;> rfl

namespace Machine

theorem labels_step (p : Program) (m : Machine) : (m.step p).1.labels = m.labels := by
  have hstep := step_cases p m
  generalize (m.step p).1 = next, (m.step p).2 = o at hstep
  cases hstep with
  | next _ _ _ _ => exact Effect.labels_apply _ _
  | _ => rfl

/-! ## Collected labels -/

/-- The labels of the machine are those of the program, if it has a table of labels. -/
def Collected (p : Program) (m : Machine) : Prop := ∀ t, Labels.collect p = .ok t → m.labels = t

theorem Collected.step {p : Program} {m : Machine} (h : m.Collected p) : (m.step p).1.Collected p := by
  intro t ht
  rw [labels_step]
  exact h t ht

theorem collected_execute (p : Program) (fuel : Nat) (m : Machine) : (m.execute p fuel).1.Collected p := by
  unfold execute
  cases hcollect : Labels.collect p with
  | error f =>
    intro t ht
    rw [hcollect] at ht
    cases ht
  | ok labels =>
    refine run_invariant (fun n hn => hn.step) fuel ?_
    intro t ht
    exact Except.ok.inj (hcollect.symm.trans ht)

section
variable {p : Program} {m : Machine}

theorem execute_of_error {f : Failure} (hcollect : Labels.collect p = .error f) (fuel : Nat) :
    m.execute p fuel = (m, some (.error f)) := by
  simp only [execute, hcollect]

theorem execute_of_collected (h : m.Collected p) {t : Labels} (hcollect : Labels.collect p = .ok t)
    (fuel : Nat) : m.execute p fuel = run p fuel m := by
  have hlabels : { m with labels := t } = m := by rw [← h t hcollect]
  simp only [execute, hcollect, hlabels]

theorem execute_zero (h : m.Collected p) : (m.execute p 0).1 = m := by
  cases hcollect : Labels.collect p with
  | error f => rw [execute_of_error hcollect]
  | ok t =>
    rw [execute_of_collected h hcollect]
    rfl

theorem run_one : run p 1 m = m.step p := by
  rw [run]
  split
  · rename_i next h
    exact h.symm
  · rename_i next o h
    exact h.symm

theorem execute_one (h : m.Collected p) {t : Labels} (hcollect : Labels.collect p = .ok t) :
    m.execute p 1 = m.step p := by
  rw [execute_of_collected h hcollect, run_one]

theorem execute_execute_zero (fuel : Nat) : (m.execute p 0).1.execute p fuel = m.execute p fuel := by
  cases hcollect : Labels.collect p with
  | error f => simp only [execute_of_error hcollect]
  | ok t =>
    rw [execute_of_collected (collected_execute p 0 m) hcollect]
    simp only [execute, hcollect, run]

end

/-! ## Moments -/

def after (p : Program) (m : Machine) : Nat → Machine
  | 0 => (m.execute p 0).1
  | t + 1 => ((after p m t).execute p 1).1

section
variable {p : Program}

theorem collected_after (m : Machine) (t : Nat) : (m.after p t).Collected p := by
  cases t with
  | zero => exact collected_execute p 0 m
  | succ t => exact collected_execute p 1 _

theorem after_add (m : Machine) (s t : Nat) : (m.after p s).after p t = m.after p (s + t) := by
  induction t with
  | zero => exact execute_zero (collected_after m s)
  | succ t ih => rw [after, ih, Nat.add_succ, after]

theorem after_one {m : Machine} (h : m.Collected p) {t : Labels} (hcollect : Labels.collect p = .ok t) :
    m.after p 1 = (m.step p).1 := by
  rw [after, after, execute_zero h, execute_one h hcollect]

theorem run_eq_after {t : Labels} (hcollect : Labels.collect p = .ok t) (fuel : Nat) {m : Machine}
    (h : m.Collected p) : ∃ k ≤ fuel, (run p fuel m).1 = m.after p k := by
  induction fuel generalizing m with
  | zero => exact ⟨0, Nat.le_refl 0, (execute_zero h).symm⟩
  | succ fuel ih =>
    have hone := after_one h hcollect
    have hnext := h.step
    rw [run]
    split
    · rename_i next hstep
      rw [hstep] at hone hnext
      obtain ⟨k, hk, hrun⟩ := ih hnext
      exact ⟨1 + k, by omega, by rw [hrun, ← after_add, hone]⟩
    · rename_i next o hstep
      rw [hstep] at hone
      exact ⟨1, by omega, hone.symm⟩

theorem execute_eq_after (m : Machine) (fuel : Nat) : ∃ k ≤ fuel, (m.execute p fuel).1 = m.after p k := by
  cases hcollect : Labels.collect p with
  | error f => exact ⟨0, Nat.zero_le _, by rw [after, execute_of_error hcollect, execute_of_error hcollect]⟩
  | ok t =>
    have hcollected := collected_execute p 0 m
    obtain ⟨k, hk, hrun⟩ := run_eq_after hcollect fuel hcollected
    refine ⟨k, hk, ?_⟩
    rw [← execute_execute_zero, execute_of_collected hcollected hcollect, hrun]
    have hadd := @after_add p m 0 k
    rwa [Nat.zero_add] at hadd

theorem executions_eq_after (m : Machine) (fuel : Nat) (fuels : List Nat) :
    ∃ k, fuels.foldl (fun n fuel => (n.execute p fuel).1) (m.execute p fuel).1 = m.after p k := by
  obtain ⟨s, -, hs⟩ := @execute_eq_after p m fuel
  rw [hs]
  clear hs
  induction fuels generalizing s with
  | nil => exact ⟨s, rfl⟩
  | cons fuel fuels ih =>
    obtain ⟨k, -, hk⟩ := @execute_eq_after p (m.after p s) fuel
    rw [List.foldl_cons, hk, after_add]
    exact ih (s + k)

theorem collect_of_execute {m : Machine} {fuel : Nat} (h : (m.execute p fuel).2 = none) :
    ∃ t, Labels.collect p = .ok t := by
  cases hcollect : Labels.collect p with
  | error f =>
    rw [execute_of_error hcollect] at h
    cases h
  | ok t => exact ⟨t, rfl⟩

theorem after_zero {t : Labels} (hcollect : Labels.collect p = .ok t) (m : Machine) :
    m.after p 0 = { m with labels := t } := by
  simp only [after, execute, hcollect, run]

theorem exists_after_zero (p : Program) (m : Machine) : ∃ t, m.after p 0 = { m with labels := t } := by
  cases hcollect : Labels.collect p with
  | error f => exact ⟨m.labels, by rw [after, execute_of_error hcollect]⟩
  | ok t => exact ⟨t, after_zero hcollect m⟩

theorem execute_after {t : Labels} (hcollect : Labels.collect p = .ok t) (m : Machine) (k : Nat) :
    (m.after p k).execute p 1 = (m.after p k).step p := execute_one (collected_after m k) hcollect

theorem after_succ {t : Labels} (hcollect : Labels.collect p = .ok t) (m : Machine) (k : Nat) :
    m.after p (k + 1) = ((m.after p k).step p).1 := by
  rw [after, execute_after hcollect]

theorem step_after_zero {t : Labels} (hcollect : Labels.collect p = .ok t) (m : Machine) :
    (m.after p 0).step p = m.execute p 1 := by
  rw [← execute_after hcollect, after, execute_execute_zero]

theorem step_of_execute {t : Labels} (hcollect : Labels.collect p = .ok t) {m next : Machine} {fuel : Nat}
    {o : Outcome} (h : m.execute p fuel = (next, some o)) : ∃ k, (m.after p k).step p = (next, some o) := by
  rcases execute_outcome h with ⟨f, herror, -⟩ | ⟨k, n, hn, hlast⟩
  · rw [hcollect] at herror
    cases herror
  · obtain ⟨j, -, hj⟩ := @execute_eq_after p m k
    rw [hn] at hj
    exact ⟨j, by rw [← hj, hlast]⟩

end

/-! ## Executions by their last step -/

section
variable {p : Program} {m n : Machine} {k : Nat}

theorem run_succ (k : Nat) (m : Machine) :
    run p (k + 1) m = match run p k m with
      | (n, none) => n.step p
      | ended => ended := by
  induction k generalizing m with
  | zero => exact run_one
  | succ k ih =>
    cases hstep : m.step p with
    | mk next o =>
      cases o with
      | none =>
        have hfirst : ∀ j, run p (j + 1) m = run p j next := fun j => by rw [run, hstep]
        rw [hfirst, hfirst, ih]
      | some outcome => simp only [run, hstep]

theorem execute_succ_of_none (h : m.execute p k = (n, none)) : m.execute p (k + 1) = n.step p := by
  unfold execute at h ⊢
  cases hcollect : Labels.collect p with
  | error f => simp [hcollect] at h
  | ok labels =>
    simp only [hcollect] at h
    simp only [run_succ, h]

theorem execute_succ_of_some {o : Outcome} (h : m.execute p k = (n, some o)) :
    m.execute p (k + 1) = (n, some o) := by
  unfold execute at h ⊢
  cases hcollect : Labels.collect p with
  | error f => simpa [hcollect] using h
  | ok labels =>
    simp only [hcollect] at h
    simp only [run_succ, h]

theorem execute_of_ended {o : Outcome} (h : m.execute p k = (n, some o)) {fuel : Nat} (hk : k ≤ fuel) :
    m.execute p fuel = (n, some o) := by
  induction hk with
  | refl => exact h
  | step _ ih => exact execute_succ_of_some ih

end

end Machine

end FrameMachine
