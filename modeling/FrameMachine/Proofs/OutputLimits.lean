import FrameMachine.Proofs.History
import FrameMachine.Proofs.Lockstep

/-!
# Devices that stop accepting

Runs on two devices go the same way as long as the devices agree about the writes that are issued
(`execute_onDevice`). A run on a device that accepts so many writes to each stream therefore follows the run
on a reliable device up to the first write beyond the limits (`Overrun`), which is where it fails. A device
that fails to flush makes a difference at the end only.

The writes of a run may be infinitely many. They are given by the finite lists of writes with which they
begin (`Program.Emits`).
-/

namespace FrameMachine

/-! ## Limits -/

/-- No stream has more writes than its limit allows. -/
def Within (limit : Stream → Option Nat) (ws : List Write) : Prop :=
  ∀ s n, limit s = some n → ws.countP (·.stream = s) ≤ n

/-- After writes that were all accepted, a further one is accepted as long as its stream has not reached
its limit. -/
def Device.AcceptsUpTo (limit : Stream → Option Nat) (d : Device) : Prop :=
  ∀ (ws : List Write) (w : Write), d.refusal (ws.map (⟨·, true⟩)) w = none ↔
    ∀ n, limit w.stream = some n → ws.countP (·.stream = w.stream) < n

section
variable {limit : Stream → Option Nat}

theorem Within.nil : Within limit [] := fun _ _ _ => Nat.zero_le _

theorem Within.mono {ws vs : List Write} (h : Within limit ws) (hbegins : vs <+: ws) : Within limit vs :=
  fun s n hn => (hbegins.sublist.countP_le).trans (h s n hn)

theorem Within.append_iff {ws : List Write} (h : Within limit ws) (w : Write) :
    Within limit (ws ++ [w]) ↔ ∀ n, limit w.stream = some n → ws.countP (·.stream = w.stream) < n := by
  constructor
  · intro hw n hn
    have hcount := hw w.stream n hn
    simp only [List.countP_append, List.countP_singleton, decide_true, ite_true] at hcount
    omega
  · intro hw s n hn
    rw [List.countP_append, List.countP_singleton]
    by_cases hs : w.stream = s
    · subst hs
      have hcount := hw n hn
      simp only [decide_true, ite_true]
      omega
    · simpa [hs] using h s n hn

theorem Device.acceptsUpTo_limited (flushRefusal : Option String) :
    (Device.limited limit flushRefusal).AcceptsUpTo limit := by
  intro ws w
  have hcount : ((ws.map (Attempt.mk · true)).filter (·.write.stream = w.stream)).length =
      ws.countP (·.stream = w.stream) := by
    rw [← List.countP_eq_length_filter, List.countP_map]
    rfl
  unfold Device.limited
  simp only [hcount]
  cases limit w.stream with
  | none => simp
  | some n => simp

end

/-! ## What a step writes -/

def Output.Accepted (o : Output) : Prop := o.attempts = o.writes.reverse.map (⟨·, true⟩)

theorem Output.writes_of_refused {o : Output} {w : Write} {reason : String} (h : (o.write w).2 = some reason) :
    (o.write w).1.writes = o.writes := by
  rw [Machine.write_of_refused h]
  simp [writes]

theorem Output.Accepted.write {o : Output} (h : o.Accepted) {w : Write} (hw : (o.write w).2 = none) :
    (o.write w).1.Accepted := by
  have haccepted : o.device.refusal o.attempts w = none := hw
  have hattempts : (o.write w).1.attempts = ⟨w, true⟩ :: o.attempts := by simp [Output.write, haccepted]
  have h' : o.attempts = o.writes.reverse.map (⟨·, true⟩) := h
  rw [Accepted, writes_of_accepted hw, hattempts, h']
  simp

namespace Machine

/-- The next instruction of the machine is about to write. -/
def Issues (p : Program) (m : Machine) (w : Write) : Prop :=
  ∃ i, p.get? m.pc = some i ∧ i.effect p (m.advance i) = .ok (.write w)

section
variable {p : Program} {m : Machine}

theorem step_of_issues {w : Write} (h : m.Issues p w) :
    (m.step p).1.output = (m.output.write w).1 ∧
      (m.step p).2 = (m.output.write w).2.map fun reason => .error ⟨m.pc, .output reason⟩ := by
  obtain ⟨i, hi, he⟩ := h
  rw [step_of_get hi, he]
  refine ⟨rfl, ?_⟩
  have hrefusal : (Effect.write w).refusal (m.advance i) = (m.output.write w).2 := rfl
  simp only [settle, hrefusal]
  cases (m.output.write w).2 <;> rfl

theorem output_step_of_silent (h : ∀ w, ¬ m.Issues p w) : (m.step p).1.output = m.output := by
  cases hi : p.get? m.pc with
  | none => rw [step_of_end hi]
  | some i =>
    rw [step_of_get hi]
    cases he : i.effect p (m.advance i) with
    | error f => rfl
    | ok e =>
      cases e with
      | write w => exact absurd ⟨i, hi, he⟩ (h w)
      | _ => rfl

theorem output_step {P : Output → Prop} (hm : P m.output)
    (hwrite : ∀ w, m.Issues p w → P (m.output.write w).1) : P (m.step p).1.output := by
  by_cases h : ∃ w, m.Issues p w
  · obtain ⟨w, hw⟩ := h
    rw [(step_of_issues hw).1]
    exact hwrite w hw
  · rw [output_step_of_silent fun w hw => h ⟨w, hw⟩]
    exact hm

theorem writes_step : m.output.writes <+: (m.step p).1.output.writes := by
  refine @output_step p m (fun o => m.output.writes <+: o.writes) (List.prefix_refl _) fun w _ => ?_
  cases hw : (m.output.write w).2 with
  | none => rw [Output.writes_of_accepted hw]; exact List.prefix_append _ _
  | some reason => rw [Output.writes_of_refused hw]

theorem writes_execute {k fuel : Nat} (hk : k ≤ fuel) :
    (m.execute p k).1.output.writes <+: (m.execute p fuel).1.output.writes := by
  induction fuel, hk using Nat.le_induction with
  | base => exact List.prefix_refl _
  | succ fuel _ ih =>
    refine ih.trans ?_
    cases hn : m.execute p fuel with
    | mk n o =>
      cases o with
      | none => rw [execute_succ_of_none hn]; exact writes_step
      | some o => rw [execute_succ_of_some hn]

end

/-! ## Two devices -/

def onDevice (d : Device) (m : Machine) : Machine := { m with output := { m.output with device := d } }

theorem sameState_onDevice (d : Device) (m : Machine) : m.SameState (m.onDevice d) where
  frames := rfl
  labels := rfl
  calls := rfl
  values := rfl
  pc := rfl
  current := rfl
  last := rfl
  executed := rfl
  input := rfl

section
variable {p : Program} {d : Device} {m : Machine}

theorem effect_onDevice (i : Instruction) :
    i.effect p ((m.onDevice d).advance i) = i.effect p (m.advance i) :=
  ((sameState_onDevice d m).advance rfl).instruction_effect p i

theorem Issues.onDevice {w : Write} (h : m.Issues p w) : (m.onDevice d).Issues p w := by
  obtain ⟨i, hi, he⟩ := h
  exact ⟨i, hi, (effect_onDevice i).trans he⟩

/-- The devices answer in the same way to the write that is issued, if one is. -/
def DeviceAgrees (p : Program) (d : Device) (m : Machine) : Prop :=
  ∀ w, m.Issues p w → d.refusal m.output.attempts w = m.output.device.refusal m.output.attempts w

theorem step_onDevice (h : m.DeviceAgrees p d) :
    (m.onDevice d).step p = ((m.step p).1.onDevice d, (m.step p).2) := by
  cases hi : p.get? m.pc with
  | none => rw [step_of_end hi, @step_of_end p (m.onDevice d) hi]
  | some i =>
    rw [step_of_get hi, @step_of_get p (m.onDevice d) i hi, effect_onDevice]
    cases he : i.effect p (m.advance i) with
    | error f => rfl
    | ok e =>
      cases e with
      | write w =>
        have hw := h w ⟨i, hi, he⟩
        simp only [settle, Effect.apply, Effect.refusal, Output.write, onDevice, advance, hw]
      | _ => rfl

theorem execute_onDevice {k : Nat} (h : ∀ j < k, ∀ n, m.execute p j = (n, none) → n.DeviceAgrees p d) :
    (m.onDevice d).execute p k = ((m.execute p k).1.onDevice d, (m.execute p k).2) := by
  induction k with
  | zero =>
    unfold execute
    cases Labels.collect p <;> rfl
  | succ k ih =>
    have hk := ih fun j hj => h j (by omega)
    cases hn : m.execute p k with
    | mk n o =>
      rw [hn] at hk
      cases o with
      | none => rw [execute_succ_of_none hk, execute_succ_of_none hn, step_onDevice (h k (by omega) n hn)]
      | some o => rw [execute_succ_of_some hk, execute_succ_of_some hn]

end

/-! ## Accepted runs -/

theorem device_of_execute {p : Program} {input : Input} {d : Device} {k : Nat} {n : Machine} {o : Option Outcome}
    (hn : (start input d).execute p k = (n, o)) : n.output.device = d := by
  have h := execute_device p k (start input d)
  rwa [hn] at h

theorem accepted_execute (p : Program) (input : Input) (k : Nat) :
    ((start input Device.reliable).execute p k).1.output.Accepted := by
  have hstep : ∀ m : Machine, m.output.device = Device.reliable ∧ m.output.Accepted →
      (m.step p).1.output.device = Device.reliable ∧ (m.step p).1.output.Accepted := by
    intro m ⟨hdevice, hm⟩
    refine ⟨(step_device p m).trans hdevice, output_step hm fun w _ => hm.write ?_⟩
    simp only [Output.write, hdevice]
    rfl
  have hstart : (Output.start Device.reliable).Accepted := rfl
  unfold execute
  split
  · exact hstart
  · exact (run_invariant (P := fun n => n.output.device = Device.reliable ∧ n.output.Accepted)
      hstep k ⟨rfl, hstart⟩).2

section
variable {p : Program} {input : Input} {limit : Stream → Option Nat} {d : Device} {k : Nat} {n : Machine}
  {w : Write}

theorem writes_of_issues (hn : (start input Device.reliable).execute p k = (n, none)) (hw : n.Issues p w) :
    (n.step p).1.output.writes = n.output.writes ++ [w] := by
  rw [(step_of_issues hw).1, Output.writes_of_accepted]
  simp only [Output.write, device_of_execute hn]
  rfl

theorem issues_of_writes (h : (n.step p).1.output.writes = n.output.writes ++ [w]) : n.Issues p w := by
  by_cases hissues : ∃ v, n.Issues p v
  · obtain ⟨v, hv⟩ := hissues
    rw [(step_of_issues hv).1] at h
    cases hwrite : (n.output.write v).2 with
    | none =>
      rw [Output.writes_of_accepted hwrite] at h
      obtain rfl : v = w := by simpa using h
      exact hv
    | some reason =>
      rw [Output.writes_of_refused hwrite] at h
      simp at h
  · rw [output_step_of_silent fun v hv => hissues ⟨v, hv⟩] at h
    simp at h

theorem refusal_eq_none_iff (hd : d.AcceptsUpTo limit) {o : Output} (ho : o.Accepted)
    (hwithin : Within limit o.writes) : d.refusal o.attempts w = none ↔ Within limit (o.writes ++ [w]) := by
  have hattempts : o.attempts = o.writes.reverse.map (⟨·, true⟩) := ho
  rw [hattempts, hd, List.countP_reverse, hwithin.append_iff]

theorem accepted_of_execute {o : Option Outcome} (hn : (start input Device.reliable).execute p k = (n, o)) :
    n.output.Accepted := by
  have h := accepted_execute p input k
  rwa [hn] at h

theorem execute_of_within (hd : d.AcceptsUpTo limit)
    (h : Within limit ((start input Device.reliable).execute p k).1.output.writes) :
    (start input d).execute p k =
      (((start input Device.reliable).execute p k).1.onDevice d,
        ((start input Device.reliable).execute p k).2) := by
  refine @execute_onDevice p d (start input Device.reliable) k fun j hj n hn w hw => ?_
  have hbegins := @writes_execute p (start input Device.reliable) (j + 1) k hj
  rw [execute_succ_of_none hn, writes_of_issues hn hw] at hbegins
  have hnext : Within limit (n.output.writes ++ [w]) := h.mono hbegins
  have hwithin : Within limit n.output.writes := hnext.mono (List.prefix_append _ _)
  rw [(refusal_eq_none_iff hd (accepted_of_execute hn) hwithin).2 hnext, device_of_execute hn]
  rfl

/-! ## The first write beyond the limits -/

/-- After `k` steps on a reliable device the machine `n` takes the first step that writes more than the
limits allow. -/
structure Overrun (p : Program) (input : Input) (limit : Stream → Option Nat) (k : Nat) (n : Machine)
    (w : Write) : Prop where
  reached : (start input Device.reliable).execute p k = (n, none)
  writes : (n.step p).1.output.writes = n.output.writes ++ [w]
  within : Within limit n.output.writes
  beyond : ¬ Within limit (n.output.writes ++ [w])

theorem exists_overrun {fuel : Nat}
    (h : ¬ Within limit ((start input Device.reliable).execute p fuel).1.output.writes) :
    ∃ k < fuel, ∃ n w, Overrun p input limit k n w := by
  induction fuel with
  | zero =>
    refine absurd ?_ h
    unfold execute
    split <;> exact Within.nil
  | succ fuel ih =>
    by_cases hwithin : Within limit ((start input Device.reliable).execute p fuel).1.output.writes
    · cases hn : (start input Device.reliable).execute p fuel with
      | mk n o =>
        rw [hn] at hwithin
        cases o with
        | some o => rw [execute_succ_of_some hn] at h; exact absurd hwithin h
        | none =>
          rw [execute_succ_of_none hn] at h
          -- A silent step would have kept within the limits.
          by_cases hissues : ∃ w, n.Issues p w
          · obtain ⟨w, hw⟩ := hissues
            have hwrites := writes_of_issues hn hw
            rw [hwrites] at h
            exact ⟨fuel, by omega, n, w, hn, hwrites, hwithin, h⟩
          · rw [output_step_of_silent fun w hw => hissues ⟨w, hw⟩] at h
            exact absurd hwithin h
    · obtain ⟨k, hk, hcut⟩ := ih hwithin
      exact ⟨k, by omega, hcut⟩

section
variable (h : Overrun p input limit k n w)
include h

theorem Overrun.within_of_le {fuel : Nat} (hfuel : fuel ≤ k) :
    Within limit ((start input Device.reliable).execute p fuel).1.output.writes := by
  have hbegins := @writes_execute p (start input Device.reliable) fuel k hfuel
  rw [h.reached] at hbegins
  exact h.within.mono hbegins

theorem Overrun.running_of_le (hd : d.AcceptsUpTo limit) {fuel : Nat} (hfuel : fuel ≤ k) :
    ((start input d).execute p fuel).2 = none := by
  rw [execute_of_within hd (h.within_of_le hfuel)]
  cases hm : (start input Device.reliable).execute p fuel with
  | mk m o =>
    cases o with
    | none => rfl
    | some o =>
      have hend := execute_of_ended hm hfuel
      rw [h.reached] at hend
      cases hend

theorem Overrun.refused (hd : d.AcceptsUpTo limit) : ∃ reason, d.refusal n.output.attempts w = some reason := by
  refine Option.ne_none_iff_exists'.1 fun hnone => h.beyond ?_
  exact (refusal_eq_none_iff hd (accepted_of_execute h.reached) h.within).1 hnone

theorem Overrun.ended_of_lt (hd : d.AcceptsUpTo limit) {reason : String}
    (hreason : d.refusal n.output.attempts w = some reason) {fuel : Nat} (hfuel : k < fuel) :
    ((start input d).execute p fuel).1.output.writes = n.output.writes ∧
      ((start input d).execute p fuel).2 = some (.error ⟨n.pc, .output reason⟩) := by
  have hk := execute_of_within hd (h.within_of_le (Nat.le_refl k))
  rw [h.reached] at hk
  have hwrite : ((n.onDevice d).output.write w).2 = some reason := hreason
  obtain ⟨houtput, hend⟩ := step_of_issues ((issues_of_writes h.writes).onDevice (d := d))
  rw [hwrite] at hend
  have hlast : (start input d).execute p (k + 1) =
      (((n.onDevice d).step p).1, some (.error ⟨n.pc, .output reason⟩)) := by
    rw [execute_succ_of_none hk]
    exact Prod.ext rfl hend
  rw [execute_of_ended hlast hfuel, houtput, Output.writes_of_refused hwrite]
  exact ⟨rfl, rfl⟩

end

end

end Machine

/-! ## Whole runs -/

namespace Program

def Emits (p : Program) (input : Input) (d : Device) (ws : List Write) : Prop :=
  ∃ fuel, ws <+: (p.run fuel input d).1.output.writes

section
variable {p : Program} {input : Input} {limit : Stream → Option Nat} {d : Device}

theorem writes_run (fuel : Nat) :
    (p.run fuel input d).1.output.writes = ((Machine.start input d).execute p fuel).1.output.writes := by
  rw [run_eq]
  rfl

theorem emits_of_overrun {k : Nat} {n : Machine} {w : Write} (h : Machine.Overrun p input limit k n w) :
    p.Emits input Device.reliable (n.output.writes ++ [w]) := by
  refine ⟨k + 1, ?_⟩
  rw [writes_run, Machine.execute_succ_of_none h.reached, h.writes]

theorem emits_iff_within (hd : d.AcceptsUpTo limit) (ws : List Write) :
    p.Emits input d ws ↔ p.Emits input Device.reliable ws ∧ Within limit ws := by
  constructor
  · rintro ⟨fuel, hws⟩
    rw [writes_run] at hws
    by_cases hwithin : Within limit ((Machine.start input Device.reliable).execute p fuel).1.output.writes
    · rw [Machine.execute_of_within hd hwithin] at hws
      exact ⟨⟨fuel, by rwa [writes_run]⟩, hwithin.mono hws⟩
    · obtain ⟨k, hk, n, w, hcut⟩ := Machine.exists_overrun hwithin
      obtain ⟨reason, hreason⟩ := hcut.refused hd
      rw [(hcut.ended_of_lt hd hreason hk).1] at hws
      exact ⟨⟨k, by rwa [writes_run, hcut.reached]⟩, hcut.within.mono hws⟩
  · rintro ⟨⟨fuel, hws⟩, hbound⟩
    rw [writes_run] at hws
    by_cases hwithin : Within limit ((Machine.start input Device.reliable).execute p fuel).1.output.writes
    · refine ⟨fuel, ?_⟩
      rwa [writes_run, Machine.execute_of_within hd hwithin]
    · obtain ⟨k, hk, n, w, hcut⟩ := Machine.exists_overrun hwithin
      refine ⟨k, ?_⟩
      rw [writes_run, Machine.execute_of_within hd (hcut.within_of_le (Nat.le_refl k)), hcut.reached]
      -- Two beginnings of the same writes, of which only the shorter is within the limits.
      have hnext := @Machine.writes_execute p (Machine.start input Device.reliable) (k + 1) fuel hk
      rw [Machine.execute_succ_of_none hcut.reached, hcut.writes] at hnext
      rcases List.prefix_or_prefix_of_prefix hws hnext with hshort | hlong
      · rcases List.prefix_concat_iff.1 hshort with rfl | hshort
        · exact absurd hbound hcut.beyond
        · exact hshort
      · exact absurd (hbound.mono hlong) hcut.beyond

theorem outcome_of_within (hd : d.AcceptsUpTo limit) (hflush : d.flushRefusal = none) {fuel : Nat}
    (h : Within limit (p.run fuel input Device.reliable).1.output.writes) :
    (p.run fuel input d).2 = (p.run fuel input Device.reliable).2 := by
  rw [writes_run] at h
  rw [run_eq, run_eq, Machine.execute_of_within hd h, hflush]
  rfl

theorem run_of_overrun (hd : d.AcceptsUpTo limit) {k : Nat} {n : Machine} {w : Write}
    (h : Machine.Overrun p input limit k n w) :
    ∃ reason, d.refusal n.output.attempts w = some reason ∧
      (∀ fuel ≤ k, (p.run fuel input d).2 = none) ∧
      ∀ fuel, k < fuel → (p.run fuel input d).1.output.writes = n.output.writes ∧
        (p.run fuel input d).2 = some (.error ⟨n.pc, .output reason⟩) := by
  obtain ⟨reason, hreason⟩ := h.refused hd
  refine ⟨reason, hreason, fun fuel hfuel => ?_, fun fuel hfuel => ?_⟩
  · rw [run_eq, h.running_of_le hd hfuel]
    rfl
  · obtain ⟨hwrites, hend⟩ := h.ended_of_lt hd hreason hfuel
    refine ⟨(writes_run fuel).trans hwrites, ?_⟩
    rw [run_eq, hend]
    cases d.flushRefusal <;> rfl

/-! ## Flushing -/

theorem flushes_execute (fuel : Nat) : ((Machine.start input d).execute p fuel).1.output.flushes = 0 := by
  unfold Machine.execute
  split
  · rfl
  · exact Machine.run_invariant (P := fun m => m.output.flushes = 0)
      (fun m hm => @Machine.output_step p m (fun o => o.flushes = 0) hm fun _ _ => hm) fuel rfl

theorem flushes_of_ended {fuel : Nat} {m : Machine} {o : Outcome} (h : p.run fuel input d = (m, some o)) :
    m.output.flushes = 1 := by
  rw [run_eq, Prod.mk.injEq] at h
  obtain ⟨rfl, hend⟩ := h
  have hsome : ((Machine.start input d).execute p fuel).2.isSome = true := by
    rw [← Option.isSome_map, hend]
    rfl
  simp [Machine.flushIf, hsome, flushes_execute]

theorem run_flushRefusal (fuel : Nat) (reason : String) :
    p.run fuel input { d with flushRefusal := some reason } =
      ((p.run fuel input { d with flushRefusal := none }).1.onDevice { d with flushRefusal := some reason },
        (p.run fuel input { d with flushRefusal := none }).2.map fun
          | .ok _ => .error ⟨p.length, .output reason⟩
          | .error f => .error f) := by
  have hexecute := @Machine.execute_onDevice p { d with flushRefusal := some reason }
    (Machine.start input { d with flushRefusal := none }) fuel fun j _ n hn w _ => by
      rw [Machine.device_of_execute hn]
  have hstart : (Machine.start input { d with flushRefusal := none }).onDevice
    { d with flushRefusal := some reason } = Machine.start input { d with flushRefusal := some reason } := rfl
  rw [hstart] at hexecute
  rw [run_eq, run_eq, hexecute]
  cases ((Machine.start input { d with flushRefusal := none }).execute p fuel).2 with
  | none => rfl
  | some o => cases o <;> rfl

end

/-- On a device with limits a run writes the longest beginning that keeps within them, and fails at the
instruction that issues the next write. -/
theorem writes_cut_at_limit (p : Program) (input : Input) {limit : Stream → Option Nat} {d : Device}
    (hd : d.AcceptsUpTo limit) :
    (∀ ws, p.Emits input d ws ↔ p.Emits input Device.reliable ws ∧ Within limit ws) ∧
      ((∀ ws, p.Emits input Device.reliable ws → Within limit ws) → d.flushRefusal = none →
        ∀ fuel, (p.run fuel input d).2 = (p.run fuel input Device.reliable).2) ∧
      ((∃ ws, p.Emits input Device.reliable ws ∧ ¬ Within limit ws) →
        ∃ k n w reason, Machine.Overrun p input limit k n w ∧
          p.Emits input Device.reliable (n.output.writes ++ [w]) ∧
          d.refusal n.output.attempts w = some reason ∧
          (∀ fuel ≤ k, (p.run fuel input d).2 = none) ∧
          ∀ fuel, k < fuel → (p.run fuel input d).1.output.writes = n.output.writes ∧
            (p.run fuel input d).2 = some (.error ⟨n.pc, .output reason⟩)) ∧
      (∀ (device : Device) (reason : String) (fuel : Nat),
        p.run fuel input { device with flushRefusal := some reason } =
          ((p.run fuel input { device with flushRefusal := none }).1.onDevice
              { device with flushRefusal := some reason },
            (p.run fuel input { device with flushRefusal := none }).2.map fun
              | .ok _ => .error ⟨p.length, .output reason⟩
              | .error f => .error f)) ∧
      ∀ (device : Device) (fuel : Nat) (m : Machine) (o : Outcome),
        p.run fuel input device = (m, some o) → m.output.flushes = 1 := by
  refine ⟨emits_iff_within hd, fun hall hflush fuel => ?_, ?_, fun _ reason fuel => run_flushRefusal fuel reason,
    fun _ _ _ _ h => flushes_of_ended h⟩
  · exact outcome_of_within hd hflush (hall _ ⟨fuel, List.prefix_refl _⟩)
  · rintro ⟨ws, ⟨fuel, hws⟩, hbeyond⟩
    rw [writes_run] at hws
    obtain ⟨k, -, n, w, hcut⟩ := Machine.exists_overrun fun hwithin => hbeyond (hwithin.mono hws)
    obtain ⟨reason, hreason, hrun⟩ := run_of_overrun hd hcut
    exact ⟨k, n, w, reason, hcut, emits_of_overrun hcut, hreason, hrun⟩

/-- Writes to both streams in turn, without an end. -/
def alternating : Program where
  instructions := [⟨1, .label, [⟨0, .label, "again"⟩]⟩, ⟨2, .write, [⟨0, .literal .string, "o"⟩]⟩,
    ⟨3, .dprint, [⟨0, .literal .string, "e"⟩]⟩, ⟨4, .jump, [⟨0, .label, "again"⟩]⟩]
  ordered := by decide
  positive := by decide
  placed := by decide

def twoAndOne : Stream → Option Nat
  | .out => some 2
  | .err => some 1

theorem alternating_cut :
    let d := Device.limited twoAndOne none
    d.AcceptsUpTo twoAndOne ∧
      (∃ ws, alternating.Emits Input.empty Device.reliable ws ∧ ¬ Within twoAndOne ws) ∧
      alternating.Emits Input.empty d [⟨.out, "o"⟩, ⟨.err, "e"⟩, ⟨.out, "o"⟩] ∧
      ∃ k, ∀ fuel, k < fuel →
        (alternating.run fuel Input.empty d).1.output.writes = [⟨.out, "o"⟩, ⟨.err, "e"⟩, ⟨.out, "o"⟩] ∧
        (alternating.run fuel Input.empty d).2 = some (.error ⟨2, .output "stderr closed"⟩) := by
  intro d
  have hd : d.AcceptsUpTo twoAndOne := Device.acceptsUpTo_limited none
  have hlong : alternating.Emits Input.empty Device.reliable
      [⟨.out, "o"⟩, ⟨.err, "e"⟩, ⟨.out, "o"⟩, ⟨.err, "e"⟩] := ⟨7, by decide⟩
  have hbeyond : ¬ Within twoAndOne [⟨.out, "o"⟩, ⟨.err, "e"⟩, ⟨.out, "o"⟩, ⟨.err, "e"⟩] :=
    fun h => absurd (h .err 1 rfl) (by decide)
  obtain ⟨hemits, -, hcut, -⟩ := writes_cut_at_limit alternating Input.empty hd
  refine ⟨hd, ⟨_, hlong, hbeyond⟩, (hemits _).2 ⟨?_, ?_⟩, ?_⟩
  · exact ⟨7, by decide⟩
  · intro s n hn
    cases s with
    | out => obtain rfl := Option.some.inj hn; decide
    | err => obtain rfl := Option.some.inj hn; decide
  · obtain ⟨k, n, w, reason, -, -, -, hrunning, hended⟩ := hcut ⟨_, hlong, hbeyond⟩
    -- The outcome after seven steps tells where the run was cut.
    have hseven : k < 7 := by
      by_contra hk
      have := hrunning 7 (by omega)
      revert this
      decide
    obtain ⟨hwrites, hend⟩ := hended 7 hseven
    refine ⟨k, fun fuel hfuel => ?_⟩
    obtain ⟨hwrites', hend'⟩ := hended fuel hfuel
    exact ⟨hwrites'.trans (hwrites.symm.trans rfl), hend'.trans (hend.symm.trans rfl)⟩

end Program

end FrameMachine
