import FrameMachine.Proofs.Renumbering
import Mathlib.Order.Bounds.Basic

/-!
# The program of a list of instructions

An instruction is made from its arguments in any order, and a program from its instructions in any order.
Both are sorted, so what counts is which positions and which order numbers there are: `Sound` says it of an
instruction, and `ofInstructions_exact` of a list. `Refused` tells which defect is reported.
-/

namespace FrameMachine

/-! ## Sorting -/

theorem sortOn_eq_of_perm {α : Type} {key : α → Int} {l l' : List α} (h : l.Perm l')
    (hkey : ∀ a ∈ l, ∀ b ∈ l, key a = key b → a = b) : sortOn key l = sortOn key l' := by
  have hperm : (sortOn key l).Perm (sortOn key l') := (perm_sortOn key l).trans (h.trans (perm_sortOn key l').symm)
  refine hperm.eq_of_pairwise ?_ (pairwise_sortOn key l) (pairwise_sortOn key l')
  intro a b ha hb hab hba
  exact hkey a (mem_sortOn.mp ha) b (h.mem_iff.mpr (mem_sortOn.mp hb)) (Int.le_antisymm hab hba)

theorem firstRepeat_isLeast {l : List Int} (hs : l.Pairwise (· ≤ ·)) {o : Int} (h : firstRepeat l = some o) :
    IsLeast {o | 2 ≤ l.count o} o := by
  induction l with
  | nil => cases h
  | cons a l ih =>
    cases l with
    | nil => cases h
    | cons b l =>
      obtain ⟨ha, hl⟩ := List.pairwise_cons.mp hs
      by_cases hab : a = b
      · subst hab
        rw [firstRepeat, if_pos rfl, Option.some.injEq] at h
        subst h
        refine ⟨by simp, fun x hx => ?_⟩
        have hmem : x ∈ a :: a :: l := List.count_pos_iff.mp (Nat.lt_of_lt_of_le Nat.zero_lt_two hx)
        rcases List.mem_cons.mp hmem with rfl | hmem
        · exact Int.le_refl _
        · exact ha x hmem
      · rw [firstRepeat, if_neg hab] at h
        obtain ⟨htwice, hleast⟩ := ih hl h
        refine ⟨Nat.le_trans htwice (List.count_le_count_cons), fun x hx => ?_⟩
        -- The first number is smaller than all others, so it does not occur again.
        have honce : a ∉ b :: l := by
          intro hmem
          have hb := ha b List.mem_cons_self
          rcases List.mem_cons.mp hmem with rfl | hmem
          · exact hab rfl
          · have := (List.pairwise_cons.mp hl).1 a hmem
            omega
        by_cases hxa : x = a
        · subst hxa
          simp [List.count_eq_zero_of_not_mem honce] at hx
        · have htimes : 2 ≤ (a :: b :: l).count x := hx
          rw [List.count_cons_of_ne (Ne.symm hxa)] at htimes
          exact hleast htimes

theorem firstRepeat_eq_none_iff {l : List Int} (hs : l.Pairwise (· ≤ ·)) : firstRepeat l = none ↔ l.Nodup := by
  constructor
  · intro h
    exact (pairwise_lt_of_firstRepeat hs h).imp Int.ne_of_lt
  · intro h
    refine firstRepeat_of_pairwise ?_
    exact (hs.and h).imp fun hab => lt_of_le_of_ne hab.1 hab.2

theorem firstRepeat_eq_some_iff {l : List Int} (hs : l.Pairwise (· ≤ ·)) {o : Int} :
    firstRepeat l = some o ↔ IsLeast {o | 2 ≤ l.count o} o := by
  refine ⟨firstRepeat_isLeast hs, fun h => ?_⟩
  cases hl : firstRepeat l with
  | none =>
    have hcount := List.nodup_iff_count_le_one.mp ((firstRepeat_eq_none_iff hs).mp hl) o
    have htwice : 2 ≤ l.count o := h.1
    omega
  | some o' => rw [(firstRepeat_isLeast hs hl).unique h]

/-! ## Instructions -/

theorem firstGap_eq_some_iff {as : List Argument} {p q : Nat} :
    firstGap p as = some q ↔ ∃ k, q = p + k ∧ k < as.length ∧ (as.map (·.position))[k]? ≠ some q ∧
      ∀ j < k, (as.map (·.position))[j]? = some (p + j) := by
  induction as generalizing p with
  | nil => simp [firstGap]
  | cons a as ih =>
    rw [firstGap]
    by_cases ha : a.position = p
    · rw [if_pos ha, ih]
      constructor
      · rintro ⟨k, rfl, hk, hne, hbelow⟩
        refine ⟨k + 1, by omega, by simpa using hk, by simpa using hne, fun j hj => ?_⟩
        cases j with
        | zero => simp [ha]
        | succ j =>
          have := hbelow j (by omega)
          simpa [Nat.add_assoc, Nat.add_comm 1 j] using this
      · rintro ⟨k, rfl, hk, hne, hbelow⟩
        cases k with
        | zero => simp [ha] at hne
        | succ k =>
          refine ⟨k, by omega, by simpa using hk, by simpa using hne, fun j hj => ?_⟩
          have := hbelow (j + 1) (by omega)
          simpa [Nat.add_assoc, Nat.add_comm 1 j] using this
    · rw [if_neg ha, Option.some.injEq]
      constructor
      · rintro rfl
        exact ⟨0, by simp, by simp, by simpa using ha, by simp⟩
      · rintro ⟨k, rfl, -, -, hbelow⟩
        cases k with
        | zero => rfl
        | succ k => simpa [ha] using hbelow 0 (by omega)

namespace Instruction

def made (i : Instruction) : Instruction := make i.order i.opcode i.arguments

def positions (i : Instruction) : List Nat := i.arguments.map (·.position)

/-- The order number is positive, and the positions are `0, …, n - 1`, each once. -/
structure Sound (i : Instruction) : Prop where
  positive : 0 < i.order
  complete : i.positions.Perm (List.range i.arguments.length)

/-- The first index at which the sorted positions differ from `0, 1, 2, …`. -/
def GapAt (i : Instruction) (q : Nat) : Prop :=
  ∃ ps : List Nat, ps.Perm i.positions ∧ ps.Pairwise (· ≤ ·) ∧ q < ps.length ∧ ps[q]? ≠ some q ∧
    ∀ j < q, ps[j]? = some j

theorem positions_made_perm (i : Instruction) : i.made.positions.Perm i.positions :=
  (perm_sortOn _ i.arguments).map _

theorem positions_made_sorted (i : Instruction) : i.made.positions.Pairwise (· ≤ ·) := by
  have hsorted := pairwise_sortOn (fun a : Argument => (a.position : Int)) i.arguments
  exact List.pairwise_map.mpr (hsorted.imp fun h => Int.ofNat_le.mp h)

theorem length_made (i : Instruction) : i.made.arguments.length = i.arguments.length :=
  (perm_sortOn _ i.arguments).length_eq

theorem positions_made_unique {i : Instruction} {ps : List Nat} (hperm : ps.Perm i.positions)
    (hsorted : ps.Pairwise (· ≤ ·)) : ps = i.made.positions :=
  (hperm.trans i.positions_made_perm.symm).eq_of_pairwise (fun _ _ _ _ => Nat.le_antisymm) hsorted
    i.positions_made_sorted

theorem complete_iff {i : Instruction} :
    i.positions.Perm (List.range i.arguments.length) ↔ firstGap 0 i.made.arguments = none := by
  constructor
  · intro h
    apply firstGap_of_placed
    rw [length_made, ← List.range_eq_range']
    exact (positions_made_unique h.symm List.pairwise_le_range).symm
  · intro h
    have hplaced := firstGap_eq_none h
    rw [length_made, ← List.range_eq_range'] at hplaced
    rw [← hplaced]
    exact i.positions_made_perm.symm

theorem gapAt_iff {i : Instruction} {q : Nat} : i.GapAt q ↔ firstGap 0 i.made.arguments = some q := by
  rw [firstGap_eq_some_iff]
  constructor
  · rintro ⟨ps, hperm, hsorted, hlt, hne, hbelow⟩
    obtain rfl := positions_made_unique hperm hsorted
    refine ⟨q, by omega, by simpa [positions] using hlt, hne, fun j hj => ?_⟩
    rw [Nat.zero_add]
    exact hbelow j hj
  · rintro ⟨k, hq, hlt, hne, hbelow⟩
    rw [Nat.zero_add] at hq
    subst hq
    have hlength : q < i.made.positions.length := by simpa [positions] using hlt
    refine ⟨i.made.positions, i.positions_made_perm, i.positions_made_sorted, hlength, hne, ?_⟩
    intro j hj
    have := hbelow j hj
    rwa [Nat.zero_add] at this

theorem defect_made_eq_none_iff {i : Instruction} : i.made.defect? = none ↔ i.Sound := by
  unfold defect?
  by_cases horder : i.order ≤ 0
  · have hbad : i.made.order ≤ 0 := horder
    rw [if_pos hbad]
    simp only [reduceCtorEq, false_iff]
    exact fun h => absurd h.positive (by omega)
  · have hgood : ¬ i.made.order ≤ 0 := horder
    rw [if_neg hgood, Option.map_eq_none_iff, ← complete_iff]
    exact ⟨fun h => ⟨by omega, h⟩, fun h => h.complete⟩

theorem defect_made_eq_some_iff {i : Instruction} {d : Defect} :
    i.made.defect? = some d ↔ (i.order ≤ 0 ∧ d = .invalidOrder i.order) ∨
      (0 < i.order ∧ ∃ q, i.GapAt q ∧ d = .argumentGap i.order q) := by
  unfold defect?
  by_cases horder : i.order ≤ 0
  · have hbad : i.made.order ≤ 0 := horder
    have hneg : ¬ 0 < i.order := by omega
    rw [if_pos hbad]
    simp only [horder, hneg, true_and, false_and, or_false, Option.some.injEq]
    exact eq_comm
  · have hgood : ¬ i.made.order ≤ 0 := horder
    have hpos : 0 < i.order := by omega
    rw [if_neg hgood]
    simp only [horder, hpos, false_and, false_or, true_and, Option.map_eq_some_iff, gapAt_iff]
    exact exists_congr fun q => and_congr_right fun _ => eq_comm

/-! ## Arguments by position -/

theorem Sound.positions_made {i : Instruction} (h : i.Sound) : i.made.positions = List.range i.arguments.length :=
  (positions_made_unique h.complete.symm List.pairwise_le_range).symm

theorem Sound.position_inj {i : Instruction} (h : i.Sound) {a b : Argument} (ha : a ∈ i.arguments)
    (hb : b ∈ i.arguments) (hab : a.position = b.position) : a = b := by
  have hnodup : i.positions.Nodup := h.complete.nodup_iff.mpr List.nodup_range
  exact List.inj_on_of_nodup_map hnodup ha hb hab

theorem Sound.argument_made {i : Instruction} (h : i.Sound) (q : Nat) :
    i.made.argument? q = i.made.arguments[q]? := by
  unfold argument?
  cases ha : i.made.arguments[q]? with
  | none => rfl
  | some a =>
    have hq : q < i.arguments.length := by
      rw [← length_made]
      exact (List.getElem?_eq_some_iff.mp ha).1
    have hposition : i.made.positions[q]? = some a.position := by
      rw [positions, List.getElem?_map, ha, Option.map_some]
    rw [h.positions_made, List.getElem?_range hq, Option.some.injEq] at hposition
    simp [← hposition]

theorem Sound.argument_eq_some_iff {i : Instruction} (h : i.Sound) {q : Nat} {a : Argument} :
    i.made.argument? q = some a ↔ a ∈ i.arguments ∧ a.position = q := by
  constructor
  · intro ha
    unfold argument? at ha
    obtain ⟨hget, hposition⟩ := Option.filter_eq_some_iff.mp ha
    exact ⟨mem_sortOn.mp (List.mem_of_getElem? hget), by simpa using hposition⟩
  · rintro ⟨hmem, rfl⟩
    have hmade : a ∈ i.made.arguments := mem_sortOn.mpr hmem
    obtain ⟨k, hk⟩ := List.mem_iff_getElem?.mp hmade
    have hposition : i.made.positions[k]? = some a.position := by
      rw [positions, List.getElem?_map, hk, Option.map_some]
    have hlt : k < i.arguments.length := by
      rw [← length_made]
      exact (List.getElem?_eq_some_iff.mp hk).1
    rw [h.positions_made, List.getElem?_range hlt, Option.some.injEq] at hposition
    rw [h.argument_made, ← hposition, hk]

/-- The instructions have the same parts, but for the order of the arguments. -/
structure Reorders (i j : Instruction) : Prop where
  order : j.order = i.order
  opcode : j.opcode = i.opcode
  arguments : j.arguments.Perm i.arguments

theorem Reorders.made_eq {i j : Instruction} (h : i.Reorders j) (hi : i.Sound) : j.made = i.made := by
  have hsorted : sortOn (fun a => (a.position : Int)) i.arguments = sortOn (fun a => a.position) j.arguments :=
    sortOn_eq_of_perm h.arguments.symm fun a ha b hb hab => hi.position_inj ha hb (Int.ofNat.inj hab)
  unfold made make
  rw [h.order, h.opcode, hsorted]

end Instruction

/-! ## Programs -/

namespace Program

/-- The defect that is reported for a list: that of the first instruction that is not sound, or else the
least order number that is there twice. -/
inductive Refused : List Instruction → Defect → Prop
  | order {before after : List Instruction} {i : Instruction} : (∀ j ∈ before, j.Sound) → i.order ≤ 0 →
      Refused (before ++ i :: after) (.invalidOrder i.order)
  | gap {before after : List Instruction} {i : Instruction} {q : Nat} : (∀ j ∈ before, j.Sound) → 0 < i.order →
      i.GapAt q → Refused (before ++ i :: after) (.argumentGap i.order q)
  | repeated {l : List Instruction} {o : Int} : (∀ j ∈ l, j.Sound) → IsLeast {o | 2 ≤ (l.map (·.order)).count o} o →
      Refused l (.duplicateOrder o)

/-- The second list is the first with the instructions, and the arguments of each, in another order. -/
def Reorders (l l' : List Instruction) : Prop := ∃ m, m.Perm l ∧ List.Forall₂ Instruction.Reorders m l'

theorem ofInstructions_eq_ok_iff {l : List Instruction} : (∃ p, ofInstructions l = .ok p) ↔
    l.findSome? Instruction.defect? = none ∧ firstRepeat ((arrange l).map (·.order)) = none := by
  unfold ofInstructions
  split
  · rename_i d hd
    simp [hd]
  · rename_i hd
    split
    · rename_i o ho
      simp [ho]
    · rename_i ho
      exact ⟨fun _ => ⟨hd, ho⟩, fun _ => ⟨_, rfl⟩⟩

theorem ofInstructions_eq_error_iff {l : List Instruction} {d : Defect} : ofInstructions l = .error d ↔
    l.findSome? Instruction.defect? = some d ∨ l.findSome? Instruction.defect? = none ∧
      ∃ o, firstRepeat ((arrange l).map (·.order)) = some o ∧ d = .duplicateOrder o := by
  unfold ofInstructions
  split
  · rename_i d' hd
    simp [hd]
  · rename_i hd
    split
    · rename_i o ho
      simp [hd, ho, eq_comm]
    · rename_i ho
      simp [hd, ho]

section
variable (l : List Instruction)

theorem findSome_made_eq_none_iff : (l.map (·.made)).findSome? Instruction.defect? = none ↔ ∀ i ∈ l, i.Sound := by
  rw [List.findSome?_eq_none_iff]
  simp only [List.mem_map, forall_exists_index, and_imp, forall_apply_eq_imp_iff₂,
    Instruction.defect_made_eq_none_iff]

theorem findSome_made_eq_some_iff {d : Defect} : (l.map (·.made)).findSome? Instruction.defect? = some d ↔
    ∃ before i after, l = before ++ i :: after ∧ i.made.defect? = some d ∧ ∀ j ∈ before, j.Sound := by
  rw [List.findSome?_map, List.findSome?_eq_some_iff]
  simp only [Function.comp_apply, Instruction.defect_made_eq_none_iff]

theorem orders_arranged_perm : ((arrange (l.map (·.made))).map (·.order)).Perm (l.map (·.order)) := by
  have hperm := (perm_sortOn (·.order) (l.map (·.made))).map (·.order)
  rwa [List.map_map] at hperm

theorem orders_arranged_sorted : ((arrange (l.map (·.made))).map (·.order)).Pairwise (· ≤ ·) :=
  List.pairwise_map.mpr (pairwise_sortOn _ _)

theorem firstRepeat_orders_eq_none_iff :
    firstRepeat ((arrange (l.map (·.made))).map (·.order)) = none ↔ (l.map (·.order)).Nodup := by
  rw [firstRepeat_eq_none_iff (orders_arranged_sorted l), (orders_arranged_perm l).nodup_iff]

theorem firstRepeat_orders_eq_some_iff {o : Int} :
    firstRepeat ((arrange (l.map (·.made))).map (·.order)) = some o ↔
      IsLeast {o | 2 ≤ (l.map (·.order)).count o} o := by
  rw [firstRepeat_eq_some_iff (orders_arranged_sorted l)]
  simp only [(orders_arranged_perm l).count_eq]

theorem ofInstructions_made_ok_iff :
    (∃ p, ofInstructions (l.map (·.made)) = .ok p) ↔ (∀ i ∈ l, i.Sound) ∧ (l.map (·.order)).Nodup := by
  rw [ofInstructions_eq_ok_iff, findSome_made_eq_none_iff, firstRepeat_orders_eq_none_iff]

theorem ofInstructions_made_error_iff {d : Defect} :
    ofInstructions (l.map (·.made)) = .error d ↔ Refused l d := by
  rw [ofInstructions_eq_error_iff, findSome_made_eq_none_iff, findSome_made_eq_some_iff]
  simp only [firstRepeat_orders_eq_some_iff]
  constructor
  · rintro (⟨before, i, after, rfl, hi, hbefore⟩ | ⟨hsound, o, ho, rfl⟩)
    · rcases Instruction.defect_made_eq_some_iff.mp hi with ⟨horder, rfl⟩ | ⟨hpos, q, hq, rfl⟩
      · exact .order hbefore horder
      · exact .gap hbefore hpos hq
    · exact .repeated hsound ho
  · intro h
    cases h with
    | order hbefore horder =>
      exact Or.inl ⟨_, _, _, rfl, Instruction.defect_made_eq_some_iff.mpr (Or.inl ⟨horder, rfl⟩), hbefore⟩
    | gap hbefore hpos hq =>
      exact Or.inl ⟨_, _, _, rfl, Instruction.defect_made_eq_some_iff.mpr (Or.inr ⟨hpos, _, hq, rfl⟩), hbefore⟩
    | repeated hsound ho => exact Or.inr ⟨hsound, _, ho, rfl⟩

end

theorem made_of_reorders {m l' : List Instruction} (h : List.Forall₂ Instruction.Reorders m l')
    (hsound : ∀ i ∈ m, i.Sound) : l'.map (·.made) = m.map (·.made) := by
  induction h with
  | nil => rfl
  | @cons i j m l' hij _ ih =>
    have hi := hsound i List.mem_cons_self
    rw [List.map_cons, List.map_cons, hij.made_eq hi, ih fun k hk => hsound k (List.mem_cons_of_mem i hk)]

theorem ofInstructions_of_reorders {l l' : List Instruction} {p : Program} (h : Reorders l l')
    (hp : ofInstructions (l.map (·.made)) = .ok p) : ofInstructions (l'.map (·.made)) = .ok p := by
  obtain ⟨m, hperm, hm⟩ := h
  have hsound := ((ofInstructions_made_ok_iff l).mp ⟨p, hp⟩).1
  rw [made_of_reorders hm fun i hi => hsound i (hperm.mem_iff.mp hi)]
  exact ofInstructions_of_perm ((hperm.map _).trans (perm_of_ofInstructions hp).symm)

/-- A list is a program exactly if each instruction is sound and no order number is there twice; the order in
the list does not matter. -/
theorem ofInstructions_exact (l : List Instruction) :
    ((∃ p, ofInstructions (l.map (·.made)) = .ok p) ↔ (∀ i ∈ l, i.Sound) ∧ (l.map (·.order)).Nodup) ∧
      (∀ p, ofInstructions (l.map (·.made)) = .ok p →
        p.instructions.Perm (l.map (·.made)) ∧ p.instructions.Pairwise (·.order < ·.order) ∧
          (∀ i ∈ p.instructions, ∀ q, i.argument? q = i.arguments[q]?) ∧
          (∀ i ∈ l, ∀ q a, i.made.argument? q = some a ↔ a ∈ i.arguments ∧ a.position = q) ∧
          ∀ l', Reorders l l' → ofInstructions (l'.map (·.made)) = .ok p) ∧
      ∀ d, ofInstructions (l.map (·.made)) = .error d ↔ Refused l d := by
  refine ⟨ofInstructions_made_ok_iff l, fun p hp => ?_, fun d => ofInstructions_made_error_iff l⟩
  have hsound := ((ofInstructions_made_ok_iff l).mp ⟨p, hp⟩).1
  have hperm := perm_of_ofInstructions hp
  refine ⟨hperm, p.ordered, fun i hi q => ?_, fun i hi q a => (hsound i hi).argument_eq_some_iff,
    fun l' hl' => ofInstructions_of_reorders hl' hp⟩
  obtain ⟨j, hj, rfl⟩ := List.mem_map.mp (hperm.mem_iff.mp hi)
  exact (hsound j hj).argument_made q

/-- A `MOVE` with its arguments in the given order, before an instruction with a smaller order number. -/
def moveBeforeFrame (arguments : List Argument) : List Instruction :=
  [⟨30, .move, arguments⟩, ⟨7, .createframe, []⟩]

/-- Two order numbers twice, the greater one first. -/
def doubled : List Instruction := [5, 2, 5, 2].map (⟨·, .break, []⟩)

theorem moveBeforeFrame_arranged :
    (∃ p, ofInstructions ((moveBeforeFrame [⟨1, .type, "int"⟩, ⟨0, .var, "GF@x"⟩]).map (·.made)) = .ok p ∧
        ofInstructions ((moveBeforeFrame [⟨0, .var, "GF@x"⟩, ⟨1, .type, "int"⟩]).reverse.map (·.made)) = .ok p) ∧
      ofInstructions (doubled.map (·.made)) = .error (.duplicateOrder 2) := by
  constructor
  · have hexact := ofInstructions_exact (moveBeforeFrame [⟨1, .type, "int"⟩, ⟨0, .var, "GF@x"⟩])
    have hsound : ∀ i ∈ moveBeforeFrame [⟨1, .type, "int"⟩, ⟨0, .var, "GF@x"⟩], i.Sound := by
      simp only [moveBeforeFrame, List.forall_mem_cons, List.not_mem_nil, false_imp_iff, implies_true, and_true]
      exact ⟨⟨by decide, by decide⟩, ⟨by decide, by decide⟩⟩
    obtain ⟨p, hp⟩ := hexact.1.mpr ⟨hsound, by decide⟩
    refine ⟨p, hp, (hexact.2.1 p hp).2.2.2.2 _ ⟨_, List.reverse_perm _, ?_⟩⟩
    exact .cons ⟨rfl, rfl, .refl _⟩ (.cons ⟨rfl, rfl, .swap ..⟩ .nil)
  · have hsound : ∀ i ∈ doubled, i.Sound := by
      intro i hi
      obtain ⟨o, ho, rfl⟩ := List.mem_map.mp hi
      exact ⟨(by decide : ∀ o ∈ ([5, 2, 5, 2] : List Int), 0 < o) o ho, .refl _⟩
    refine ((ofInstructions_exact doubled).2.2 _).mpr (.repeated hsound ⟨by decide, fun o ho => ?_⟩)
    have hmem : o ∈ doubled.map (·.order) := List.count_pos_iff.mp (Nat.lt_of_lt_of_le Nat.zero_lt_two ho)
    exact (by decide : ∀ o ∈ doubled.map (·.order), 2 ≤ o) o hmem

end Program

end FrameMachine
