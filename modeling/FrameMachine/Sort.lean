/-! # Stable sorting by an integer key -/

namespace FrameMachine

variable {α : Type}

/-- Inserts before the first entry whose key is not smaller. -/
def insertOn (key : α → Int) (a : α) : List α → List α
  | [] => [a]
  | b :: bs => if key a ≤ key b then a :: b :: bs else b :: insertOn key a bs

/-- Sorts by increasing key; entries with equal keys keep their order. -/
def sortOn (key : α → Int) : List α → List α
  | [] => []
  | a :: as => insertOn key a (sortOn key as)

theorem mem_insertOn {key : α → Int} {a x : α} {l : List α} :
    x ∈ insertOn key a l ↔ x = a ∨ x ∈ l := by
  induction l with
  | nil => simp [insertOn]
  | cons b bs ih =>
    by_cases h : key a ≤ key b
    · simp [insertOn, h]
    · simp only [insertOn, h, ite_false, List.mem_cons, ih]
      constructor
      · rintro (h | h | h) <;> simp [h]
      · rintro (h | h | h) <;> simp [h]

theorem mem_sortOn {key : α → Int} {x : α} {l : List α} : x ∈ sortOn key l ↔ x ∈ l := by
  induction l with
  | nil => simp [sortOn]
  | cons a as ih => simp [sortOn, mem_insertOn, ih]

theorem pairwise_insertOn {key : α → Int} {a : α} {l : List α}
    (h : l.Pairwise (key · ≤ key ·)) : (insertOn key a l).Pairwise (key · ≤ key ·) := by
  induction l with
  | nil => simp [insertOn]
  | cons b bs ih =>
    rw [List.pairwise_cons] at h
    by_cases hab : key a ≤ key b
    · simp only [insertOn, hab, ite_true, List.pairwise_cons]
      refine ⟨?_, h⟩
      rintro x (_ | ⟨_, hx⟩)
      · exact hab
      · exact Int.le_trans hab (h.1 x hx)
    · simp only [insertOn, hab, ite_false, List.pairwise_cons]
      refine ⟨fun x hx => ?_, ih h.2⟩
      rcases mem_insertOn.1 hx with rfl | hx
      · omega
      · exact h.1 x hx

theorem pairwise_sortOn (key : α → Int) (l : List α) :
    (sortOn key l).Pairwise (key · ≤ key ·) := by
  induction l with
  | nil => simp [sortOn]
  | cons a as ih => exact pairwise_insertOn ih

end FrameMachine
