import FrameMachine.Text.Join
import FrameMachine.Value

/-! # Frames

A frame maps names to variables, kept in the order of their names. A variable has no value until it is
assigned one. -/

namespace FrameMachine

/-- Puts an entry at its place in a list of entries, replacing the entry of that name. -/
def insertEntry {α : Type} (name : String) (a : α) : List (String × α) → List (String × α)
  | [] => [(name, a)]
  | (n, b) :: rest =>
    if name < n then (name, a) :: (n, b) :: rest
    else if name = n then (name, a) :: rest
    else (n, b) :: insertEntry name a rest

theorem lt_of_not_lt_of_ne {s t : String} (h : ¬ s < t) (hne : s ≠ t) : t < s :=
  Decidable.byContradiction fun hn =>
    hne (String.le_antisymm (String.not_lt.1 hn) (String.not_lt.1 h))

theorem mem_insertEntry {α : Type} {name : String} {a : α} {e : String × α} {l : List (String × α)}
    (h : e ∈ insertEntry name a l) : e = (name, a) ∨ e ∈ l := by
  induction l with
  | nil => simpa [insertEntry] using h
  | cons x rest ih =>
    obtain ⟨n, b⟩ := x
    unfold insertEntry at h
    split at h
    · simpa using h
    · split at h
      · rcases List.mem_cons.1 h with h | h
        · exact .inl h
        · exact .inr (List.mem_cons_of_mem _ h)
      · rcases List.mem_cons.1 h with h | h
        · exact .inr (h ▸ List.mem_cons_self ..)
        · exact (ih h).imp id (List.mem_cons_of_mem _)

theorem pairwise_insertEntry {α : Type} {name : String} {a : α} {l : List (String × α)}
    (h : l.Pairwise (·.1 < ·.1)) : (insertEntry name a l).Pairwise (·.1 < ·.1) := by
  induction l with
  | nil => simp [insertEntry]
  | cons x rest ih =>
    obtain ⟨n, b⟩ := x
    obtain ⟨hx, hrest⟩ := List.pairwise_cons.1 h
    unfold insertEntry
    split
    · rename_i hlt
      refine List.pairwise_cons.2 ⟨?_, h⟩
      intro y hy
      rcases List.mem_cons.1 hy with rfl | hy
      · exact hlt
      · exact String.lt_trans hlt (hx y hy)
    · rename_i hlt
      split
      · rename_i heq
        subst heq
        exact List.pairwise_cons.2 ⟨hx, hrest⟩
      · rename_i hne
        refine List.pairwise_cons.2 ⟨?_, ih hrest⟩
        intro y hy
        rcases mem_insertEntry hy with rfl | hy
        · exact lt_of_not_lt_of_ne hlt hne
        · exact hx y hy

structure Frame where
  entries : List (String × Option Value)
  sorted : entries.Pairwise (·.1 < ·.1)
deriving DecidableEq

namespace Frame

def empty : Frame := ⟨[], .nil⟩

/-- The variable of a name: not declared, or its value if it has one. -/
def find? (f : Frame) (name : String) : Option (Option Value) := f.entries.lookup name

def declares (f : Frame) (name : String) : Bool := (f.find? name).isSome

/-- The frame in which a name has the given value, or none. -/
def insert (f : Frame) (name : String) (v : Option Value) : Frame :=
  ⟨insertEntry name v f.entries, pairwise_insertEntry f.sorted⟩

/-- The entries in one line, each after a space. -/
def text (f : Frame) : String :=
  Text.concat (f.entries.map fun (name, v) =>
    " " ++ name ++ "=" ++ (match v with | some v => v.literal | none => "<undefined>"))

end Frame

end FrameMachine
