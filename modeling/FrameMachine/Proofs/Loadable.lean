import FrameMachine.Proofs.Escapes
import FrameMachine.Proofs.Literals
import FrameMachine.Source.Load
import Mathlib.Data.List.Forall2

/-!
# What source code can express

An argument is `Written` if its text is one that source code has for its kind, and a program is
`Loadable` if all its arguments are and its instructions are numbered from one. The word of a written
argument is read back as that argument (`readWord_source`), and every word that is read gives a written
argument (`written_of_readWord`).
-/

namespace FrameMachine

open Text

def Argument.Written (a : Argument) : Prop :=
  match a.kind with
  | .var => ∃ x : Variable, a.text = x.text ∧ Source.isName x.name = true
  | .label => Source.isName a.text = true
  | .type => a.text ∈ ["int", "float", "string", "bool"]
  | .literal .string => Plain a.text.toList ∧ Literal.EscapesWritten a.text.toList
  | .literal _ => ∃ o, a.operand = .ok o

/-- There is one argument for each shape of the opcode; it is written and fits the shape. -/
def Instruction.Written (i : Instruction) : Prop :=
  List.Forall₂ (fun a shape => a.Written ∧ a.kind.fits shape = true) i.arguments i.opcode.shapes

structure Program.Loadable (p : Program) : Prop where
  numbered : ∀ k i, p.get? k = some i → i.order = k + 1
  written : ∀ i ∈ p.instructions, i.Written

theorem Instruction.Written.argument {i : Instruction} (h : i.Written) {a : Argument}
    (ha : a ∈ i.arguments) : a.Written :=
  ((List.forall₂_and_left _ _).mp h).1 a ha

theorem Instruction.Written.fits {i : Instruction} (h : i.Written) :
    List.Forall₂ (fun a shape => a.kind.fits shape = true) i.arguments i.opcode.shapes :=
  ((List.forall₂_and_left _ _).mp h).2

/-! ## Names -/

theorem isPlain_of_isNameStart {c : Char} (h : Source.isNameStart c = true) : isPlain c = true := by
  have halpha : c.isAlpha = (c.isUpper || c.isLower) := rfl
  have hupper : c.isUpper = decide (c.val ≥ 'A'.val ∧ c.val ≤ 'Z'.val) := rfl
  have hlower : c.isLower = (decide (c.val ≥ 'a'.val) && decide (c.val ≤ 'z'.val)) := rfl
  simp only [Source.isNameStart, halpha, hupper, hlower, Bool.or_eq_true, Bool.and_eq_true,
    decide_eq_true_eq, List.contains_iff_mem] at h
  rcases h with (h | h) | h
  · have hl : 65 ≤ c.toNat := h.1
    have hu : c.toNat ≤ 90 := h.2
    exact isPlain_of_toNat (by omega) (by omega)
  · have hl : 97 ≤ c.toNat := h.1
    have hu : c.toNat ≤ 122 := h.2
    exact isPlain_of_toNat (by omega) (by omega)
  · exact (by decide : Plain "_-$&%*!?".toList) c h

theorem isWord_of_isName {s : String} (h : Source.isName s = true) : IsWord s.toList := by
  unfold Source.isName at h
  split at h
  · cases h
  · rename_i c cs hs
    simp only [Bool.and_eq_true, List.all_eq_true, Bool.or_eq_true] at h
    rw [hs]
    refine ⟨List.cons_ne_nil _ _, plain_cons.mpr ⟨isPlain_of_isNameStart h.1, fun d hd => ?_⟩⟩
    rcases h.2 d hd with hd | hd
    · exact isPlain_of_isNameStart hd
    · exact isPlain_of_isDigit hd

theorem ne_empty_of_isName {s : String} (h : Source.isName s = true) : s ≠ "" := by
  rintro rfl
  exact (isWord_of_isName h).1 rfl

/-! ## Parts of a word -/

theorem splitAtSign_append {tag : String} (h : '@' ∉ tag.toList) (rest : String) :
    splitAtSign (tag ++ "@" ++ rest) = some (tag, rest) := by
  have hp : ∀ c ∈ tag.toList, decide (c ≠ '@') = true := by
    intro c hc
    rw [decide_eq_true_eq]
    rintro rfl
    exact h hc
  unfold splitAtSign
  simp only [String.toList_append, List.append_assoc]
  rw [List.dropWhile_append_of_pos hp, List.takeWhile_append_of_pos hp]
  simp

theorem eq_of_splitAtSign {s tag rest : String} (h : splitAtSign s = some (tag, rest)) :
    s = tag ++ "@" ++ rest := by
  unfold splitAtSign at h
  split at h
  · cases h
  · rename_i c cs hs
    simp only [Option.some.injEq, Prod.mk.injEq] at h
    obtain ⟨rfl, rfl⟩ := h
    have hc : c = '@' := by simpa using of_dropWhile_eq_cons hs
    apply String.toList_injective
    conv => lhs; rw [← List.takeWhile_append_dropWhile (p := (· ≠ '@')) (l := s.toList), hs]
    simp [hc]

theorem scope_ofName (k : Scope) : Scope.ofName? k.name = some k := by
  cases k <;> decide

theorem scope_name_of_ofName {s : String} {k : Scope} (h : Scope.ofName? s = some k) : s = k.name := by
  have := List.find?_some h
  exact (of_decide_eq_true this).symm

theorem type_ofName (t : DataType) : DataType.ofName? t.name = some t := by
  cases t <;> decide

theorem type_name_of_ofName {s : String} {t : DataType} (h : DataType.ofName? s = some t) :
    s = t.name := by
  have := List.find?_some h
  exact (of_decide_eq_true this).symm

theorem scope_ofName_type (t : DataType) : Scope.ofName? t.name = none := by
  cases t <;> decide

theorem sign_not_mem_scope (k : Scope) : '@' ∉ k.name.toList := by cases k <;> decide

theorem sign_not_mem_type (t : DataType) : '@' ∉ t.name.toList := by cases t <;> decide

theorem variable_ofText {x : Variable} (h : x.name ≠ "") : Variable.ofText? x.text = some x := by
  simp [Variable.ofText?, Variable.text, splitAtSign_append (sign_not_mem_scope x.scope), scope_ofName, h]

theorem variable_of_ofText {s : String} {x : Variable} (h : Variable.ofText? s = some x) :
    s = x.text ∧ x.name ≠ "" := by
  simp only [Variable.ofText?, Option.bind_eq_bind, Option.bind_eq_some_iff] at h
  obtain ⟨⟨tag, name⟩, hsplit, k, hk, h⟩ := h
  split at h
  · cases h
  · rename_i hne
    obtain rfl := Option.some.inj h
    have htag : tag = k.name := scope_name_of_ofName hk
    rw [eq_of_splitAtSign hsplit, htag]
    exact ⟨rfl, by simpa using hne⟩

/-! ## Reading a written argument -/

theorem readVariable_text {x : Variable} (h : Source.isName x.name = true) :
    Source.readVariable x.text = .ok (.var, x.text) := by
  unfold Source.readVariable
  rw [variable_ofText (ne_empty_of_isName h)]
  simp [h]

theorem isWord_tagged {tag rest : String} (htag : Plain tag.toList) (hrest : Plain rest.toList) :
    IsWord (tag ++ "@" ++ rest).toList := by
  simp only [String.toList_append]
  refine ⟨by simp, plain_append.mpr ⟨plain_append.mpr ⟨htag, by decide⟩, hrest⟩⟩

theorem plain_scope (k : Scope) : Plain k.name.toList := by cases k <;> decide

theorem plain_type (t : DataType) : Plain t.name.toList := by cases t <;> decide

theorem readable_of_mem {s : String} (h : s ∈ ["int", "float", "string", "bool"]) :
    ∃ t, DataType.ofName? s = some t ∧ t.isReadable = true := by
  simp only [List.mem_cons, List.not_mem_nil, or_false] at h
  rcases h with rfl | rfl | rfl | rfl
  · exact ⟨.int, by decide, rfl⟩
  · exact ⟨.float, by decide, rfl⟩
  · exact ⟨.string, by decide, rfl⟩
  · exact ⟨.bool, by decide, rfl⟩

theorem operand_literal_iff {p : Nat} {t : DataType} {text : String} :
    (∃ o, (Argument.mk p (.literal t) text).operand = .ok o) ↔
      (Value.ofPayload? t text).isSome = true := by
  simp only [Argument.operand]
  cases Value.ofPayload? t text with
  | none => simp
  | some v => simp

theorem written_literal_iff {p : Nat} {t : DataType} {text : String} :
    (Argument.mk p (.literal t) text).Written ↔
      Plain text.toList ∧ Source.acceptsPayload t text = true := by
  by_cases ht : t = .string
  · subst ht
    rw [Source.acceptsPayload, if_pos rfl, Literal.escapesWellFormed_iff]
    exact Iff.rfl
  · have hw : (Argument.mk p (.literal t) text).Written ↔
        ∃ o, (Argument.mk p (.literal t) text).operand = .ok o := by
      cases t with
      | string => exact absurd rfl ht
      | _ => exact Iff.rfl
    rw [hw, operand_literal_iff, Source.acceptsPayload, if_neg ht]
    exact ⟨fun h => ⟨plain_of_ofPayload ht h, h⟩, fun h => h.2⟩

theorem isWord_source {a : Argument} (ha : a.Written) : IsWord a.source.toList := by
  obtain ⟨p, kind, text⟩ := a
  cases kind with
  | var =>
    obtain ⟨x, hx, hname⟩ := ha
    show IsWord text.toList
    rw [show text = x.text from hx]
    exact isWord_tagged (plain_scope x.scope) (isWord_of_isName hname).2
  | label => exact isWord_of_isName ha
  | type =>
    have hmem : text ∈ ["int", "float", "string", "bool"] := ha
    show IsWord text.toList
    simp only [List.mem_cons, List.not_mem_nil, or_false] at hmem
    rcases hmem with rfl | rfl | rfl | rfl <;> exact ⟨by decide, by decide⟩
  | literal t => exact isWord_tagged (plain_type t) (written_literal_iff.mp ha).1

theorem readWord_source {a : Argument} {shape : Shape} (hfits : a.kind.fits shape = true)
    (ha : a.Written) : Source.readWord a.source shape = .ok (a.kind, a.text) := by
  obtain ⟨p, kind, text⟩ := a
  cases kind with
  | var =>
    obtain ⟨x, hx, hname⟩ := ha
    have hx : text = x.text := hx
    subst hx
    cases shape with
    | var => exact readVariable_text hname
    | symb =>
      have hsplit : splitAtSign x.text = some (x.scope.name, x.name) :=
        splitAtSign_append (sign_not_mem_scope x.scope) x.name
      simp only [Argument.source, Source.readWord, hsplit, scope_ofName, Option.isSome_some, ite_true]
      exact readVariable_text hname
    | label => cases hfits
    | type => cases hfits
  | label =>
    have hname : Source.isName text = true := ha
    cases shape with
    | label => simp [Argument.source, Source.readWord, hname]
    | _ => cases hfits
  | type =>
    obtain ⟨t, ht, hreadable⟩ := readable_of_mem ha
    cases shape with
    | type => simp [Argument.source, Source.readWord, ht, hreadable]
    | _ => cases hfits
  | literal t =>
    cases shape with
    | symb =>
      have hsplit : splitAtSign (t.name ++ "@" ++ text) = some (t.name, text) :=
        splitAtSign_append (sign_not_mem_type t) text
      simp [Argument.source, Source.readWord, hsplit, scope_ofName_type, type_ofName,
        (written_literal_iff.mp ha).2]
    | _ => cases hfits

/-! ## Words that are read -/

theorem written_of_readVariable {word : String} {kind : Kind} {text : String}
    (h : Source.readVariable word = .ok (kind, text)) (p : Nat) :
    kind = .var ∧ (Argument.mk p kind text).Written := by
  unfold Source.readVariable at h
  split at h
  · rename_i x hx
    split at h
    · rename_i hname
      simp only [Except.ok.injEq, Prod.mk.injEq] at h
      obtain ⟨rfl, rfl⟩ := h
      exact ⟨rfl, x, (variable_of_ofText hx).1, hname⟩
    · cases h
  · cases h

theorem written_of_readSymbol {word : String} {kind : Kind} {text : String} (hword : IsWord word.toList)
    (h : Source.readWord word .symb = .ok (kind, text)) (p : Nat) :
    kind.fits .symb = true ∧ (Argument.mk p kind text).Written := by
  simp only [Source.readWord] at h
  split at h
  · cases h
  · rename_i tag rest hsplit
    split at h
    · obtain ⟨rfl, hw⟩ := written_of_readVariable h p
      exact ⟨rfl, hw⟩
    · split at h
      · cases h
      · split at h
        · rename_i haccepts
          simp only [Except.ok.injEq, Prod.mk.injEq] at h
          obtain ⟨rfl, rfl⟩ := h
          refine ⟨rfl, written_literal_iff.mpr ⟨?_, haccepts⟩⟩
          have hplain := hword.2
          rw [eq_of_splitAtSign hsplit, String.toList_append] at hplain
          exact (plain_append.mp hplain).2
        · cases h

theorem written_of_readWord {word : String} {shape : Shape} {kind : Kind} {text : String}
    (hword : IsWord word.toList) (h : Source.readWord word shape = .ok (kind, text)) (p : Nat) :
    kind.fits shape = true ∧ (Argument.mk p kind text).Written := by
  cases shape with
  | var =>
    obtain ⟨rfl, hw⟩ := written_of_readVariable h p
    exact ⟨rfl, hw⟩
  | symb => exact written_of_readSymbol hword h p
  | label =>
    simp only [Source.readWord] at h
    split at h
    · rename_i hname
      simp only [Except.ok.injEq, Prod.mk.injEq] at h
      obtain ⟨rfl, rfl⟩ := h
      exact ⟨rfl, hname⟩
    · cases h
  | type =>
    simp only [Source.readWord] at h
    split at h
    · rename_i t ht
      split at h
      · rename_i hreadable
        simp only [Except.ok.injEq, Prod.mk.injEq] at h
        obtain ⟨rfl, rfl⟩ := h
        refine ⟨rfl, ?_⟩
        show word ∈ ["int", "float", "string", "bool"]
        rw [type_name_of_ofName ht]
        cases t with
        | nil => cases hreadable
        | _ => decide
      · cases h
    · cases h

end FrameMachine
