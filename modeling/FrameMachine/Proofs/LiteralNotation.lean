import FrameMachine.Proofs.EscapedText
import FrameMachine.Proofs.Operands
import FrameMachine.Proofs.RealNotation
import FrameMachine.Proofs.RoundTrip

/-!
# The written form of a value in source code

Each value is read back from its literal, up to the bits of a NaN (`ofPayload_payload`). As a word of
source code the literal is read back unless it holds a blank, and a string keeps those of its blank
characters that have no escape: the ones outside ASCII. Strings with such a character are therefore the
only values that source code cannot hold (`literal_loads_iff`).
-/

namespace FrameMachine

open Numeral Text

/-! ## Integers -/

theorem Numeral.splitSign_of_digits {base : Nat} {cs : List Char} {ds : List Nat}
    (h : digits? base cs = some ds) : splitSign cs = (false, cs) := by
  have hminus := ne_of_digits h (x := '-') (by simp [digit?])
  have hplus := ne_of_digits h (x := '+') (by simp [digit?])
  unfold splitSign
  split
  · exact absurd rfl (hminus _ List.mem_cons_self)
  · exact absurd rfl (hplus _ List.mem_cons_self)
  · rfl

namespace Literal

theorem magnitude_of_digits {cs : List Char} {ds : List Nat} (h : digits? 10 cs = some ds) :
    magnitude? cs = read? 10 cs := by
  have hmark : ∀ c ∈ ['x', 'X', 'o', 'O'], ∀ rest, cs ≠ '0' :: c :: rest := by
    rintro c hc rest rfl
    refine ne_of_digits h ?_ c (by simp) rfl
    simp only [List.mem_cons, List.not_mem_nil, or_false] at hc
    rcases hc with rfl | rfl | rfl | rfl <;> decide
  unfold magnitude?
  split
  · exact absurd rfl (hmark 'x' (by simp) _)
  · exact absurd rfl (hmark 'X' (by simp) _)
  · exact absurd rfl (hmark 'o' (by simp) _)
  · exact absurd rfl (hmark 'O' (by simp) _)
  · rfl

theorem integer_integerText (n : Int64) : integer? (integerText n) = some n := by
  obtain ⟨ds, hds, -⟩ := digits_toDigits isBase_ten n.toInt.natAbs
  have hread := read_toDigits isBase_ten n.toInt.natAbs
  rw [← magnitude_of_digits hds] at hread
  have hfits : fitsWord n.toInt = true := by
    have hlow := n.le_toInt
    have hhigh := n.toInt_lt
    simp only [fitsWord, Bool.and_eq_true, decide_eq_true_eq]
    omega
  unfold integer? integerText
  rw [String.toList_ofList]
  by_cases hneg : n.toInt < 0
  · have hvalue : signed true n.toInt.natAbs = n.toInt := by
      simp only [signed, ite_true]
      omega
    simp [hneg, splitSign, hread, hvalue, hfits]
  · have hvalue : signed false n.toInt.natAbs = n.toInt := by
      simp only [signed, Bool.false_eq_true, ite_false]
      omega
    simp [hneg, splitSign_of_digits hds, hread, hvalue, hfits]

/-! ## Blanks in strings -/

/-- Each blank character has an escape: it is an ASCII one. -/
def Writable (s : String) : Prop := ∀ c ∈ s.toList, isBlank c = true → c.toNat ≤ 32

instance (s : String) : Decidable (Writable s) :=
  List.decidableBAll (fun c => isBlank c = true → c.toNat ≤ 32) s.toList

theorem le_of_isEscapable {c : Char} (hescape : isEscapable c.toNat = true) (hblank : isBlank c = true) :
    c.toNat ≤ 32 := by
  rcases isEscapable_iff.mp hescape with h | h | h
  · exact h
  · simp [isBlank, h] at hblank
  · simp [isBlank, h] at hblank

theorem plain_encodeChars {cs : List Char} (h : ∀ c ∈ cs, isBlank c = true → c.toNat ≤ 32) :
    Plain (encodeChars cs) := by
  induction cs with
  | nil => exact plain_nil
  | cons c cs ih =>
    have hcs := ih fun d hd => h d (List.mem_cons_of_mem c hd)
    unfold encodeChars
    by_cases hescape : isEscapable c.toNat = true
    · obtain ⟨ds, hds, -⟩ := digits_padded isBase_ten 3 c.toNat
      rw [if_pos hescape]
      exact plain_append.mpr ⟨plain_cons.mpr ⟨by decide, plain_of_digits (by rw [hds]; rfl)⟩, hcs⟩
    · have hblank : isBlank c = false := by
        by_contra hblank
        have hle := h c List.mem_cons_self (by simpa using hblank)
        exact hescape (isEscapable_iff.mpr (Or.inl hle))
      have hhash : c ≠ '#' := by
        rintro rfl
        exact hescape (by decide)
      rw [if_neg hescape]
      exact plain_cons.mpr ⟨isPlain_of_not hblank hhash, hcs⟩

theorem Denotes.writable {cs ds : List Char} (h : Denotes cs ds) (hplain : Plain cs) :
    ∀ c ∈ ds, isBlank c = true → c.toNat ≤ 32 := by
  induction h with
  | nil => simp
  | raw _ _ ih =>
    obtain ⟨hfirst, hrest⟩ := plain_cons.mp hplain
    rw [List.forall_mem_cons]
    refine ⟨fun hblank => ?_, ih hrest⟩
    rw [isBlank_of_isPlain hfirst] at hblank
    cases hblank
  | escape hescape _ ih =>
    obtain ⟨-, hrest⟩ := plain_append.mp hplain
    rw [List.forall_mem_cons]
    refine ⟨le_of_isEscapable ?_, ih hrest⟩
    rwa [toNat_ofNat (lt_of_isEscapable hescape)]

end Literal

/-! ## Values -/

namespace Value

/-- Equality of values in which every NaN counts as one. -/
def Same : Value → Value → Prop
  | float x, float y => x = y ∨ (x.isNaN = true ∧ y.isNaN = true)
  | v, w => v = w

/-- Source code can hold the value. -/
def Writable : Value → Prop
  | string s => Literal.Writable s
  | _ => True

theorem same_refl (v : Value) : v.Same v := by
  cases v with
  | float x => exact Or.inl rfl
  | _ => exact rfl

theorem ofPayload_payload (v : Value) : ∃ w, ofPayload? v.type v.payload = some w ∧ v.Same w := by
  cases v with
  | int n =>
    have hread : Literal.integer? (payload (int n)) = some n := Literal.integer_integerText n
    exact ⟨int n, by simp [type, ofPayload?, hread], same_refl _⟩
  | float x =>
    by_cases hx : x.isNaN = true
    · have hread : Literal.real? (payload (float x)) = some Binary64.nan := Literal.real_nan hx
      exact ⟨float Binary64.nan, by simp [type, ofPayload?, hread], Or.inr ⟨hx, by decide⟩⟩
    · have hread : Literal.real? (payload (float x)) = some x := Literal.real_text (by simpa using hx)
      exact ⟨float x, by simp [type, ofPayload?, hread], same_refl _⟩
  | string s =>
    have hread : Literal.decode? (payload (string s)) = some s := Literal.decode_encode s
    exact ⟨string s, by simp [type, ofPayload?, hread], same_refl _⟩
  | bool b => exact ⟨bool b, by cases b <;> decide, same_refl _⟩
  | nil => exact ⟨nil, by decide, same_refl _⟩

theorem type_of_ofPayload {t : DataType} {text : String} {v : Value} (h : ofPayload? t text = some v) :
    v.type = t := by
  cases t with
  | nil =>
    simp only [ofPayload?] at h
    split at h
    · obtain rfl := Option.some.inj h
      rfl
    · cases h
  | _ =>
    obtain ⟨-, -, rfl⟩ := Option.map_eq_some_iff.mp h
    rfl

theorem payload_of_operand {a : Argument} {v : Value} (h : a.operand = .ok (.literal v)) :
    ∃ t, a.kind = .literal t ∧ ofPayload? t a.text = some v := by
  have hreads := reads_operand a
  rw [h] at hreads
  cases hreads with
  | literal hkind hpayload => exact ⟨_, hkind, hpayload⟩

theorem acceptsPayload_payload (v : Value) : Source.acceptsPayload v.type v.payload = true := by
  by_cases ht : v.type = .string
  · obtain ⟨s, rfl⟩ : ∃ s, v = string s := by
      cases v with
      | string s => exact ⟨s, rfl⟩
      | _ => cases ht
    rw [Source.acceptsPayload, if_pos ht]
    refine @Literal.escapesWellFormed_of_decodeChars _ s.toList ?_
    simp [payload, Literal.encode, Literal.decodeChars_encodeChars]
  · obtain ⟨w, hw, -⟩ := ofPayload_payload v
    rw [Source.acceptsPayload, if_neg ht, hw]
    rfl

theorem plain_payload {v : Value} (h : v.Writable) : Plain v.payload.toList := by
  by_cases ht : v.type = .string
  · cases v with
    | string s =>
      simp only [payload, Literal.encode, String.toList_ofList]
      exact Literal.plain_encodeChars h
    | _ => cases ht
  · obtain ⟨w, hw, -⟩ := ofPayload_payload v
    exact plain_of_ofPayload ht (by rw [hw]; rfl)

/-! ## Source code that pushes a value -/

def pushInstruction (v : Value) : Instruction := ⟨1, .pushs, [⟨0, .literal v.type, v.payload⟩]⟩

def pushProgram (v : Value) : Program where
  instructions := [v.pushInstruction]
  ordered := by simp
  positive := by simp [pushInstruction]
  placed := by simp [pushInstruction]

def pushSource (v : Value) : String := ".IPPcode24\nPUSHS " ++ v.literal ++ "\n"

theorem source_pushInstruction (v : Value) : v.pushInstruction.source = "PUSHS" ++ (" " ++ v.literal) := by
  simp only [pushInstruction, Instruction.source, Argument.source, literal, Text.concat, Opcode.mnemonic,
    List.map_cons, List.map_nil, String.append_empty]

theorem listing_pushProgram (v : Value) : v.pushProgram.listing = v.pushSource := by
  have hstart : ".IPPcode24\n" ++ "PUSHS" ++ " " = ".IPPcode24\nPUSHS " := by simp
  calc v.pushProgram.listing = ".IPPcode24\n" ++ (v.pushInstruction.source ++ "\n" ++ "") := rfl
    _ = ".IPPcode24\n" ++ "PUSHS" ++ " " ++ v.literal ++ "\n" := by
      rw [source_pushInstruction]
      simp only [String.append_assoc, String.append_empty]
    _ = v.pushSource := congrArg (· ++ v.literal ++ "\n") hstart

theorem loadable_pushProgram {v : Value} (h : v.Writable) : v.pushProgram.Loadable where
  numbered := by
    intro k i hi
    cases k with
    | zero =>
      obtain rfl := Option.some.inj hi
      rfl
    | succ k => cases hi
  written := by
    intro i hi
    obtain rfl := List.mem_singleton.mp hi
    have hwritten : (Argument.mk 0 (.literal v.type) v.payload).Written :=
      written_literal_iff.mpr ⟨plain_payload h, acceptsPayload_payload v⟩
    exact .cons ⟨hwritten, rfl⟩ .nil

/-- The text is source code of a single `PUSHS` whose argument denotes the value. -/
def PushedBy (w : Value) (text : String) : Prop :=
  ∃ p i a, Program.load text = .ok p ∧ p.instructions = [i] ∧ i.opcode = .pushs ∧
    i.arguments = [a] ∧ a.operand = .ok (.literal w)

theorem pushedBy_pushSource {v : Value} (h : v.Writable) : ∃ w, w.PushedBy v.pushSource ∧ v.Same w := by
  obtain ⟨w, hw, hsame⟩ := ofPayload_payload v
  have hload := load_of_loadable (loadable_pushProgram h)
  rw [listing_pushProgram] at hload
  refine ⟨w, ⟨_, _, _, hload, rfl, rfl, rfl, ?_⟩, hsame⟩
  simp only [Argument.operand, hw]

theorem writable_of_load {t : String} {p : Program} (h : Program.load t = .ok p) {i : Instruction}
    (hi : i ∈ p.instructions) {a : Argument} (ha : a ∈ i.arguments) {w : Value}
    (hw : a.operand = .ok (.literal w)) : w.Writable := by
  have hwritten := ((loadable_of_load h).written i hi).argument ha
  obtain ⟨t, hkind, hpayload⟩ := payload_of_operand hw
  cases w with
  | string s =>
    obtain rfl : DataType.string = t := type_of_ofPayload hpayload
    obtain ⟨position, kind, text⟩ := a
    subst hkind
    have hplain := (written_literal_iff.mp hwritten).1
    simp only [ofPayload?, Literal.decode?, Option.map_map, Option.map_eq_some_iff, Function.comp,
      string.injEq] at hpayload
    obtain ⟨cs, hcs, rfl⟩ := hpayload
    show ∀ c ∈ (String.ofList cs).toList, _
    rw [String.toList_ofList]
    exact (Literal.denotes_of_decodeChars hcs).writable hplain
  | _ => trivial

/-- The literal of a value is read back exactly if the value is not a string with a blank character outside
ASCII, which no source code holds. -/
theorem literal_loads_iff (v : Value) :
    ((∃ w : Value, w.PushedBy v.pushSource ∧ v.Same w) ↔ v.Writable) ∧
      ∀ (t : String) (p : Program) (i : Instruction) (a : Argument), Program.load t = .ok p →
        i ∈ p.instructions → a ∈ i.arguments → a.operand = .ok (.literal v) → v.Writable := by
  refine ⟨⟨?_, pushedBy_pushSource⟩, fun t p i a h hi ha hv => writable_of_load h hi ha hv⟩
  rintro ⟨w, ⟨p, i, a, hload, hinstructions, -, harguments, hoperand⟩, hsame⟩
  have hi : i ∈ p.instructions := by simp [hinstructions]
  have ha : a ∈ i.arguments := by simp [harguments]
  have hwritable := writable_of_load hload hi ha hoperand
  cases v with
  | string s =>
    obtain rfl : string s = w := hsame
    exact hwritable
  | _ => trivial

/-- A string with every kind of escape is read back. -/
theorem literal_loads_escapes :
    ∃ w : Value, w.PushedBy (string "a b\t#c\\d\u00e9").pushSource ∧ (string "a b\t#c\\d\u00e9").Same w ∧
      w.Writable := by
  have hwritable : (string "a b\t#c\\d\u00e9").Writable := by
    show Literal.Writable _
    decide
  obtain ⟨w, hpushed, hsame⟩ := (literal_loads_iff _).1.mpr hwritable
  have ⟨p, i, a, hload, hinstructions, _, harguments, hoperand⟩ := hpushed
  have hi : i ∈ p.instructions := by simp [hinstructions]
  have ha : a ∈ i.arguments := by simp [harguments]
  exact ⟨w, hpushed, hsame, (literal_loads_iff w).2 _ p i a hload hi ha hoperand⟩

/-- Inside a string a no-break space makes two words of the literal; at its end it is lost. -/
theorem literal_no_break_space :
    (¬ ∃ w : Value, w.PushedBy (string "a\u00a0b").pushSource ∧ (string "a\u00a0b").Same w) ∧
      Program.load (string "a\u00a0b").pushSource = .error (.wrongArgumentCount 2 .pushs 2) ∧
      (string "a").PushedBy (string "a\u00a0").pushSource := by
  have hload : Program.load (string "a\u00a0b").pushSource = .error (.wrongArgumentCount 2 .pushs 2) := by
    rfl
  have hlost : Program.load (string "a\u00a0").pushSource = .ok (string "a").pushProgram :=
    load_of_toOption (by decide +kernel)
  refine ⟨?_, hload, _, _, _, hlost, rfl, rfl, rfl, by decide +kernel⟩
  rintro ⟨w, ⟨p, -, -, hp, -⟩, -⟩
  rw [hload] at hp
  cases hp

end Value

end FrameMachine
