import FrameMachine.Proofs.Escapes

/-!
# Escaped text

`Denotes` relates an escaped text to the text that it stands for, character by character. Decoding finds
just that text (`decodeChars_eq_some_iff`). Of the texts that stand for one text, encoding chooses the one
in which no character stands for itself that has an escape (`encodeChars_eq_iff`).
-/

namespace FrameMachine.Literal

open Numeral

/-! ## Escapes -/

theorem lt_of_isEscapable {code : Nat} (h : isEscapable code = true) : code < 1000 := by
  rw [isEscapable_iff] at h
  omega

theorem toNat_ofNat {code : Nat} (h : code < 1000) : (Char.ofNat code).toNat = code := by
  rw [Char.ofNat, dif_pos (Or.inl (by omega))]
  rfl

theorem padded_digits {x y z : Nat} (hx : x < 10) (hy : y < 10) (hz : z < 10) :
    padded 10 3 (100 * x + 10 * y + z) = [x.digitChar, y.digitChar, z.digitChar] := by
  have hx' : (100 * x + 10 * y + z) / 10 / 10 % 10 = x := by omega
  have hy' : (100 * x + 10 * y + z) / 10 % 10 = y := by omega
  have hz' : (100 * x + 10 * y + z) % 10 = z := by omega
  simp [padded, hx', hy', hz']

theorem exists_digits {code : Nat} (h : code < 1000) :
    ∃ x y z, x < 10 ∧ y < 10 ∧ z < 10 ∧ code = 100 * x + 10 * y + z :=
  ⟨code / 100, code / 10 % 10, code % 10, by omega, by omega, by omega, by omega⟩

theorem escapeCode_eq_some_iff {a b c : Char} {code : Nat} :
    escapeCode? a b c = some code ↔ code < 1000 ∧ padded 10 3 code = [a, b, c] := by
  constructor
  · intro h
    have hdigits : a.isDigit = true ∧ b.isDigit = true ∧ c.isDigit = true := by
      unfold escapeCode? at h
      split at h
      · simp_all
      · cases h
    obtain ⟨x, hx, rfl⟩ := exists_digitChar hdigits.1
    obtain ⟨y, hy, rfl⟩ := exists_digitChar hdigits.2.1
    obtain ⟨z, hz, rfl⟩ := exists_digitChar hdigits.2.2
    rw [escapeCode_digits hx hy hz, Option.some.injEq] at h
    subst h
    exact ⟨by omega, padded_digits hx hy hz⟩
  · rintro ⟨hlt, hpadded⟩
    obtain ⟨x, y, z, hx, hy, hz, rfl⟩ := exists_digits hlt
    rw [padded_digits hx hy hz] at hpadded
    simp only [List.cons.injEq, and_true] at hpadded
    obtain ⟨rfl, rfl, rfl⟩ := hpadded
    exact escapeCode_digits hx hy hz

/-! ## What a text denotes -/

inductive Denotes : List Char → List Char → Prop
  | nil : Denotes [] []
  | raw {c : Char} {cs ds : List Char} : c ≠ '\\' → Denotes cs ds → Denotes (c :: cs) (c :: ds)
  | escape {code : Nat} {cs ds : List Char} : isEscapable code = true → Denotes cs ds →
      Denotes ('\\' :: padded 10 3 code ++ cs) (Char.ofNat code :: ds)

theorem decodeChars_raw {c : Char} (hc : c ≠ '\\') (cs : List Char) :
    decodeChars (c :: cs) = (decodeChars cs).map (c :: ·) := by
  rw [decodeChars.eq_3 _ _ (fun _ _ _ _ h _ => hc h), if_neg hc]

theorem decodeChars_escape {code : Nat} (h : isEscapable code = true) (cs : List Char) :
    decodeChars ('\\' :: padded 10 3 code ++ cs) = (decodeChars cs).map (Char.ofNat code :: ·) := by
  obtain ⟨x, y, z, hx, hy, hz, rfl⟩ := exists_digits (lt_of_isEscapable h)
  rw [padded_digits hx hy hz]
  simp [decodeChars, escapeCode_digits hx hy hz, h]

theorem denotes_of_decodeChars {cs ds : List Char} (h : decodeChars cs = some ds) : Denotes cs ds := by
  induction cs using decodeChars.induct generalizing ds with
  | case1 =>
    obtain rfl := Option.some.inj h
    exact .nil
  | case2 a b c rest ih =>
    cases hcode : escapeCode? a b c with
    | none => simp [decodeChars, hcode] at h
    | some code =>
      by_cases hescape : isEscapable code = true
      · simp only [decodeChars, hcode, Option.bind_eq_bind, Option.bind_some, hescape, ite_true,
          Option.map_eq_some_iff] at h
        obtain ⟨ds, hds, rfl⟩ := h
        have hdenotes := Denotes.escape hescape (ih hds)
        rwa [(escapeCode_eq_some_iff.mp hcode).2] at hdenotes
      · simp [decodeChars, hcode, hescape] at h
  | case3 rest hno =>
    rw [decodeChars.eq_3 _ _ hno, if_pos rfl] at h
    cases h
  | case4 c rest hno hc ih =>
    rw [decodeChars_raw hc, Option.map_eq_some_iff] at h
    obtain ⟨ds, hds, rfl⟩ := h
    exact .raw hc (ih hds)

theorem decodeChars_eq_some_iff {cs ds : List Char} : decodeChars cs = some ds ↔ Denotes cs ds := by
  refine ⟨denotes_of_decodeChars, fun h => ?_⟩
  induction h with
  | nil => rfl
  | raw hc _ ih => rw [decodeChars_raw hc, ih, Option.map_some]
  | escape hescape _ ih => rw [decodeChars_escape hescape, ih, Option.map_some]

theorem Denotes.backslash {cs ds rest : List Char} (h : Denotes cs ds) (hrest : '\\' :: rest <:+ cs) :
    ∃ code tail, isEscapable code = true ∧ rest = padded 10 3 code ++ tail := by
  induction h with
  | nil => simp at hrest
  | raw hc _ ih => exact ih ((backslash_suffix_cons hc).mp hrest)
  | @escape code cs _ hescape _ ih =>
    obtain ⟨x, y, z, hx, hy, hz, hcode⟩ := exists_digits (lt_of_isEscapable hescape)
    have hdigit : ∀ d < 10, d.digitChar.isDigit = true := by
      intro d hd
      simp [Nat.isDigit_digitChar, hd]
    have hpadded : padded 10 3 code = [x.digitChar, y.digitChar, z.digitChar] := by
      rw [hcode, padded_digits hx hy hz]
    rw [hpadded] at hrest
    rcases (backslash_suffix_escape (hdigit x hx) (hdigit y hy) (hdigit z hz)).mp hrest with rfl | hrest
    · exact ⟨code, cs, hescape, by rw [hpadded]; rfl⟩
    · exact ih hrest

theorem escapesWellFormed_of_decodeChars {cs ds : List Char} (h : decodeChars cs = some ds) :
    escapesWellFormed cs = true := by
  rw [escapesWellFormed_iff]
  intro rest hrest
  obtain ⟨code, tail, hescape, rfl⟩ := (denotes_of_decodeChars h).backslash hrest
  obtain ⟨x, y, z, hx, hy, hz, rfl⟩ := exists_digits (lt_of_isEscapable hescape)
  rw [padded_digits hx hy hz]
  exact ⟨_, _, _, tail, rfl, by simp [Nat.isDigit_digitChar, hx], by simp [Nat.isDigit_digitChar, hy],
    by simp [Nat.isDigit_digitChar, hz]⟩

/-! ## Encoding -/

theorem denotes_encodeChars (cs : List Char) : Denotes (encodeChars cs) cs := by
  induction cs with
  | nil => exact .nil
  | cons c cs ih =>
    unfold encodeChars
    by_cases hescape : isEscapable c.toNat = true
    · have hdenotes := Denotes.escape hescape ih
      rw [Char.ofNat_toNat] at hdenotes
      rwa [if_pos hescape]
    · have hc : c ≠ '\\' := by
        rintro rfl
        exact hescape (by decide)
      rw [if_neg hescape]
      exact .raw hc ih

theorem decodeChars_encodeChars (cs : List Char) : decodeChars (encodeChars cs) = some cs :=
  decodeChars_eq_some_iff.mpr (denotes_encodeChars cs)

theorem decode_encode (s : String) : decode? (encode s) = some s := by
  simp [decode?, encode, decodeChars_encodeChars]

theorem isEscapable_raw {c : Char} (hc : c ≠ '\\') :
    isEscapable c.toNat = true ↔ ¬ (32 < c.toNat ∧ c ≠ '#') := by
  have hbackslash : c.toNat ≠ 92 := fun h => hc (Char.toNat_inj.mp h)
  have hhash : c.toNat = 35 ↔ c = '#' := ⟨fun h => Char.toNat_inj.mp h, fun h => h ▸ rfl⟩
  rw [isEscapable_iff, hhash]
  constructor
  · rintro (h | h | h)
    · omega
    · simp [h]
    · exact absurd h hbackslash
  · intro h
    by_cases hle : c.toNat ≤ 32
    · exact Or.inl hle
    · simp_all

theorem mem_padded {code : Nat} (h : isEscapable code = true) {c : Char} (hc : c ∈ padded 10 3 code) :
    32 < c.toNat ∧ c ≠ '#' := by
  obtain ⟨x, y, z, hx, hy, hz, rfl⟩ := exists_digits (lt_of_isEscapable h)
  have hdigit : ∀ d < 10, 32 < d.digitChar.toNat ∧ d.digitChar ≠ '#' := by decide
  rw [padded_digits hx hy hz] at hc
  simp only [List.mem_cons, List.not_mem_nil, or_false] at hc
  rcases hc with rfl | rfl | rfl
  · exact hdigit x hx
  · exact hdigit y hy
  · exact hdigit z hz

theorem encodeChars_eq_iff {cs ds : List Char} (h : Denotes cs ds) :
    encodeChars ds = cs ↔ ∀ c ∈ cs, 32 < c.toNat ∧ c ≠ '#' := by
  induction h with
  | nil => simp [encodeChars]
  | @raw c cs ds hc _ ih =>
    rw [encodeChars, List.forall_mem_cons, ← ih]
    by_cases hescape : isEscapable c.toNat = true
    · have hfirst := (isEscapable_raw hc).mp hescape
      simp [hescape, hfirst, Ne.symm hc]
    · have hfirst := mt (isEscapable_raw hc).mpr hescape
      rw [not_not] at hfirst
      simp [hescape, hfirst]
  | @escape code cs ds hescape _ ih =>
    have hback := toNat_ofNat (lt_of_isEscapable hescape)
    have hdigits : ∀ c ∈ '\\' :: padded 10 3 code, 32 < c.toNat ∧ c ≠ '#' := by
      rw [List.forall_mem_cons]
      exact ⟨by decide, fun c hc => mem_padded hescape hc⟩
    rw [encodeChars, hback, if_pos hescape, List.append_cancel_left_eq, ih, List.forall_mem_append]
    exact ⟨fun hcs => ⟨hdigits, hcs⟩, fun hall => hall.2⟩

/-- Decoding undoes encoding. A text that can be decoded is the encoded one exactly if it has no character up to
the space and no `#`. -/
theorem encode_canonical (s : String) :
    decode? (encode s) = some s ∧
      (∀ c ∈ (encode s).toList, 32 < c.toNat ∧ c ≠ '#') ∧
      (∀ rest, '\\' :: rest <:+ (encode s).toList →
        ∃ code tail, (code ≤ 32 ∨ code = 35 ∨ code = 92) ∧ rest = padded 10 3 code ++ tail) ∧
      ∀ t, decode? t = some s → (encode s = t ↔ ∀ c ∈ t.toList, 32 < c.toNat ∧ c ≠ '#') := by
  have hdenotes := denotes_encodeChars s.toList
  have hencode : (encode s).toList = encodeChars s.toList := String.toList_ofList
  refine ⟨decode_encode s, ?_, ?_, ?_⟩
  · rw [hencode]
    exact (encodeChars_eq_iff hdenotes).mp rfl
  · intro rest hrest
    rw [hencode] at hrest
    obtain ⟨code, tail, hescape, htail⟩ := hdenotes.backslash hrest
    exact ⟨code, tail, isEscapable_iff.mp hescape, htail⟩
  · intro t ht
    obtain ⟨ds, hds, rfl⟩ := Option.map_eq_some_iff.mp ht
    rw [← encodeChars_eq_iff (denotes_of_decodeChars hds), ← String.toList_inj, hencode, String.toList_ofList]

/-- The first text has a decoded backslash before digits and two escapes in a row, the second a space that
stands for itself. -/
theorem encode_canonical_backslash :
    (decode? "\\092032\\032ž" = some "\\032 ž" ∧ encode "\\032 ž" = "\\092032\\032ž") ∧
      decode? "\\035 " = some "# " ∧ encode "# " ≠ "\\035 " := by
  have hescaped : decode? "\\092032\\032ž" = some "\\032 ž" := by decide +kernel
  have hspaced : decode? "\\035 " = some "# " := by decide +kernel
  refine ⟨⟨hescaped, ((encode_canonical _).2.2.2 _ hescaped).mpr ?_⟩, hspaced, fun h => ?_⟩
  · have hall : ("\\092032\\032ž".toList.all fun c => decide (32 < c.toNat ∧ c ≠ '#')) = true := by decide
    simpa only [List.all_eq_true, decide_eq_true_eq] using hall
  · have hspace := ((encode_canonical _).2.2.2 _ hspaced).mp h ' ' (by decide)
    exact absurd hspace.1 (by decide)

end FrameMachine.Literal
