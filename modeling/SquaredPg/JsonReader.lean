import SquaredPg.JsonLiterals

namespace SquaredPg

open Ascii

namespace Yyjson

variable {s t rest : Bytes} {n : ℕ} {c : UInt8} {v w : YyjsonVal}

def PlainRun (l : Bytes) : Prop := ∀ c ∈ l, c ≠ quote ∧ c ≠ backslash

theorem PlainRun.not_quote {l : Bytes} (h : PlainRun l) : quote ∉ l :=
  fun hmem ↦ (h _ hmem).1 rfl

theorem PlainRun.not_backslash {l : Bytes} (h : PlainRun l) : backslash ∉ l :=
  fun hmem ↦ (h _ hmem).2 rfl

theorem length_encodeUtf8 (n : ℕ) : (encodeUtf8 n).length ≤ 4 := by
  unfold encodeUtf8
  split_ifs <;> simp

theorem hexValue_plain {n : ℕ} (h : hexValue c = some n) : c ≠ quote ∧ c ≠ backslash := by
  refine ⟨?_, ?_⟩
  · intro hc
    subst hc
    cases h
  · intro hc
    subst hc
    cases h

theorem hexCode_plain {a b c d : UInt8} {n : ℕ} (h : hexCode a b c d = some n) :
    PlainRun [a, b, c, d] := by
  simp only [hexCode, Option.bind_eq_bind, Option.bind_eq_some_iff] at h
  obtain ⟨m₁, h₁, m₂, h₂, m₃, h₃, m₄, h₄, -⟩ := h
  intro e he
  simp only [List.mem_cons, List.not_mem_nil, or_false] at he
  rcases he with rfl | rfl | rfl | rfl
  · exact hexValue_plain h₁
  · exact hexValue_plain h₂
  · exact hexValue_plain h₃
  · exact hexValue_plain h₄

theorem scanUnicode_cases (h : scanUnicode s = some (t, rest)) :
    ∃ digits, digits.length = 4 ∧ PlainRun digits ∧ t.length ≤ 4 ∧
      (s = digits ++ rest ∨ ∃ more, PlainRun more ∧
        s = digits ++ backslash :: 117 :: (more ++ rest)) := by
  rcases s with _ | ⟨a, _ | ⟨b, _ | ⟨c, _ | ⟨d, s⟩⟩⟩⟩
  · cases h
  · cases h
  · cases h
  · cases h
  · simp only [scanUnicode, Option.bind_eq_bind, Option.bind_eq_some_iff] at h
    obtain ⟨high, hhigh, h⟩ := h
    refine ⟨[a, b, c, d], rfl, hexCode_plain hhigh, ?_⟩
    split_ifs at h with hsurrogate hlow
    · rcases s with _ | ⟨e, _ | ⟨f, _ | ⟨g, _ | ⟨h', _ | ⟨i, _ | ⟨j, s⟩⟩⟩⟩⟩⟩
      · cases h
      · cases h
      · cases h
      · cases h
      · cases h
      · cases h
      · simp only [Option.bind_eq_some_iff] at h
        obtain ⟨low, hlow, h⟩ := h
        split_ifs at h with hpair
        obtain ⟨rfl, rfl, -⟩ := hpair
        obtain ⟨rfl, rfl⟩ := Prod.mk.inj (Option.some.inj h)
        exact ⟨length_encodeUtf8 _, .inr ⟨[g, h', i, j], hexCode_plain hlow, rfl⟩⟩
    · obtain ⟨rfl, rfl⟩ := Prod.mk.inj (Option.some.inj h)
      exact ⟨length_encodeUtf8 _, .inl rfl⟩

theorem scanEscape_cases (h : scanEscape s = some (t, rest)) :
    ∃ c tail, s = c :: tail ∧ (rest = tail ∧ t.length = 1 ∧ (c = quote → t = [quote]) ∨
      c ≠ quote ∧ scanUnicode tail = some (t, rest)) := by
  rcases s with _ | ⟨c, s⟩
  · cases h
  · refine ⟨c, s, rfl, ?_⟩
    rw [scanEscape] at h
    by_cases hquote : c = quote
    · left
      rw [if_pos (.inl hquote)] at h
      obtain ⟨rfl, rfl⟩ := Prod.mk.inj (Option.some.inj h)
      exact ⟨rfl, rfl, fun heq ↦ by rw [heq]⟩
    · split_ifs at h
      all_goals first
        | obtain ⟨rfl, rfl⟩ := Prod.mk.inj (Option.some.inj h)
          exact .inl ⟨rfl, rfl, fun heq ↦ absurd heq hquote⟩
        | exact .inr ⟨hquote, h⟩

theorem sequence_plain (hquote : c ≠ quote) (hback : c ≠ backslash)
    (h : Utf8.sequenceLength (c :: s) ≠ 0) :
    PlainRun ((c :: s).take (Utf8.sequenceLength (c :: s))) := by
  by_cases hc : c < 0x80
  · have hone : Utf8.sequenceLength (c :: s) = 1 := by simp [Utf8.sequenceLength, hc]
    simp [PlainRun, hone, hquote, hback]
  · obtain ⟨tail, rest, rfl, hlength, hhigh⟩ := high_of_sequence hc h
    rw [hlength, List.take_succ_cons, List.take_left]
    intro d hd
    rcases List.mem_cons.mp hd with rfl | hd
    · exact ⟨hquote, hback⟩
    · have hge := UInt8.le_iff_toNat_le.mp (hhigh d hd)
      refine ⟨?_, ?_⟩
      · intro heq
        subst heq
        exact absurd hge (by decide)
      · intro heq
        subst heq
        exact absurd hge (by decide)

theorem scanChar_cases (hquote : s.head? ≠ some quote) (h : scanChar s = some (t, rest)) :
    (∃ tail, s = backslash :: tail ∧ scanEscape tail = some (t, rest)) ∨
      s = t ++ rest ∧ PlainRun t := by
  rcases s with _ | ⟨c, s⟩
  · cases h
  · have hc : c ≠ quote := by simpa using hquote
    rw [scanChar] at h
    split_ifs at h with hback hcontrol
    · exact .inl ⟨s, by rw [hback], h⟩
    · right
      dsimp only at h
      split_ifs at h with hzero
      obtain ⟨rfl, rfl⟩ := Prod.mk.inj (Option.some.inj h)
      exact ⟨(List.take_append_drop _ _).symm, sequence_plain hc hback hzero⟩

theorem scanString_cases (h : scanString (n + 1) s = some (t, rest)) :
    (s = quote :: rest ∧ t = []) ∨
      ∃ first middle others, s.head? ≠ some quote ∧ scanChar s = some (first, middle) ∧
        scanString n middle = some (others, rest) ∧ t = first ++ others := by
  rw [scanString] at h
  split_ifs at h with hquote
  · obtain ⟨rfl, rfl⟩ := Prod.mk.inj (Option.some.inj h)
    obtain ⟨tail, rfl⟩ := List.head?_eq_some_iff.mp hquote
    exact .inl ⟨rfl, rfl⟩
  · simp only [Option.bind_eq_bind, Option.bind_eq_some_iff] at h
    obtain ⟨⟨first, middle⟩, hfirst, ⟨others, last⟩, hothers, heq⟩ := h
    obtain ⟨rfl, rfl⟩ := Prod.mk.inj (Option.some.inj heq)
    exact .inr ⟨first, middle, others, hquote, hfirst, hothers, rfl⟩

theorem scanLiteral_cases {text : Bytes} (h : scanLiteral text v s = some (w, rest)) :
    w = v ∧ s = text ++ rest := by
  unfold scanLiteral at h
  split_ifs at h with htext
  obtain ⟨rfl, rfl⟩ := Prod.mk.inj (Option.some.inj h)
  obtain ⟨tail, rfl⟩ := List.isPrefixOf_iff_prefix.mp htext
  exact ⟨rfl, by rw [List.drop_left]⟩

theorem parseItems_cases {vs : List YyjsonVal} (h : parseItems (n + 1) s = some (vs, rest)) :
    ∃ v middle, parseValue n s = some (v, middle) ∧
      ((skipSpace middle).head? = some closeBracket ∧ rest = (skipSpace middle).tail ∧ vs = [v] ∨
        (skipSpace middle).head? = some comma ∧ ∃ others,
          parseItems n (skipSpace (skipSpace middle).tail) = some (others, rest) ∧
            vs = v :: others) := by
  rw [parseItems] at h
  cases hfirst : parseValue n s with
  | none => simp [hfirst] at h
  | some first =>
    obtain ⟨v, middle⟩ := first
    simp only [hfirst] at h
    refine ⟨v, middle, rfl, ?_⟩
    split_ifs at h with hclose hcomma
    · obtain ⟨rfl, rfl⟩ := Prod.mk.inj (Option.some.inj h)
      exact .inl ⟨hclose, rfl, rfl⟩
    · obtain ⟨⟨others, last⟩, hothers, heq⟩ := Option.map_eq_some_iff.mp h
      obtain ⟨rfl, rfl⟩ := Prod.mk.inj heq
      exact .inr ⟨hcomma, others, hothers, rfl⟩

theorem parseMembers_cases {ms : List (Bytes × YyjsonVal)}
    (h : parseMembers (n + 1) s = some (ms, rest)) :
    ∃ key behindKey v behindValue, s.head? = some quote ∧
      scanString s.length s.tail = some (key, behindKey) ∧
      (skipSpace behindKey).head? = some colon ∧
      parseValue n (skipSpace (skipSpace behindKey).tail) = some (v, behindValue) ∧
      ((skipSpace behindValue).head? = some closeBrace ∧ rest = (skipSpace behindValue).tail ∧
          ms = [(key, v)] ∨
        (skipSpace behindValue).head? = some comma ∧ ∃ others,
          parseMembers n (skipSpace (skipSpace behindValue).tail) = some (others, rest) ∧
            ms = (key, v) :: others) := by
  rw [parseMembers] at h
  split_ifs at h with hquote
  cases hkey : scanString s.length s.tail with
  | none => simp [hkey] at h
  | some scanned =>
    obtain ⟨key, behindKey⟩ := scanned
    simp only [hkey] at h
    split_ifs at h with hcolon
    cases hvalue : parseValue n (skipSpace (skipSpace behindKey).tail) with
    | none => simp [hvalue] at h
    | some parsed =>
      obtain ⟨v, behindValue⟩ := parsed
      simp only [hvalue] at h
      refine ⟨key, behindKey, v, behindValue, hquote, rfl, hcolon, hvalue, ?_⟩
      split_ifs at h with hclose hcomma
      · obtain ⟨rfl, rfl⟩ := Prod.mk.inj (Option.some.inj h)
        exact .inl ⟨hclose, rfl, rfl⟩
      · obtain ⟨⟨others, last⟩, hothers, heq⟩ := Option.map_eq_some_iff.mp h
        obtain ⟨rfl, rfl⟩ := Prod.mk.inj heq
        exact .inr ⟨hcomma, others, hothers, rfl⟩

/-- What a value is read from, by its first byte. -/
inductive ReadsValue (n : ℕ) : Bytes → YyjsonVal → Bytes → Prop
  | str {s text rest : Bytes} (h : scanString (s.length + 1) s = some (text, rest)) :
      ReadsValue n (quote :: s) (.str text) rest
  | noItems {s : Bytes} (h : (skipSpace s).head? = some closeBracket) :
      ReadsValue n (openBracket :: s) (.arr []) (skipSpace s).tail
  | arr {s rest : Bytes} {items : List YyjsonVal}
      (h : parseItems n (skipSpace s) = some (items, rest)) :
      ReadsValue n (openBracket :: s) (.arr items) rest
  | noMembers {s : Bytes} (h : (skipSpace s).head? = some closeBrace) :
      ReadsValue n (openBrace :: s) (.obj []) (skipSpace s).tail
  | obj {s rest : Bytes} {members : List (Bytes × YyjsonVal)}
      (h : parseMembers n (skipSpace s) = some (members, rest)) :
      ReadsValue n (openBrace :: s) (.obj members) rest
  | null {rest : Bytes} : ReadsValue n (ascii "null" ++ rest) .null rest
  | true {rest : Bytes} : ReadsValue n (ascii "true" ++ rest) (.bool true) rest
  | false {rest : Bytes} : ReadsValue n (ascii "false" ++ rest) (.bool false) rest
  | number {s rest : Bytes} {v : YyjsonVal} (h : parseNumber s = some (v, rest)) :
      ReadsValue n s v rest

theorem parseValue_cases (h : parseValue (n + 1) s = some (v, rest)) : ReadsValue n s v rest := by
  rcases s with _ | ⟨c, s⟩
  · cases h
  rw [parseValue] at h
  split_ifs at h with hquote hbracket hnil hbrace hempty
  · obtain ⟨⟨text, last⟩, htext, heq⟩ := Option.map_eq_some_iff.mp h
    obtain ⟨rfl, rfl⟩ := Prod.mk.inj heq
    exact hquote ▸ .str htext
  · obtain ⟨rfl, rfl⟩ := Prod.mk.inj (Option.some.inj h)
    exact hbracket ▸ .noItems hnil
  · obtain ⟨⟨items, last⟩, hitems, heq⟩ := Option.map_eq_some_iff.mp h
    obtain ⟨rfl, rfl⟩ := Prod.mk.inj heq
    exact hbracket ▸ .arr hitems
  · obtain ⟨rfl, rfl⟩ := Prod.mk.inj (Option.some.inj h)
    exact hbrace ▸ .noMembers hempty
  · obtain ⟨⟨members, last⟩, hmembers, heq⟩ := Option.map_eq_some_iff.mp h
    obtain ⟨rfl, rfl⟩ := Prod.mk.inj heq
    exact hbrace ▸ .obj hmembers
  · obtain ⟨rfl, heq⟩ := scanLiteral_cases h
    exact heq ▸ .null
  · obtain ⟨rfl, heq⟩ := scanLiteral_cases h
    exact heq ▸ .true
  · obtain ⟨rfl, heq⟩ := scanLiteral_cases h
    exact heq ▸ .false
  · exact .number h

end Yyjson

theorem jsonParse_cases {text : Bytes} {value : Value} (h : jsonParse text = .ok value) :
    ∃ v rest, Yyjson.parseValue (text.length + 1) (Yyjson.skipSpace text) = some (v, rest) ∧
      Yyjson.skipSpace rest = [] ∧ value = fromYyjson v := by
  unfold jsonParse Yyjson.read at h
  cases hparse : Yyjson.parseValue (text.length + 1) (Yyjson.skipSpace text) with
  | none => simp [hparse] at h
  | some parsed =>
    obtain ⟨v, rest⟩ := parsed
    simp only [hparse] at h
    split_ifs at h with hblank
    cases h
    exact ⟨v, rest, rfl, hblank, rfl⟩

end SquaredPg
