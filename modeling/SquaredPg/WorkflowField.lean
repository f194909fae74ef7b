import SquaredPg.HostPath
import SquaredPg.JsonNumbers
import SquaredPg.JsonRoundTrip
import SquaredPg.VersionGrammar

namespace SquaredPg

open Ascii

namespace Yyjson

variable {s t rest text field value key : Bytes} {n : ℕ}

theorem scanUnicode_spelled (h : scanUnicode s = some (t, rest)) :
    ∃ spelled, s = spelled ++ rest ∧ quote ∉ spelled ∧ t.length ≤ spelled.length := by
  obtain ⟨digits, hfour, hdigits, hlength, rfl | ⟨more, hmore, rfl⟩⟩ := scanUnicode_cases h
  · exact ⟨digits, rfl, hdigits.not_quote, by omega⟩
  · refine ⟨digits ++ [backslash, 117] ++ more, by simp, ?_, ?_⟩
    · have hpair : quote ∉ [backslash, (117 : UInt8)] := by decide
      simp only [List.mem_append, not_or]
      exact ⟨⟨hdigits.not_quote, hpair⟩, hmore.not_quote⟩
    · simp only [List.length_append]
      omega

theorem scanEscape_spelled (h : scanEscape s = some (t, rest)) :
    ∃ spelled, s = spelled ++ rest ∧
      (t = [quote] ∨ quote ∉ spelled ∧ t.length ≤ spelled.length) := by
  obtain ⟨c, tail, rfl, ⟨rfl, hone, hquote⟩ | ⟨hquote, hunicode⟩⟩ := scanEscape_cases h
  · refine ⟨[c], rfl, ?_⟩
    by_cases hc : c = quote
    · exact .inl (hquote hc)
    · exact .inr ⟨by simpa using Ne.symm hc, by simp [hone]⟩
  · obtain ⟨spelled, rfl, hspelled, hlength⟩ := scanUnicode_spelled hunicode
    refine ⟨c :: spelled, rfl, .inr ⟨?_, by simp only [List.length_cons]; omega⟩⟩
    simpa [Ne.symm hquote] using hspelled

def untilQuote (s : Bytes) : Bytes := s.takeWhile (· ≠ quote)

theorem untilQuote_append (h : quote ∉ t) : untilQuote (t ++ s) = t ++ untilQuote s := by
  refine List.takeWhile_append_of_pos ?_
  intro c hc
  have hne : c ≠ quote := by
    intro heq
    subst heq
    exact h hc
  simpa using hne

theorem not_mem_untilQuote : quote ∉ untilQuote s := by
  intro hmem
  simpa using List.mem_takeWhile_imp hmem

/-- How the text of a literal compares with what stands up to the next quote: they are the same
without an escape, and with one a quote or a length tells them apart. -/
structure Spelled (s t : Bytes) : Prop where
  closes : quote ∈ s
  plain : backslash ∉ untilQuote s → t = untilQuote s
  bound : quote ∈ t ∨ t.length ≤ (untilQuote s).length
  strict : backslash ∈ untilQuote s → quote ∈ t ∨ t.length < (untilQuote s).length

theorem Spelled.plain_append (h : Spelled rest t) {front : Bytes} (hquote : quote ∉ front)
    (hback : backslash ∉ front) : Spelled (front ++ rest) (front ++ t) where
  closes := List.mem_append_right _ h.closes
  plain := by
    rw [untilQuote_append hquote]
    intro hmem
    rw [h.plain fun hrest ↦ hmem (List.mem_append_right _ hrest)]
  bound := by
    rw [untilQuote_append hquote, List.length_append, List.length_append]
    obtain hmem | hle := h.bound
    · exact .inl (List.mem_append_right _ hmem)
    · exact .inr (by omega)
  strict := by
    rw [untilQuote_append hquote, List.length_append, List.length_append]
    intro hmem
    obtain hmem | hlt := h.strict ((List.mem_append.mp hmem).resolve_left hback)
    · exact .inl (List.mem_append_right _ hmem)
    · exact .inr (by omega)

theorem Spelled.escape_append (h : Spelled rest t) {spelled escaped : Bytes}
    (hspelled : escaped = [quote] ∨ quote ∉ spelled ∧ escaped.length ≤ spelled.length) :
    Spelled (backslash :: (spelled ++ rest)) (escaped ++ t) := by
  have hback : backslash ∈ untilQuote (backslash :: (spelled ++ rest)) := by
    simp [untilQuote, backslash, quote]
  have hlonger : quote ∈ escaped ++ t ∨
      (escaped ++ t).length < (untilQuote (backslash :: (spelled ++ rest))).length := by
    obtain rfl | ⟨hquote, hlength⟩ := hspelled
    · exact .inl (by simp)
    · obtain hmem | hle := h.bound
      · exact .inl (List.mem_append_right _ hmem)
      · right
        have hfront : quote ∉ backslash :: spelled := by simpa [backslash, quote] using hquote
        rw [← List.cons_append, untilQuote_append hfront]
        simp only [List.length_append, List.length_cons]
        omega
  exact {
    closes := .tail _ (List.mem_append_right _ h.closes)
    plain := fun hmem ↦ absurd hback hmem
    bound := hlonger.imp_right Nat.le_of_lt
    strict := fun _ ↦ hlonger }

theorem spelled_scanString (h : scanString n s = some (t, rest)) : Spelled s t := by
  induction n generalizing s t with
  | zero => cases h
  | succ n ih =>
    obtain ⟨rfl, rfl⟩ | ⟨first, middle, others, hquote, hfirst, hothers, rfl⟩ := scanString_cases h
    · have hnone : untilQuote (quote :: rest) = [] := by simp [untilQuote]
      exact ⟨List.mem_cons_self, fun _ ↦ hnone.symm, .inr (Nat.zero_le _), by simp [hnone]⟩
    · obtain ⟨tail, rfl, hescape⟩ | ⟨rfl, hplain⟩ := scanChar_cases hquote hfirst
      · obtain ⟨spelled, rfl, hspelled⟩ := scanEscape_spelled hescape
        exact (ih hothers).escape_append hspelled
      · exact (ih hothers).plain_append hplain.not_quote hplain.not_backslash

theorem Spelled.eq_iff (h : Spelled s t) : untilQuote s = t ↔ backslash ∉ untilQuote s := by
  constructor
  · intro heq hback
    obtain hmem | hlt := h.strict hback
    · exact not_mem_untilQuote (heq ▸ hmem)
    · rw [heq] at hlt
      omega
  · intro hback
    exact (h.plain hback).symm

theorem scanString_plain (h : scanString n s = some (t, rest)) (hback : backslash ∉ untilQuote s) :
    s = t ++ quote :: rest := by
  induction n generalizing s t with
  | zero => cases h
  | succ n ih =>
    obtain ⟨rfl, rfl⟩ | ⟨first, middle, others, hquote, hfirst, hothers, rfl⟩ := scanString_cases h
    · rfl
    · obtain ⟨tail, rfl, -⟩ | ⟨rfl, hplain⟩ := scanChar_cases hquote hfirst
      · simp [untilQuote, backslash, quote] at hback
      · rw [untilQuote_append hplain.not_quote] at hback
        rw [ih hothers fun hmem ↦ hback (List.mem_append_right _ hmem), List.append_assoc]

theorem skipSpace_suffix (s : Bytes) : skipSpace s <:+ s := List.dropWhile_suffix _

theorem behind_suffix (s : Bytes) : (skipSpace s).tail <:+ s :=
  (List.tail_suffix _).trans (skipSpace_suffix s)

theorem next_suffix (s : Bytes) : skipSpace (skipSpace s).tail <:+ s :=
  (skipSpace_suffix _).trans (behind_suffix s)

theorem scanString_suffix (h : scanString n s = some (t, rest)) : rest <:+ s := by
  induction n generalizing s t with
  | zero => cases h
  | succ n ih =>
    obtain ⟨rfl, -⟩ | ⟨first, middle, others, hquote, hfirst, hothers, -⟩ := scanString_cases h
    · exact List.suffix_cons _ _
    · refine (ih hothers).trans ?_
      obtain ⟨tail, rfl, hescape⟩ | ⟨rfl, -⟩ := scanChar_cases hquote hfirst
      · obtain ⟨spelled, rfl, -⟩ := scanEscape_spelled hescape
        exact (List.suffix_append _ _).trans (List.suffix_cons _ _)
      · exact List.suffix_append _ _

theorem key_suffix (h : scanString n s.tail = some (t, rest)) :
    skipSpace (skipSpace rest).tail <:+ s :=
  (next_suffix rest).trans ((scanString_suffix h).trans (List.tail_suffix s))

theorem reads_suffix (n : ℕ) : (∀ {s v rest}, parseValue n s = some (v, rest) → rest <:+ s) ∧
    (∀ {s vs rest}, parseItems n s = some (vs, rest) → rest <:+ s) ∧
    (∀ {s ms rest}, parseMembers n s = some (ms, rest) → rest <:+ s) := by
  induction n with
  | zero =>
    refine ⟨?_, ?_, ?_⟩
    · intro s v rest h
      cases h
    · intro s vs rest h
      cases h
    · intro s ms rest h
      cases h
  | succ n ih =>
    obtain ⟨hvalue, hitems, hmembers⟩ := ih
    refine ⟨fun h ↦ ?_, fun h ↦ ?_, fun h ↦ ?_⟩
    · cases parseValue_cases h with
      | str hscan => exact (scanString_suffix hscan).trans (List.suffix_cons _ _)
      | noItems => exact (behind_suffix _).trans (List.suffix_cons _ _)
      | arr hall => exact ((hitems hall).trans (skipSpace_suffix _)).trans (List.suffix_cons _ _)
      | noMembers => exact (behind_suffix _).trans (List.suffix_cons _ _)
      | obj hall => exact ((hmembers hall).trans (skipSpace_suffix _)).trans (List.suffix_cons _ _)
      | null => exact List.suffix_append _ _
      | true => exact List.suffix_append _ _
      | false => exact List.suffix_append _ _
      | number hnumber => exact JsonText.parseNumber_suffix hnumber
    · obtain ⟨v, middle, hfirst, ⟨-, rfl, -⟩ | ⟨-, others, hothers, -⟩⟩ := parseItems_cases h
      · exact (behind_suffix _).trans (hvalue hfirst)
      · exact ((hitems hothers).trans (next_suffix _)).trans (hvalue hfirst)
    · obtain ⟨key, behindKey, v, behindValue, -, hkey, -, hfirst, hend⟩ := parseMembers_cases h
      have hbefore := (hvalue hfirst).trans (key_suffix hkey)
      obtain ⟨-, rfl, -⟩ | ⟨-, others, hothers, -⟩ := hend
      · exact (behind_suffix _).trans hbefore
      · exact ((hmembers hothers).trans (next_suffix _)).trans hbefore

/-- Where a member of the document's object begins: behind its brace, or behind the comma that
follows another member. -/
inductive AtMember (text : Bytes) : Bytes → Prop
  | first {s : Bytes} (hopen : skipSpace text = openBrace :: s) : AtMember text (skipSpace s)
  | next {n : ℕ} {s key behindKey behindValue : Bytes} {v : YyjsonVal} (h : AtMember text s)
      (hquote : s.head? = some quote) (hkey : scanString s.length s.tail = some (key, behindKey))
      (hcolon : (skipSpace behindKey).head? = some colon)
      (hvalue : parseValue n (skipSpace (skipSpace behindKey).tail) = some (v, behindValue))
      (hcomma : (skipSpace behindValue).head? = some comma) :
      AtMember text (skipSpace (skipSpace behindValue).tail)

theorem AtMember.suffix (h : AtMember text s) : s <:+ text := by
  induction h with
  | first hopen =>
    have hfront := skipSpace_suffix text
    rw [hopen] at hfront
    exact ((skipSpace_suffix _).trans (List.suffix_cons _ _)).trans hfront
  | next _ _ hkey _ hvalue _ ih =>
    have hrest := ((reads_suffix _).1 hvalue).trans (key_suffix hkey)
    exact ((next_suffix _).trans hrest).trans ih

/-- A member of the document's object with the name `field` and the string `value`. -/
structure StringMember (text field value : Bytes) where
  start : Bytes
  behindKey : Bytes
  behindColon : Bytes
  spelled : Bytes
  behindValue : Bytes
  isMember : AtMember text start
  opensKey : start.head? = some quote
  key : scanString start.length start.tail = some (field, behindKey)
  hasColon : skipSpace behindKey = colon :: behindColon
  opensValue : skipSpace behindColon = quote :: spelled
  scanned : scanString (spelled.length + 1) spelled = some (value, behindValue)

theorem parseNumber_scalar {v : YyjsonVal} (h : parseNumber s = some (v, rest)) :
    (∀ text, v ≠ .str text) ∧ ∀ ms, v ≠ .obj ms := by
  obtain ⟨_, _, _, -, -, -, ⟨-, hinteger⟩ | ⟨-, d, rfl⟩⟩ := JsonText.parseNumber_cases h
  · obtain ⟨-, -, rfl⟩ | ⟨-, -, rfl⟩ | ⟨-, d, rfl⟩ := JsonText.integerVal_cases hinteger <;>
      exact ⟨fun _ ↦ YyjsonVal.noConfusion, fun _ ↦ YyjsonVal.noConfusion⟩
  · exact ⟨fun _ ↦ YyjsonVal.noConfusion, fun _ ↦ YyjsonVal.noConfusion⟩

theorem parseValue_str (h : parseValue n s = some (.str value, rest)) :
    ∃ spelled, s = quote :: spelled ∧
      scanString (spelled.length + 1) spelled = some (value, rest) := by
  cases n with
  | zero => cases h
  | succ n =>
    cases parseValue_cases h with
    | str hscan => exact ⟨_, rfl, hscan⟩
    | number hnumber => exact absurd rfl ((parseNumber_scalar hnumber).1 value)

theorem parseValue_obj {ms : List (Bytes × YyjsonVal)} (h : parseValue n s = some (.obj ms, rest)) :
    ∃ tail, s = openBrace :: tail ∧
      (ms = [] ∨ ∃ m, parseMembers m (skipSpace tail) = some (ms, rest)) := by
  cases n with
  | zero => cases h
  | succ n =>
    cases parseValue_cases h with
    | noMembers hempty => exact ⟨_, rfl, .inl rfl⟩
    | obj hmembers => exact ⟨_, rfl, .inr ⟨n, hmembers⟩⟩
    | number hnumber => exact absurd rfl ((parseNumber_scalar hnumber).2 ms)

theorem stringMember_of_parseMembers {ms : List (Bytes × YyjsonVal)}
    (h : parseMembers n s = some (ms, rest)) (hat : AtMember text s)
    (hmem : (field, .str value) ∈ ms) : Nonempty (StringMember text field value) := by
  induction n generalizing s ms rest with
  | zero => cases h
  | succ n ih =>
    obtain ⟨key, behindKey, v, behindValue, hquote, hkey, hcolon, hvalue, hend⟩ := parseMembers_cases h
    have hhere : (field, YyjsonVal.str value) = (key, v) →
        Nonempty (StringMember text field value) := by
      intro heq
      obtain ⟨rfl, rfl⟩ := Prod.mk.inj heq
      obtain ⟨behindColon, hbehind⟩ := List.head?_eq_some_iff.mp hcolon
      rw [hbehind, List.tail_cons] at hvalue
      obtain ⟨spelled, hspelled, hscan⟩ := parseValue_str hvalue
      exact ⟨⟨s, behindKey, behindColon, spelled, behindValue, hat, hquote, hkey, hbehind,
        hspelled, hscan⟩⟩
    obtain ⟨-, -, rfl⟩ | ⟨hcomma, others, hothers, rfl⟩ := hend
    · exact hhere (by simpa using hmem)
    · obtain hfirst | hlater := List.mem_cons.mp hmem
      · exact hhere hfirst
      · exact ih hothers (hat.next hquote hkey hcolon hvalue hcomma) hlater

end Yyjson

theorem fromYyjson_eq_string {v : YyjsonVal} {value : Bytes} (h : fromYyjson v = .string value) :
    v = .str value := by
  cases v <;> simp_all [fromYyjson]

theorem mem_fromMembers {ms : List (Bytes × YyjsonVal)} {field value : Bytes}
    (h : (field, .string value) ∈ fromMembers ms) : (field, .str value) ∈ ms := by
  induction ms with
  | nil => simp [fromMembers] at h
  | cons member ms ih =>
    obtain ⟨key, v⟩ := member
    rw [fromMembers, List.mem_cons, Prod.mk.injEq] at h
    obtain ⟨rfl, heq⟩ | hrest := h
    · rw [fromYyjson_eq_string heq.symm]
      exact List.mem_cons_self
    · exact .tail _ (ih hrest)

theorem stringMember_of_jsonParse {text field value : Bytes} {members : List (Bytes × Value)}
    (h : jsonParse text = .ok (.object members)) (hmem : (field, .string value) ∈ members) :
    Nonempty (Yyjson.StringMember text field value) := by
  obtain ⟨v, rest, hparse, -, hobject⟩ := jsonParse_cases h
  cases v with
  | obj ms =>
    rw [fromYyjson, Value.object.injEq] at hobject
    rw [hobject] at hmem
    have hstring := mem_fromMembers hmem
    obtain ⟨tail, hopen, rfl | ⟨m, hmembers⟩⟩ := Yyjson.parseValue_obj hparse
    · cases hstring
    · exact Yyjson.stringMember_of_parseMembers hmembers (.first hopen) hstring
  | _ => simp [fromYyjson] at hobject

def inQuotes (field : Bytes) : Bytes := quote :: field ++ [quote]

def betweenQuotes (text : Bytes) : Option Bytes :=
  match (cutAt quote text).2 with
  | none => none
  | some opened => (cutAt quote opened).2.map fun _ ↦ (cutAt quote opened).1

/-- `declaration` is what `workflow.json` holds, `none` where it cannot be opened. -/
def workflowField (declaration : Option Bytes) (field fallback : Bytes) : Bytes :=
  (do
    let text ← declaration
    let key ← text.dropInfix? (inQuotes field)
    let behindColon ← (cutAt colon key.2).2
    betweenQuotes behindColon).getD fallback

def trust : Bytes := ascii "trust"

def trusted : Bytes := ascii "trusted"

def sandboxed : Bytes := ascii "sandboxed"

/-- What `main` comes to once the engine runs and the workflow is found. -/
inductive Launch
  | refused (exitCode : ℕ) (message : Bytes)
  | script (entry : HostPath)
  deriving DecidableEq

def sandboxRefusal (workflow : Bytes) (directory : HostPath) : Bytes :=
  ascii "sqpg: workflow '" ++ workflow ++
    ascii "' requests the 'sandboxed' trust tier, which this build\n" ++
    ascii "      does not enforce. Refusing to run it with full standard-library\n" ++
    ascii "      access, because that would grant more than it asked for.\n" ++
    ascii "\n" ++
    ascii "      To run it anyway, review it and change its trust tier to 'trusted'\n" ++
    ascii "      in " ++ (directory.append (.ofBytes (ascii "workflow.json"))).string ++ ascii "\n"

def launch (workflow : Bytes) (directory : HostPath) (declaration : Option Bytes) : Launch :=
  if workflowField declaration trust trusted = sandboxed then
    .refused 3 (sandboxRefusal workflow directory)
  else
    .script (directory.append
      (.ofBytes (workflowField declaration (ascii "entry") (ascii "init.lua"))))

/-- The first colon behind the first place where the name stands in quotes is followed by `behind`. -/
def LeadsTo (text field behind : Bytes) : Prop :=
  ∃ front middle, text = front ++ inQuotes field ++ (middle ++ colon :: behind) ∧ colon ∉ middle ∧
    ∀ front' behind', text = front' ++ inQuotes field ++ behind' → front.length ≤ front'.length

/-- `content` stands between the first two quotes of a text. -/
def Encloses (text content : Bytes) : Prop :=
  ∃ front rest, text = front ++ quote :: (content ++ quote :: rest) ∧
    quote ∉ front ∧ quote ∉ content

variable {text field value fallback behind content : Bytes}

theorem cutAt_snd_eq_some {separator : UInt8} {s rest : Bytes} :
    (cutAt separator s).2 = some rest ↔
      s = (cutAt separator s).1 ++ separator :: rest ∧ separator ∉ (cutAt separator s).1 := by
  by_cases hmem : separator ∈ s
  · obtain ⟨before, after, rfl, hbefore⟩ := List.eq_append_cons_of_mem hmem
    rw [cutAt_append hbefore]
    simp [hbefore, eq_comm]
  · rw [cutAt_of_not_mem hmem]
    simp [hmem]

theorem cutAt_reaches {separator : UInt8} {s rest : Bytes} :
    (cutAt separator s).2 = some rest ↔ ∃ front, s = front ++ separator :: rest ∧
      separator ∉ front := by
  constructor
  · intro h
    exact ⟨_, cutAt_snd_eq_some.mp h⟩
  · intro h
    obtain ⟨front, rfl, hfront⟩ := h
    rw [cutAt_append hfront]

theorem betweenQuotes_eq_some : betweenQuotes text = some content ↔ Encloses text content := by
  constructor
  · intro h
    cases hopen : (cutAt quote text).2 with
    | none => simp [betweenQuotes, hopen] at h
    | some opened =>
      simp only [betweenQuotes, hopen, Option.map_eq_some_iff] at h
      obtain ⟨rest, hclose, rfl⟩ := h
      obtain ⟨front, rfl, hfront⟩ := cutAt_reaches.mp hopen
      obtain ⟨heq, hcontent⟩ := cutAt_snd_eq_some.mp hclose
      exact ⟨front, rest, by rw [← heq], hfront, hcontent⟩
  · intro h
    obtain ⟨front, rest, rfl, hfront, hcontent⟩ := h
    simp [betweenQuotes, cutAt_append hfront, cutAt_append hcontent]

theorem leadsTo_iff : LeadsTo text field behind ↔
    ∃ key, text.dropInfix? (inQuotes field) = some key ∧ (cutAt colon key.2).2 = some behind := by
  constructor
  · intro h
    obtain ⟨front, middle, htext, hmiddle, hfirst⟩ := h
    refine ⟨(front, middle ++ colon :: behind), ?_, cutAt_reaches.mpr ⟨middle, rfl, hmiddle⟩⟩
    refine List.dropInfix?_eq_some_iff.mpr ⟨⟨_, htext, beq_self_eq_true _⟩, ?_⟩
    intro front' found behind' heq hfound
    exact hfirst front' behind' (eq_of_beq hfound ▸ heq)
  · intro h
    obtain ⟨⟨front, after⟩, hfind, hcolon⟩ := h
    obtain ⟨⟨found, htext, hfound⟩, hfirst⟩ := List.dropInfix?_eq_some_iff.mp hfind
    obtain ⟨middle, rfl, hmiddle⟩ := cutAt_reaches.mp hcolon
    rw [eq_of_beq hfound] at htext
    refine ⟨front, middle, htext, hmiddle, ?_⟩
    intro front' behind' heq
    exact hfirst front' _ behind' heq (beq_self_eq_true _)

theorem LeadsTo.unique {other : Bytes} (h : LeadsTo text field behind)
    (h' : LeadsTo text field other) : behind = other := by
  obtain ⟨key, hkey, hbehind⟩ := leadsTo_iff.mp h
  obtain ⟨key', hkey', hother⟩ := leadsTo_iff.mp h'
  rw [hkey, Option.some.injEq] at hkey'
  rw [hkey', hother, Option.some.injEq] at hbehind
  exact hbehind.symm

theorem Encloses.unique {other : Bytes} (h : Encloses text content) (h' : Encloses text other) :
    content = other := by
  rw [← betweenQuotes_eq_some] at h h'
  exact Option.some.inj (h.symm.trans h')

theorem workflowField_of_encloses (h : LeadsTo text field behind) (hbehind : Encloses behind content) :
    workflowField (some text) field fallback = content := by
  obtain ⟨key, hkey, hcolon⟩ := leadsTo_iff.mp h
  simp [workflowField, hkey, hcolon, betweenQuotes_eq_some.mpr hbehind]

theorem workflowField_of_fails
    (h : ∀ behind content, LeadsTo text field behind → ¬ Encloses behind content) :
    workflowField (some text) field fallback = fallback := by
  simp only [workflowField, Option.bind_eq_bind, Option.bind_some]
  cases hkey : text.dropInfix? (inQuotes field) with
  | none => rfl
  | some key =>
    cases hcolon : (cutAt colon key.2).2 with
    | none => simp [hcolon]
    | some behind =>
      cases hbetween : betweenQuotes behind with
      | none => simp [hcolon, hbetween]
      | some content =>
        have hleads := leadsTo_iff.mpr ⟨key, hkey, hcolon⟩
        exact absurd (betweenQuotes_eq_some.mp hbetween) (h behind content hleads)

theorem workflowField_eq_iff : workflowField (some text) field fallback = value ↔
    (∃ behind, LeadsTo text field behind ∧ Encloses behind value) ∨
      (∀ behind content, LeadsTo text field behind → ¬ Encloses behind content) ∧
        fallback = value := by
  by_cases h : ∃ behind content, LeadsTo text field behind ∧ Encloses behind content
  · obtain ⟨behind, content, hleads, hencloses⟩ := h
    rw [workflowField_of_encloses hleads hencloses]
    constructor
    · intro heq
      exact .inl ⟨behind, hleads, heq ▸ hencloses⟩
    · intro hvalue
      obtain ⟨other, hother, hvalue⟩ | ⟨hfails, -⟩ := hvalue
      · rw [hleads.unique hother] at hencloses
        exact hencloses.unique hvalue
      · exact absurd hencloses (hfails behind content hleads)
  · have hfails : ∀ behind content, LeadsTo text field behind → ¬ Encloses behind content :=
      fun behind content hleads hencloses ↦ h ⟨behind, content, hleads, hencloses⟩
    rw [workflowField_of_fails hfails]
    constructor
    · exact fun heq ↦ .inr ⟨hfails, heq⟩
    · intro hvalue
      obtain ⟨behind, hleads, hencloses⟩ | ⟨-, heq⟩ := hvalue
      · exact absurd hencloses (hfails behind value hleads)
      · exact heq

theorem workflowField_fallback_iff : workflowField (some text) field fallback = fallback ↔
    ∀ behind content, LeadsTo text field behind → Encloses behind content → content = fallback := by
  rw [workflowField_eq_iff]
  constructor
  · rintro (⟨behind, hleads, hencloses⟩ | ⟨hfails, -⟩) other content hother hcontent
    · rw [hleads.unique hother] at hencloses
      exact hcontent.unique hencloses
    · exact absurd hcontent (hfails other content hother)
  · intro hall
    by_cases h : ∃ behind content, LeadsTo text field behind ∧ Encloses behind content
    · obtain ⟨behind, content, hleads, hencloses⟩ := h
      exact .inl ⟨behind, hleads, hall behind content hleads hencloses ▸ hencloses⟩
    · exact .inr ⟨fun behind content hleads hencloses ↦ h ⟨behind, content, hleads, hencloses⟩, rfl⟩

namespace Yyjson

theorem encloses_untilQuote {s : Bytes} (h : skipSpace text = quote :: s) (hclose : quote ∈ s) :
    Encloses text (untilQuote s) := by
  obtain ⟨content, rest, rfl, hcontent⟩ := List.eq_append_cons_of_mem hclose
  have huntil : untilQuote (content ++ quote :: rest) = content := by
    rw [untilQuote_append hcontent]
    simp [untilQuote]
  rw [huntil]
  refine ⟨text.takeWhile isSpace, rest, ?_, ?_, hcontent⟩
  · rw [← h, skipSpace, List.takeWhile_append_dropWhile]
  · intro hmem
    exact absurd (List.mem_takeWhile_imp hmem) (by decide)

variable {text field value fallback : Bytes}

/-- The search arrives at the member where its name stands in quotes nowhere before it. -/
theorem StringMember.leadsTo (member : StringMember text field value)
    (hplain : backslash ∉ untilQuote member.start.tail)
    (hfirst : ∀ front behind, text = front ++ inQuotes field ++ behind →
      text.length ≤ front.length + member.start.length) :
    LeadsTo text field member.behindColon := by
  obtain ⟨front, hfront⟩ := member.isMember.suffix
  obtain ⟨tail, htail⟩ := List.head?_eq_some_iff.mp member.opensKey
  have hkey := scanString_plain member.key hplain
  have hblanks : member.behindKey =
      member.behindKey.takeWhile isSpace ++ colon :: member.behindColon := by
    rw [← member.hasColon, skipSpace, List.takeWhile_append_dropWhile]
  have hstart : member.start = inQuotes field ++ member.behindKey := by
    rw [htail, List.tail_cons] at hkey
    rw [htail, hkey]
    simp [inQuotes]
  refine ⟨front, member.behindKey.takeWhile isSpace, ?_, ?_, ?_⟩
  · rw [← hblanks, List.append_assoc, ← hstart, hfront]
  · intro hmem
    exact absurd (List.mem_takeWhile_imp hmem) (by decide)
  · intro front' behind' heq
    have hlength := hfirst front' behind' heq
    have hsplit := congrArg List.length hfront
    rw [List.length_append] at hsplit
    omega

/-- The search arrives behind the colon of the member itself, and the member's value has no escape;
or it arrives elsewhere, at a value that is spelled the same; or it finds no value at all, and the
fallback is the same. -/
def StringMember.Taken (fallback : Bytes) (member : StringMember text field value) : Prop :=
  LeadsTo text field member.behindColon ∧ backslash ∉ untilQuote member.spelled ∨
    (∃ behind, LeadsTo text field behind ∧ behind ≠ member.behindColon ∧ Encloses behind value) ∨
      (∀ behind content, LeadsTo text field behind → ¬ Encloses behind content) ∧ fallback = value

theorem StringMember.taken_iff (member : StringMember text field value) :
    workflowField (some text) field fallback = value ↔ member.Taken fallback := by
  have hspelled := spelled_scanString member.scanned
  have hhere := encloses_untilQuote member.opensValue hspelled.closes
  rw [workflowField_eq_iff]
  constructor
  · intro h
    obtain ⟨behind, hleads, hencloses⟩ | hfails := h
    · by_cases hbehind : behind = member.behindColon
      · subst hbehind
        exact .inl ⟨hleads, hspelled.eq_iff.mp (hhere.unique hencloses)⟩
      · exact .inr (.inl ⟨behind, hleads, hbehind, hencloses⟩)
    · exact .inr (.inr hfails)
  · intro h
    obtain ⟨hleads, hplain⟩ | ⟨behind, hleads, -, hencloses⟩ | hfails := h
    · rw [hspelled.eq_iff.mpr hplain] at hhere
      exact .inl ⟨member.behindColon, hleads, hhere⟩
    · exact .inl ⟨behind, hleads, hencloses⟩
    · exact .inr hfails

end Yyjson

theorem launch_refused_iff (workflow : Bytes) (directory : HostPath) (declaration : Option Bytes) :
    launch workflow directory declaration = .refused 3 (sandboxRefusal workflow directory) ↔
      workflowField declaration trust trusted = sandboxed := by
  rw [launch]
  split_ifs with h
  · exact ⟨fun _ ↦ h, fun _ ↦ rfl⟩
  · exact ⟨fun heq ↦ (nomatch heq), fun heq ↦ absurd heq h⟩

/-- The host reads a string member of the declaration, and refuses a workflow for its tier, exactly
where the textual search happens to arrive at what the parser takes for the member; where there is no
such member, it takes the fallback exactly where the search comes to nothing else. -/
theorem sandbox_honoured_iff {members : List (Bytes × Value)}
    (h : jsonParse text = .ok (.object members)) :
    (∀ field value, (field, .string value) ∈ members →
      ∃ member : Yyjson.StringMember text field value, ∀ fallback,
        workflowField (some text) field fallback = value ↔ member.Taken fallback) ∧
    ((trust, .string sandboxed) ∈ members →
      ∃ member : Yyjson.StringMember text trust sandboxed, ∀ workflow directory,
        workflowField (some text) trust trusted = sandboxed ∧
            launch workflow directory (some text) =
              .refused 3 (sandboxRefusal workflow directory) ↔
          member.Taken trusted) ∧
    ∀ field fallback, (∀ value, (field, .string value) ∉ members) →
      (workflowField (some text) field fallback = fallback ↔
        ∀ behind content, LeadsTo text field behind → Encloses behind content →
          content = fallback) := by
  refine ⟨?_, ?_, fun _ _ _ ↦ workflowField_fallback_iff⟩
  · intro field value hmem
    obtain ⟨member⟩ := stringMember_of_jsonParse h hmem
    exact ⟨member, fun fallback ↦ member.taken_iff⟩
  · intro hmem
    obtain ⟨member⟩ := stringMember_of_jsonParse h hmem
    refine ⟨member, fun workflow directory ↦ ?_⟩
    rw [launch_refused_iff, and_self, member.taken_iff]

/-- A declaration of strings, as the engine writes it. -/
def declarationOf (strings : List (Bytes × Bytes)) : Value :=
  .object (strings.map fun member ↦ (member.1, .string member.2))

theorem jsonParse_declarationOf {strings : List (Bytes × Bytes)}
    (hvalid : (declarationOf strings).texts.all Utf8.valid = true) :
    jsonParse (jsonWrite (declarationOf strings) true) = .ok (declarationOf strings) := by
  have hfree : (declarationOf strings).NumberFree := by
    apply Value.NumberFree.object
    intro m hm
    obtain ⟨member, -, rfl⟩ := List.mem_map.mp hm
    exact .string _
  obtain ⟨-, hparse⟩ | ⟨hinvalid, -⟩ := jsonParse_jsonWrite hfree true
  · exact hparse
  · rw [hvalid] at hinvalid
    cases hinvalid

def plainStrings : List (Bytes × Bytes) :=
  [(ascii "id", ascii "workflow.trust"), (trust, sandboxed)]

theorem sandbox_honoured_plain :
    ∃ member : Yyjson.StringMember (jsonWrite (declarationOf plainStrings) true) trust sandboxed,
      member.Taken trusted := by
  have hparse : jsonParse (jsonWrite (declarationOf plainStrings) true) =
      .ok (declarationOf plainStrings) := jsonParse_declarationOf (by decide +kernel)
  obtain ⟨member, hmember⟩ :=
    (sandbox_honoured_iff hparse).1 trust sandboxed (by simp [plainStrings])
  exact ⟨member, (hmember trusted).mp (by decide +kernel)⟩

/-- The name stands as a value in front of the member that it names. -/
def misreadStrings : List (Bytes × Bytes) :=
  [(ascii "name", trust), (ascii "tier", ascii "low"), (trust, sandboxed)]

theorem sandbox_ignored :
    jsonParse (jsonWrite (declarationOf misreadStrings) true) = .ok (declarationOf misreadStrings) ∧
    workflowField (some (jsonWrite (declarationOf misreadStrings) true)) trust trusted =
      ascii "low" ∧
    launch (ascii "w") (.ofBytes (ascii "/w"))
        (some (jsonWrite (declarationOf misreadStrings) true)) =
      .script (.ofBytes (ascii "/w/init.lua")) := by
  refine ⟨jsonParse_declarationOf (by decide +kernel), ?_, ?_⟩
  · decide +kernel
  · decide +kernel

end SquaredPg
