import SquaredPg.JsonRoundTrip
import Mathlib.Data.List.Forall2

namespace SquaredPg.Yyjson

open Ascii

def Whitespace (s : Bytes) : Prop := ∀ c ∈ s, isSpace c = true

/-- Wherever the text stands it is read as the value, and it starts as a value does. -/
structure Reads (text : Bytes) (v : YyjsonVal) : Prop where
  opens : ∃ c tail, text = c :: tail ∧ isSpace c = false ∧ c ≠ closeBracket
  parse : ∀ n rest, Boundary rest → text.length ≤ n → parseValue n (text ++ rest) = some (v, rest)

variable {text pre post rest : Bytes} {v : YyjsonVal} {escape : UInt8 → Bytes} {n : ℕ}

theorem skipSpace_whitespace (h : Whitespace pre) {s : Bytes} (hs : ∀ c ∈ s.head?, isSpace c = false) :
    skipSpace (pre ++ s) = s := by
  rw [skipSpace, List.dropWhile_append_of_pos h]
  exact skipSpace_head hs

theorem Reads.skip (h : Reads text v) (hpre : Whitespace pre) (rest : Bytes) :
    skipSpace (pre ++ (text ++ rest)) = text ++ rest := by
  obtain ⟨c, tail, heq, hc, -⟩ := h.opens
  exact skipSpace_whitespace hpre (by simpa [heq] using hc)

theorem reads_writeValue {v : Value} (h : v.legible = true) :
    Reads (writeValue true 0 v) v.handed where
  opens := by
    obtain ⟨c, tail, heq, hspace, hclose, -⟩ := head_value v true 0 []
    exact ⟨c, tail, by simpa using heq, hspace, hclose⟩
  parse n rest hrest hn := by rw [handsOver v true 0 n rest hrest hn, if_pos h]

def stringText (escape : UInt8 → Bytes) (text : Bytes) : Bytes :=
  quote :: (text.flatMap escape ++ [quote])

theorem stringText_append (escape : UInt8 → Bytes) (text rest : Bytes) :
    stringText escape text ++ rest = quote :: literal escape text rest := by
  simp [stringText, literal]

theorem reads_string (h : Escaping escape) (hvalid : Utf8.valid text = true) :
    Reads (stringText escape text) (.str text) where
  opens := ⟨quote, _, rfl, by decide, by decide⟩
  parse n rest _ hn := by
    obtain ⟨n, rfl⟩ : ∃ m, n = m + 1 := ⟨n - 1, by simp [stringText] at hn; omega⟩
    have hlen : text.length < (literal escape text rest).length + 1 :=
      (length_literal h text rest).trans (Nat.lt_succ_self _)
    have hscan := scanString_literal h _ _ text rest hlen le_rfl
    rw [← Utf8.valid, if_pos hvalid] at hscan
    rw [stringText_append, parseValue, if_pos rfl, hscan]
    rfl

def itemSeparator : Bytes := [comma, 10]

theorem skipSpace_lineEnd (s : Bytes) : skipSpace (10 :: s) = skipSpace s := by
  have h : isSpace 10 = true := rfl
  rw [skipSpace, List.dropWhile_cons_of_pos h]
  rfl

theorem joinWith_cons_cons (separator a b : Bytes) (cs : List Bytes) :
    joinWith separator (a :: b :: cs) = a ++ (separator ++ joinWith separator (b :: cs)) := by
  simp [joinWith, List.intercalate_cons_cons]

theorem joinWith_singleton (separator a : Bytes) : joinWith separator [a] = a := by
  simp [joinWith]

theorem boundary_whitespace (hpost : Whitespace post) (rest : Bytes) {c : UInt8}
    (hc : isDigit c = false ∧ c ≠ dot ∧ c ≠ 101 ∧ c ≠ 69) :
    Boundary (post ++ c :: rest) := by
  cases post with
  | nil => exact boundary_of_head rest hc
  | cons b post =>
    have hb : isSpace b = true := hpost b (by simp)
    refine boundary_of_head _ ?_
    simp only [isSpace, decide_eq_true_eq] at hb
    rcases hb with rfl | rfl | rfl | rfl <;> decide

theorem parseItems_join {texts : List Bytes} {vals : List YyjsonVal} (hne : texts ≠ [])
    (h : List.Forall₂ Reads texts vals) (hpre : Whitespace pre) (hpost : Whitespace post) (rest : Bytes)
    (hn : (joinWith itemSeparator (texts.map fun text ↦ pre ++ text)).length < n) :
    parseItems n (skipSpace (joinWith itemSeparator (texts.map fun text ↦ pre ++ text) ++
      (post ++ closeBracket :: rest))) = some (vals, rest) := by
  induction h generalizing n with
  | nil => exact absurd rfl hne
  | @cons text v texts vals hread htail ih =>
    obtain ⟨n, rfl⟩ : ∃ m, n = m + 1 := ⟨n - 1, by omega⟩
    cases htail with
    | nil =>
      simp only [List.map_cons, List.map_nil, joinWith_singleton, List.length_append] at hn ⊢
      have hclose : skipSpace (post ++ closeBracket :: rest) = closeBracket :: rest :=
        skipSpace_whitespace hpost (by simp [isSpace, closeBracket])
      have hvalue := hread.parse n _ (boundary_whitespace hpost rest
        (by decide : isDigit closeBracket = false ∧ _)) (by omega)
      rw [List.append_assoc, hread.skip hpre, parseItems, hvalue]
      simp only [hclose, List.head?_cons, if_true, List.tail_cons]
    | @cons next w texts vals hnext htail =>
      simp only [List.map_cons, joinWith_cons_cons, List.length_append] at hn ih ⊢
      have hsep : itemSeparator.length = 2 := rfl
      have hitems := ih (n := n) (by simp) (by omega)
      let more := joinWith itemSeparator ((pre ++ next) :: texts.map fun text ↦ pre ++ text) ++
        (post ++ closeBracket :: rest)
      have hcomma : Boundary (comma :: 10 :: more) := boundary_of_head _ (by decide)
      have hvalue := hread.parse n _ hcomma (by omega)
      have hskip : ∀ s, skipSpace (comma :: s) = comma :: s := fun s ↦ rfl
      have hne : some comma ≠ some closeBracket := by decide
      have hshape : pre ++ text ++ (itemSeparator ++ joinWith itemSeparator ((pre ++ next) ::
          texts.map fun text ↦ pre ++ text)) ++ (post ++ closeBracket :: rest) =
          pre ++ (text ++ comma :: 10 :: more) := by
        simp [itemSeparator, more]
      rw [hshape, hread.skip hpre, parseItems, hvalue]
      simp only [hskip, List.head?_cons, if_neg hne, if_true, List.tail_cons, skipSpace_lineEnd]
      rw [hitems]
      rfl

theorem skipSpace_join {texts : List Bytes} (h : Reads text v) (hpre : Whitespace pre) (rest : Bytes) :
    ∃ c tail, skipSpace (joinWith itemSeparator ((text :: texts).map fun text ↦ pre ++ text) ++
      rest) = c :: tail ∧ c ≠ closeBracket := by
  obtain ⟨c, tail, hopen, -, hclose⟩ := h.opens
  have hshape : ∃ more, joinWith itemSeparator ((text :: texts).map fun text ↦ pre ++ text) ++
      rest = pre ++ (text ++ more) := by
    cases texts with
    | nil => exact ⟨rest, by simp [joinWith_singleton]⟩
    | cons next texts =>
      exact ⟨_, by rw [List.map_cons, List.map_cons, joinWith_cons_cons]; simp; rfl⟩
  obtain ⟨more, hmore⟩ := hshape
  refine ⟨c, tail ++ more, ?_, hclose⟩
  rw [hmore, h.skip hpre, hopen]
  rfl

theorem reads_array {texts : List Bytes} {vals : List YyjsonVal} (hne : texts ≠ [])
    (h : List.Forall₂ Reads texts vals) (hpre : Whitespace pre) (hpost : Whitespace post) :
    Reads (openBracket :: 10 :: (joinWith itemSeparator (texts.map fun text ↦ pre ++ text) ++
      10 :: (post ++ [closeBracket]))) (.arr vals) where
  opens := ⟨openBracket, _, rfl, by decide, by decide⟩
  parse n rest _ hn := by
    simp only [List.length_cons, List.length_append, List.length_nil] at hn
    obtain ⟨n, rfl⟩ : ∃ m, n = m + 1 := ⟨n - 1, by omega⟩
    have hblank : Whitespace (10 :: post) := List.forall_mem_cons.mpr ⟨rfl, hpost⟩
    have hitems := parseItems_join (n := n) hne h hpre hblank rest (by omega)
    have hhead : (skipSpace (joinWith itemSeparator (texts.map fun text ↦ pre ++ text) ++
        (10 :: post ++ closeBracket :: rest))).head? ≠ some closeBracket := by
      cases h with
      | nil => exact absurd rfl hne
      | cons hfirst _ =>
        obtain ⟨c, tail, heq, hc⟩ := skipSpace_join hfirst hpre _
        rw [heq]
        simpa using hc
    have hshape : joinWith itemSeparator (texts.map fun text ↦ pre ++ text) ++
        10 :: (post ++ [closeBracket]) ++ rest =
        joinWith itemSeparator (texts.map fun text ↦ pre ++ text) ++
          (10 :: post ++ closeBracket :: rest) := by simp
    rw [List.cons_append, List.cons_append, hshape, parseValue, if_neg (by decide), if_pos rfl,
      skipSpace_lineEnd, if_neg hhead, hitems]
    rfl

def memberText (escape : UInt8 → Bytes) (key text : Bytes) : Bytes :=
  stringText escape key ++ colon :: 32 :: text

def ReadsMember (escape : UInt8 → Bytes) (part : Bytes) (m : Bytes × YyjsonVal) : Prop :=
  Utf8.valid m.1 = true ∧ ∃ text, Reads text m.2 ∧ part = memberText escape m.1 text

theorem parseMembers_memberText {key : Bytes} (h : Escaping escape)
    (hvalid : Utf8.valid key = true) (hread : Reads text v) (hrest : Boundary rest)
    (hn : text.length ≤ n) :
    parseMembers (n + 1) (memberText escape key text ++ rest) =
      if (skipSpace rest).head? = some closeBrace then some ([(key, v)], (skipSpace rest).tail)
      else if (skipSpace rest).head? = some comma then
        (parseMembers n (skipSpace (skipSpace rest).tail)).map fun p ↦ ((key, v) :: p.1, p.2)
      else none := by
  have hshape : memberText escape key text ++ rest =
      quote :: literal escape key (colon :: 32 :: (text ++ rest)) := by
    rw [memberText, List.append_assoc, stringText_append]
    rfl
  have hlen := length_literal h key (colon :: 32 :: (text ++ rest))
  have hscan := scanString_literal h
    ((literal escape key (colon :: 32 :: (text ++ rest))).length + 1)
    key.length key (colon :: 32 :: (text ++ rest)) (by omega) le_rfl
  rw [← Utf8.valid, if_pos hvalid] at hscan
  have hcolon : ∀ s, skipSpace (colon :: s) = colon :: s := fun s ↦ rfl
  have hspace : Whitespace [32] := by simp [Whitespace, isSpace]
  have hblank : skipSpace (32 :: (text ++ rest)) = text ++ rest :=
    hread.skip hspace rest
  rw [hshape, parseMembers]
  simp only [List.head?_cons, List.tail_cons, if_true, List.length_cons, hscan, hcolon, hblank,
    hread.parse n rest hrest hn]

theorem parseMembers_join {parts : List Bytes} {members : List (Bytes × YyjsonVal)}
    (hescape : Escaping escape) (hne : parts ≠ [])
    (h : List.Forall₂ (ReadsMember escape) parts members) (hpre : Whitespace pre) (hpost : Whitespace post)
    (rest : Bytes)
    (hn : (joinWith itemSeparator (parts.map fun part ↦ pre ++ part)).length < n) :
    parseMembers n (skipSpace (joinWith itemSeparator (parts.map fun part ↦ pre ++ part) ++
      (post ++ closeBrace :: rest))) = some (members, rest) := by
  induction h generalizing n with
  | nil => exact absurd rfl hne
  | @cons part m parts members hmember htail ih =>
    obtain ⟨n, rfl⟩ : ∃ m, n = m + 1 := ⟨n - 1, by omega⟩
    obtain ⟨key, v⟩ := m
    obtain ⟨hvalid, text, hread, rfl⟩ := hmember
    have hlen : text.length ≤ (memberText escape key text).length := by simp [memberText]; omega
    have hquote : ∀ s, skipSpace (pre ++ (memberText escape key text ++ s)) =
        memberText escape key text ++ s := fun s ↦ skipSpace_whitespace hpre (by
      simp [memberText, stringText, isSpace, quote])
    cases htail with
    | nil =>
      simp only [List.map_cons, List.map_nil, joinWith_singleton, List.length_append] at hn ⊢
      have hclose : skipSpace (post ++ closeBrace :: rest) = closeBrace :: rest :=
        skipSpace_whitespace hpost (by simp [isSpace, closeBrace])
      have hboundary : Boundary (post ++ closeBrace :: rest) :=
        boundary_whitespace hpost rest (by decide)
      rw [List.append_assoc, hquote,
        parseMembers_memberText hescape hvalid hread hboundary (by omega), hclose]
      simp
    | @cons next w parts members hnext htail =>
      simp only [List.map_cons, joinWith_cons_cons, List.length_append] at hn ih ⊢
      have hsep : itemSeparator.length = 2 := rfl
      have hmembers := ih (n := n) (by simp) (by omega)
      let more := joinWith itemSeparator ((pre ++ next) :: parts.map fun part ↦ pre ++ part) ++
        (post ++ closeBrace :: rest)
      have hcomma : Boundary (comma :: 10 :: more) := boundary_of_head _ (by decide)
      have hskip : ∀ s, skipSpace (comma :: s) = comma :: s := fun s ↦ rfl
      have hne : some comma ≠ some closeBrace := by decide
      have hshape : pre ++ memberText escape key text ++ (itemSeparator ++ joinWith itemSeparator
          ((pre ++ next) :: parts.map fun part ↦ pre ++ part)) ++ (post ++ closeBrace :: rest) =
          pre ++ (memberText escape key text ++ comma :: 10 :: more) := by
        simp [itemSeparator, more]
      rw [hshape, hquote, parseMembers_memberText hescape hvalid hread hcomma (by omega)]
      simp only [hskip, List.head?_cons, if_neg hne, if_true, List.tail_cons, skipSpace_lineEnd]
      rw [hmembers]
      rfl

theorem reads_object {parts : List Bytes} {members : List (Bytes × YyjsonVal)}
    (hescape : Escaping escape) (hne : parts ≠ [])
    (h : List.Forall₂ (ReadsMember escape) parts members) (hpre : Whitespace pre) (hpost : Whitespace post) :
    Reads (openBrace :: 10 :: (joinWith itemSeparator (parts.map fun part ↦ pre ++ part) ++
      10 :: (post ++ [closeBrace]))) (.obj members) where
  opens := ⟨openBrace, _, rfl, by decide, by decide⟩
  parse n rest _ hn := by
    simp only [List.length_cons, List.length_append, List.length_nil] at hn
    obtain ⟨n, rfl⟩ : ∃ m, n = m + 1 := ⟨n - 1, by omega⟩
    have hblank : Whitespace (10 :: post) := List.forall_mem_cons.mpr ⟨rfl, hpost⟩
    have hmembers := parseMembers_join (n := n) hescape hne h hpre hblank rest (by omega)
    have hhead : (skipSpace (joinWith itemSeparator (parts.map fun part ↦ pre ++ part) ++
        (10 :: post ++ closeBrace :: rest))).head? ≠ some closeBrace := by
      intro hclose
      obtain ⟨n, rfl⟩ : ∃ m, n = m + 1 := ⟨n - 1, by omega⟩
      rw [parseMembers, if_neg (by rw [hclose]; decide)] at hmembers
      cases hmembers
    have hshape : joinWith itemSeparator (parts.map fun part ↦ pre ++ part) ++
        10 :: (post ++ [closeBrace]) ++ rest =
        joinWith itemSeparator (parts.map fun part ↦ pre ++ part) ++
          (10 :: post ++ closeBrace :: rest) := by simp
    rw [List.cons_append, List.cons_append, hshape, parseValue, if_neg (by decide),
      if_neg (by decide), if_pos rfl, skipSpace_lineEnd, if_neg hhead, hmembers]
    rfl

theorem Reads.read (h : Reads text v) : Yyjson.read text = some v := by
  obtain ⟨c, tail, heq, hc, -⟩ := h.opens
  have hskip : skipSpace text = text := skipSpace_head (by simpa [heq] using hc)
  have hparse := h.parse (text.length + 1) [] (by simp [Boundary]) (by omega)
  rw [List.append_nil] at hparse
  rw [Yyjson.read, hskip, hparse]
  rfl

end SquaredPg.Yyjson
