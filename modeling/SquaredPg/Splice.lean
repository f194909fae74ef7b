import SquaredPg.Substitute
import SquaredPg.Blanks
import SquaredPg.Fallible

namespace SquaredPg

open Ascii Fallible

variable {text raw after body left right name : Bytes}

theorem brace_ne : openBrace ≠ closeBrace := by decide

theorem cutAtClose_cons_of_ne {c : UInt8} (h : c ≠ closeBrace) (text : Bytes) :
    cutAtClose (c :: text) = (cutAtClose text).map fun p ↦ (c :: p.1, p.2) := by
  cases text with
  | nil => rfl
  | cons b rest => rw [cutAtClose, if_neg (fun hclose ↦ h hclose.1)]

theorem cutAtClose_cases {a : UInt8} (h : cutAtClose (a :: text) = some (raw, after)) :
    (a = closeBrace ∧ text = closeBrace :: after ∧ raw = []) ∨
      ∃ front, cutAtClose text = some (front, after) ∧ raw = a :: front ∧
        ¬(a = closeBrace ∧ text.head? = some closeBrace) := by
  cases text with
  | nil => simp [cutAtClose] at h
  | cons b rest =>
    rw [cutAtClose] at h
    split at h
    · rename_i hclose
      obtain ⟨rfl, rfl⟩ : [] = raw ∧ rest = after := by simpa using h
      exact .inl ⟨hclose.1, by rw [hclose.2], rfl⟩
    · rename_i hclose
      obtain ⟨⟨front, back⟩, hfront, heq⟩ := Option.map_eq_some_iff.mp h
      obtain ⟨rfl, rfl⟩ : a :: front = raw ∧ back = after := by simpa using heq
      exact .inr ⟨front, hfront, rfl, by simpa using hclose⟩

theorem cutAtClose_sound (h : cutAtClose text = some (raw, after)) :
    text = raw ++ closeBrace :: closeBrace :: after := by
  induction text generalizing raw with
  | nil => simp [cutAtClose] at h
  | cons a text ih =>
    obtain ⟨rfl, rfl, rfl⟩ | ⟨front, hfront, rfl, -⟩ := cutAtClose_cases h
    · rfl
    · rw [ih hfront]
      rfl

theorem cutAtClose_append (h : cutAtClose text = some (raw, after)) (more : Bytes) :
    cutAtClose (text ++ more) = some (raw, after ++ more) := by
  induction text generalizing raw with
  | nil => simp [cutAtClose] at h
  | cons a text ih =>
    obtain ⟨rfl, rfl, rfl⟩ | ⟨front, hfront, rfl, hopen⟩ := cutAtClose_cases h
    · exact if_pos ⟨rfl, rfl⟩
    · cases text with
      | nil => simp [cutAtClose] at hfront
      | cons b rest =>
        have hclose : ¬(a = closeBrace ∧ b = closeBrace) := by simpa using hopen
        rw [List.cons_append, List.cons_append, cutAtClose, if_neg hclose, ← List.cons_append,
          ih hfront]
        rfl

theorem cutAtClose_append_open (h : cutAtClose text = none) (more : Bytes) :
    cutAtClose (text ++ openBrace :: more) =
      (cutAtClose (openBrace :: more)).map fun p ↦ (text ++ p.1, p.2) := by
  induction text with
  | nil => simp only [List.nil_append, Prod.eta, Option.map_id']
  | cons a text ih =>
    cases text with
    | nil =>
      have hopen : ¬(a = closeBrace ∧ openBrace = closeBrace) := by simp only [brace_ne, and_false, not_false_eq_true]
      rw [List.cons_append, List.nil_append, cutAtClose, if_neg hopen]
      rfl
    | cons b rest =>
      rw [cutAtClose] at h
      rw [List.cons_append, List.cons_append, cutAtClose]
      split at h
      · cases h
      · rename_i hclose
        rw [if_neg hclose, ← List.cons_append, ih (Option.map_eq_none_iff.mp h), Option.map_map]
        rfl

theorem cutAtClose_body (h : closeBrace ∉ body) (after : Bytes) :
    cutAtClose (body ++ closeBrace :: closeBrace :: after) = some (body, after) := by
  induction body with
  | nil => exact if_pos ⟨rfl, rfl⟩
  | cons c body ih =>
    obtain ⟨hc, hbody⟩ := List.ne_and_not_mem_of_not_mem_cons h
    rw [List.cons_append, cutAtClose_cons_of_ne (Ne.symm hc), ih hbody]
    rfl

theorem count_trim {c : UInt8} (hc : isBlank c = false) (text : Bytes) :
    (trim text).count c = text.count c := by
  have hblank : ∀ {b : Bytes}, Blank b → b.count c = 0 := by
    intro b hb
    refine List.count_eq_zero.mpr fun hmem ↦ ?_
    rw [hb c hmem] at hc
    cases hc
  by_cases htext : Blank text
  · rw [trim_blank htext, hblank htext]
    rfl
  · obtain ⟨b, t, b', rfl, hb, ht, hb'⟩ := exists_tight htext
    rw [trim_tight hb ht hb', List.count_append, List.count_append, hblank hb, hblank hb']
    omega

def escapeToken : Bytes := [quote, openBrace, openBrace, quote]

def marker (left core right : Bytes) : Bytes :=
  openBrace :: openBrace :: (left ++ core ++ right) ++ [closeBrace, closeBrace]

/-- A placeholder or an escape as `substitute` reads them: both are trimmed first. -/
def IsMarker (text : Bytes) : Prop :=
  ∃ left core right, Blank left ∧ Blank right ∧ (isIdentifier core = true ∨ core = escapeToken) ∧
    text = marker left core right

/-- What stands between braces and cannot be the end of an escape that starts before them. -/
structure Shielded (body : Bytes) : Prop where
  noClose : closeBrace ∉ body
  noEscape : ∀ front, trim (front ++ openBrace :: body) ≠ escapeToken

theorem isIdentifier_chars (h : isIdentifier name = true) {c : UInt8} (hc : c ∈ name) :
    c = underscore ∨ isLetter c = true ∨ isDigit c = true := by
  rw [isIdentifier, Bool.and_eq_true, List.all_eq_true] at h
  have hchar := h.2 c hc
  simpa only [Bool.or_eq_true, beq_iff_eq, or_assoc] using hchar

theorem identifierChar_class {c : UInt8}
    (h : c = underscore ∨ isLetter c = true ∨ isDigit c = true) :
    isBlank c = false ∧ c ≠ 10 ∧ c ≠ openBrace ∧ c ≠ closeBrace ∧ c ≠ quote := by
  have hne : ∀ d : UInt8, ¬(d = underscore ∨ isLetter d = true ∨ isDigit d = true) → c ≠ d := by
    intro d hd hcd
    rw [hcd] at h
    exact hd h
  refine ⟨?_, hne 10 (by decide), hne openBrace (by decide), hne closeBrace (by decide),
    hne quote (by decide)⟩
  have hspace := hne 32 (by decide)
  have htab := hne 9 (by decide)
  simp only [isBlank, hspace, htab, or_self, decide_false]

theorem isIdentifier_ne_nil (h : isIdentifier name = true) : name ≠ [] := by
  intro hnil
  rw [hnil] at h
  cases h

theorem Blank.noClose (h : Blank left) : closeBrace ∉ left := by
  intro hc
  have hblank := h _ hc
  cases hblank

theorem tight_identifier (h : isIdentifier name = true) : Tight name := by
  have hne := isIdentifier_ne_nil h
  have hclass := fun {c : UInt8} (hc : c ∈ name) ↦ (identifierChar_class (isIdentifier_chars h hc)).1
  obtain ⟨c, rest, rfl⟩ := List.exists_cons_of_ne_nil hne
  refine ⟨⟨c, rest, rfl, hclass (by simp)⟩, ⟨_, _, (List.dropLast_append_getLast hne).symm, ?_⟩⟩
  exact hclass (List.getLast_mem hne)

theorem noClose_between {middle : Bytes} (hleft : Blank left) (hmiddle : closeBrace ∉ middle)
    (hright : Blank right) : closeBrace ∉ left ++ middle ++ right := by
  simp only [List.mem_append, not_or]
  exact ⟨⟨hleft.noClose, hmiddle⟩, hright.noClose⟩

theorem shielded_identifier (hleft : Blank left) (h : isIdentifier name = true)
    (hright : Blank right) : Shielded (left ++ name ++ right) := by
  have hclass := fun {c : UInt8} (hc : c ∈ name) ↦ identifierChar_class (isIdentifier_chars h hc)
  have hname : closeBrace ∉ name := fun hc ↦ (hclass hc).2.2.2.1 rfl
  refine ⟨noClose_between hleft hname hright, ?_⟩
  · -- A letter of the name is not trimmed away, and there is no letter in the escape.
    intro front htoken
    obtain ⟨c, rest, rfl⟩ := List.exists_cons_of_ne_nil (isIdentifier_ne_nil h)
    obtain ⟨hblank, -, hopen, -, hquote⟩ := hclass (List.mem_cons_self (a := c) (l := rest))
    have hcount := count_trim hblank (front ++ openBrace :: (left ++ c :: rest ++ right))
    have hzero : escapeToken.count c = 0 := by
      simp [escapeToken, Ne.symm hopen, Ne.symm hquote]
    rw [htoken, hzero] at hcount
    have hmem : c ∈ front ++ openBrace :: (left ++ c :: rest ++ right) := by simp
    exact List.count_eq_zero.mp hcount.symm hmem

theorem shielded_escape (hleft : Blank left) (hright : Blank right) :
    Shielded (left ++ escapeToken ++ right) := by
  refine ⟨noClose_between hleft (by decide) hright, ?_⟩
  · -- The escape has two opening braces, what is read here at least three.
    intro front htoken
    have hcount := count_trim (c := openBrace) rfl
      (front ++ openBrace :: (left ++ escapeToken ++ right))
    have htwo : escapeToken.count openBrace = 2 := rfl
    simp only [htoken, List.count_append, List.count_cons_self, htwo] at hcount
    omega

def Token.append (more : Bytes) : Token → Token
  | literal c rest => literal c (rest ++ more)
  | escape rest => escape (rest ++ more)
  | placeholder name rest => placeholder name (rest ++ more)

@[simp] theorem Token.rest_append (more : Bytes) (token : Token) :
    (token.append more).rest = token.rest ++ more := by
  cases token <;> rfl

@[simp] theorem Token.render_append (parameters : Value) (origin more : Bytes) (token : Token) :
    (token.append more).render parameters origin = token.render parameters origin := by
  cases token <;> rfl

/-- The token at a pair of opening braces, from the cut at the first `}}` after them. -/
def tokenAt (rest : Bytes) : Option (Bytes × Bytes) → Token
  | none => .literal openBrace rest
  | some (raw, after) =>
    if trim raw = escapeToken then .escape after
    else if trim raw = [] ∨
        (trim raw).any (fun b ↦ isBlank b || b = 10 || b = openBrace || b = closeBrace) then
      .literal openBrace rest
    else if isIdentifier (trim raw) then .placeholder (trim raw) after
    else .literal openBrace rest

theorem nextToken_open (rest : Bytes) :
    nextToken openBrace (openBrace :: rest) = tokenAt (openBrace :: rest) (cutAtClose rest) := by
  rw [nextToken, if_neg (by simp), List.tail_cons]
  cases cutAtClose rest with
  | none => rfl
  | some p => rfl

theorem nextToken_plain {c : UInt8} {rest : Bytes} (h : c ≠ openBrace ∨ rest.head? ≠ some openBrace) :
    nextToken c rest = .literal c rest := if_pos h

theorem tokenAt_literal (rest after : Bytes) (hopen : openBrace ∈ raw) (htoken : trim raw ≠ escapeToken) :
    tokenAt rest (some (raw, after)) = .literal openBrace rest := by
  have hmem : openBrace ∈ trim raw := by
    rw [← List.count_pos_iff, count_trim rfl, List.count_pos_iff]
    exact hopen
  have hany : (trim raw).any
      (fun b ↦ isBlank b || b = 10 || b = openBrace || b = closeBrace) = true :=
    List.any_eq_true.mpr ⟨openBrace, hmem, rfl⟩
  rw [tokenAt, if_neg htoken, if_pos (.inr hany)]

/-- No token begins before a marker and ends in it: an opening brace of the marker would stand
in the token. -/
theorem nextToken_append (hbody : Shielded body) (c : UInt8) (rest after : Bytes) :
    nextToken c (rest ++ openBrace :: openBrace :: (body ++ closeBrace :: closeBrace :: after)) =
      (nextToken c rest).append
        (openBrace :: openBrace :: (body ++ closeBrace :: closeBrace :: after)) := by
  have hnoClose : closeBrace ∉ openBrace :: body :=
    List.not_mem_cons_of_ne_of_not_mem brace_ne.symm hbody.noClose
  by_cases hc : c = openBrace
  · subst hc
    cases rest with
    | nil =>
      have hescape : trim (openBrace :: body) ≠ escapeToken := hbody.noEscape []
      rw [List.nil_append, nextToken_open, ← List.cons_append, cutAtClose_body hnoClose,
        tokenAt_literal _ _ (by simp) hescape, nextToken_plain (.inr (by simp))]
      rfl
    | cons d rest =>
      by_cases hd : d = openBrace
      · subst hd
        rw [List.cons_append, nextToken_open, nextToken_open]
        cases hcut : cutAtClose rest with
        | none =>
          have hnoClose' : closeBrace ∉ openBrace :: openBrace :: body :=
            List.not_mem_cons_of_ne_of_not_mem brace_ne.symm hnoClose
          have hescape := hbody.noEscape (rest ++ [openBrace])
          rw [List.append_assoc, List.singleton_append] at hescape
          have hbodyCut := cutAtClose_body hnoClose' after
          rw [List.cons_append, List.cons_append] at hbodyCut
          rw [cutAtClose_append_open hcut, hbodyCut, Option.map_some,
            tokenAt_literal _ _ (by simp) hescape]
          rfl
        | some p =>
          obtain ⟨raw, rest'⟩ := p
          rw [cutAtClose_append hcut, tokenAt, tokenAt]
          split_ifs <;> rfl
      · rw [nextToken_plain (.inr (by simpa using hd)), nextToken_plain (.inr (by simpa using hd))]
        rfl
  · rw [nextToken_plain (.inl hc), nextToken_plain (.inl hc)]
    rfl

theorem nextToken_identifier (hleft : Blank left) (h : isIdentifier name = true)
    (hright : Blank right) (after : Bytes) :
    nextToken openBrace (openBrace :: (left ++ name ++ right ++ closeBrace :: closeBrace :: after)) =
      .placeholder name after := by
  have hshield := shielded_identifier hleft h hright
  have htrim := trim_tight hleft (tight_identifier h) hright
  have hescape : name ≠ escapeToken := by
    intro heq
    rw [heq] at h
    cases h
  have hclean : name.any (fun b ↦ isBlank b || b = 10 || b = openBrace || b = closeBrace) = false := by
    rw [List.any_eq_false]
    intro c hc
    obtain ⟨hblank, hline, hopen, hclose, -⟩ := identifierChar_class (isIdentifier_chars h hc)
    simp [hblank, hline, hopen, hclose]
  have hkeep : ¬(name = [] ∨
      name.any (fun b ↦ isBlank b || b = 10 || b = openBrace || b = closeBrace) = true) := by
    rw [hclean]
    exact fun hor ↦ hor.elim (isIdentifier_ne_nil h) (fun hfalse ↦ by cases hfalse)
  rw [nextToken_open, cutAtClose_body hshield.noClose, tokenAt, htrim, if_neg hescape, if_neg hkeep,
    if_pos h]

theorem nextToken_escape (hleft : Blank left) (hright : Blank right) (after : Bytes) :
    nextToken openBrace
      (openBrace :: (left ++ escapeToken ++ right ++ closeBrace :: closeBrace :: after)) =
      .escape after := by
  have htight : Tight escapeToken :=
    ⟨⟨quote, _, rfl, rfl⟩, ⟨[quote, openBrace, openBrace], quote, rfl, rfl⟩⟩
  rw [nextToken_open, cutAtClose_body (shielded_escape hleft hright).noClose, tokenAt,
    trim_tight hleft htight hright, if_pos rfl]

theorem isMarker_of_nextToken {c : UInt8} {rest : Bytes} (h : nextToken c rest ≠ .literal c rest) :
    ∃ m after, IsMarker m ∧ c :: rest = m ++ after := by
  by_cases hplain : c ≠ openBrace ∨ rest.head? ≠ some openBrace
  · exact absurd (nextToken_plain hplain) h
  · obtain ⟨hc, hhead⟩ := not_or.mp hplain
    obtain rfl := not_not.mp hc
    obtain ⟨rest, rfl⟩ := List.head?_eq_some_iff.mp (not_not.mp hhead)
    rw [nextToken_open] at h
    cases hcut : cutAtClose rest with
    | none =>
      rw [hcut] at h
      exact absurd rfl h
    | some p =>
      obtain ⟨raw, after⟩ := p
      rw [hcut, tokenAt] at h
      have hrest := cutAtClose_sound hcut
      have hcore : trim raw ≠ [] ∧ (isIdentifier (trim raw) = true ∨ trim raw = escapeToken) := by
        split_ifs at h with hescape hdirty hname
        · exact ⟨by rw [hescape]; exact List.cons_ne_nil _ _, .inr hescape⟩
        · exact absurd rfl h
        · exact ⟨fun hnil ↦ hdirty (.inl hnil), .inl hname⟩
        · exact absurd rfl h
      have hblank : ¬Blank raw := fun hb ↦ hcore.1 (trim_blank hb)
      obtain ⟨left, core, right, rfl, hleft, htight, hright⟩ := exists_tight hblank
      rw [trim_tight hleft htight hright] at hcore
      refine ⟨marker left core right, after, ⟨left, core, right, hleft, hright, hcore.2, rfl⟩, ?_⟩
      rw [hrest, marker]
      simp

section

variable (parameters : Value) (origin : Bytes)

theorem substitute_append (hbody : Shielded body) (a after : Bytes) :
    substitute (a ++ openBrace :: openBrace :: (body ++ closeBrace :: closeBrace :: after))
        parameters origin =
      (substitute a parameters origin >>= fun x ↦
        substitute (openBrace :: openBrace :: (body ++ closeBrace :: closeBrace :: after))
          parameters origin >>= fun y ↦ pure (x ++ y)) := by
  induction hlen : a.length using Nat.strong_induction_on generalizing a with
  | _ n ih =>
    cases a with
    | nil =>
      rw [List.nil_append, substitute_nil]
      exact (bind_pure _).symm
    | cons c rest =>
      have hrest := nextToken_length c rest
      rw [List.length_cons] at hlen
      rw [List.cons_append, substitute_cons, substitute_cons c rest, nextToken_append hbody,
        Token.render_append, Token.rest_append, ih _ (by omega) _ rfl]
      simp only [bind_assoc, pure_bind, List.append_assoc]

theorem substitute_placeholder (hleft : Blank left) (h : isIdentifier name = true)
    (hright : Blank right) (a b : Bytes) :
    substitute (a ++ marker left name right ++ b) parameters origin =
      (substitute a parameters origin >>= fun x ↦ renderParameter parameters name origin >>= fun v ↦
        substitute b parameters origin >>= fun y ↦ pure (x ++ v ++ y)) := by
  have htext : a ++ marker left name right ++ b = a ++ openBrace :: openBrace ::
      (left ++ name ++ right ++ closeBrace :: closeBrace :: b) := by simp [marker]
  rw [htext, substitute_append _ _ (shielded_identifier hleft h hright),
    substitute_cons openBrace (openBrace :: _), nextToken_identifier hleft h hright]
  simp only [Token.render, Token.rest, bind_assoc, pure_bind, List.append_assoc]

theorem substitute_escape (hleft : Blank left) (hright : Blank right) (a b : Bytes) :
    substitute (a ++ marker left escapeToken right ++ b) parameters origin =
      (substitute a parameters origin >>= fun x ↦ substitute b parameters origin >>= fun y ↦
        pure (x ++ [openBrace, openBrace] ++ y)) := by
  have htext : a ++ marker left escapeToken right ++ b = a ++ openBrace :: openBrace ::
      (left ++ escapeToken ++ right ++ closeBrace :: closeBrace :: b) := by simp [marker]
  rw [htext, substitute_append _ _ (shielded_escape hleft hright),
    substitute_cons openBrace (openBrace :: _), nextToken_escape hleft hright]
  have hrender : (Token.escape b).render parameters origin = pure [openBrace, openBrace] := rfl
  simp only [hrender, Token.rest, bind_assoc, pure_bind, List.append_assoc]

theorem substitute_unmarked (h : ∀ m, IsMarker m → ¬m <:+: text) :
    substitute text parameters origin = .ok text := by
  induction text with
  | nil => rfl
  | cons c rest ih =>
    have hliteral : nextToken c rest = .literal c rest := by
      by_contra hne
      obtain ⟨m, after, hm, heq⟩ := isMarker_of_nextToken hne
      exact h m hm ⟨[], after, by rw [heq]; rfl⟩
    have hrest := ih fun m hm hinside ↦ h m hm (hinside.trans (List.suffix_cons c rest).isInfix)
    rw [substitute_cons, hliteral]
    simp only [Token.render, Token.rest, hrest]
    rfl

end

/-- The text of a scalar. -/
def Value.scalarText : Value → Option Bytes
  | .string s => some s
  | .integer i => some (integerText i)
  | .boolean b => some (ascii (if b then "true" else "false"))
  | .number d => some (d.printG 6)
  | _ => none

theorem renderParameter_toOption (parameters : Value) (name origin : Bytes) :
    (renderParameter parameters name origin).toOption =
      (parameters.find name).bind Value.scalarText := by
  rw [renderParameter]
  cases parameters.find name with
  | none => rfl
  | some value => cases value <;> rfl

def substituted (parameters : Value) (origin text : Bytes) : Option Bytes :=
  (substitute text parameters origin).toOption

theorem substitute_onePass (parameters : Value) (origin : Bytes) :
    (∀ a b left name right, Blank left → Blank right → isIdentifier name = true →
      (∀ v, (parameters.find name).bind Value.scalarText = some v →
        substituted parameters origin (a ++ marker left name right ++ b) =
          (substituted parameters origin a).bind fun x ↦
            (substituted parameters origin b).map fun y ↦ x ++ v ++ y) ∧
      ((parameters.find name).bind Value.scalarText = none →
        substituted parameters origin (a ++ marker left name right ++ b) = none)) ∧
    (∀ a b left right, Blank left → Blank right →
      substituted parameters origin (a ++ marker left escapeToken right ++ b) =
        (substituted parameters origin a).bind fun x ↦
          (substituted parameters origin b).map fun y ↦ x ++ [openBrace, openBrace] ++ y) ∧
    ∀ text, (∀ m, IsMarker m → ¬m <:+: text) → substitute text parameters origin = .ok text := by
  refine ⟨?_, ?_, fun text h ↦ substitute_unmarked parameters origin h⟩
  · intro a b left name right hleft hright hname
    have hsplice : substituted parameters origin (a ++ marker left name right ++ b) =
        (substituted parameters origin a).bind fun x ↦
          ((parameters.find name).bind Value.scalarText).bind fun v ↦
            (substituted parameters origin b).map fun y ↦ x ++ v ++ y := by
      simp only [substituted, substitute_placeholder parameters origin hleft hname hright,
        toOption_bind, renderParameter_toOption]
      cases (substitute b parameters origin) <;> rfl
    rw [hsplice]
    refine ⟨?_, ?_⟩
    · intro v hv
      rw [hv]
      rfl
    · intro hnone
      rw [hnone]
      cases substituted parameters origin a <;> rfl
  · intro a b left right hleft hright
    simp only [substituted, substitute_escape parameters origin hleft hright, toOption_bind]
    cases (substitute b parameters origin) <;> rfl

/-- A value that looks like a placeholder, between an opener that nothing closes and a brace. -/
theorem substitute_onePass_sample :
    substituted (.object [(ascii "x", .string (ascii "\x7b\x7by\x7d\x7d"))]) []
        (ascii "\x7b\x7b \x7b" ++ marker [32] (ascii "x") [] ++ ascii "\x7d") =
      some (ascii "\x7b\x7b \x7b\x7b\x7by\x7d\x7d\x7d") :=
  (((substitute_onePass _ []).1 (ascii "\x7b\x7b \x7b") (ascii "\x7d") [32] (ascii "x") []
    (by simp [Blank, isBlank]) (by simp [Blank]) rfl).1 _ rfl).trans rfl

end SquaredPg
