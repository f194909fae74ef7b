import SquaredPg.VersionGrammar
import SquaredPg.Blanks

namespace SquaredPg

open Ascii

variable {text t t' b b' w x y : Bytes}

theorem Version.parse_append_blank (hb : Blank b) : Version.parse (text ++ b) = Version.parse text := by
  rw [Version.parse_eq, Version.parse_eq, Version.bare, Version.bare, trim_append_blank hb]

theorem Version.parse_tab (hx : ¬Blank x) (hy : ¬Blank y) : Version.parse (x ++ 9 :: y) = none := by
  obtain ⟨b, c, rest, rfl, hb, hc⟩ := exists_first hx
  obtain ⟨front, d, b', rfl, hd, hb'⟩ := exists_trailing hy
  have htight : Tight (c :: (rest ++ 9 :: front ++ [d])) :=
    ⟨⟨c, _, rfl, hc⟩, ⟨c :: (rest ++ 9 :: front), d, by simp, hd⟩⟩
  have hsplit : b ++ c :: rest ++ 9 :: (front ++ d :: b') =
      b ++ c :: (rest ++ 9 :: front ++ [d]) ++ b' := by simp
  have htab : (9 : UInt8) ∈ Version.bare (b ++ c :: rest ++ 9 :: (front ++ d :: b')) := by
    rw [Version.bare, hsplit, trim_tight hb htight hb']
    split_ifs <;> simp
  by_contra hsome
  obtain ⟨v, hv⟩ := Option.ne_none_iff_exists'.mp hsome
  rw [Version.parse_eq] at hv
  obtain ⟨s, hvalid, -, htext, -⟩ := Version.parseBare_sound hv
  rw [← htext] at htab
  exact absurd (Version.text_chars hvalid htab) (by decide)

/-- Nothing is put behind the end of such an operand: it has a suffix, or all its dots. -/
def Firm (token : Bytes) : Prop := minus ∈ token ∨ plus ∈ token ∨ 2 ≤ token.count dot

instance (token : Bytes) : Decidable (Firm token) := inferInstanceAs (Decidable (_ ∨ _ ∨ _))

def Unmarked (text : Bytes) : Prop := minus ∉ text ∧ plus ∉ text ∧ dot ∉ text

instance (text : Bytes) : Decidable (Unmarked text) := inferInstanceAs (Decidable (_ ∧ _ ∧ _))

theorem Blank.unmarked (h : Blank b) : Unmarked b := by
  refine ⟨fun hc ↦ ?_, fun hc ↦ ?_, fun hc ↦ ?_⟩
  all_goals exact absurd (h _ hc) (by decide)

theorem Unmarked.append (h : Unmarked x) (h' : Unmarked y) : Unmarked (x ++ y) := by
  simp only [Unmarked, List.mem_append, not_or]
  exact ⟨⟨h.1, h'.1⟩, ⟨h.2.1, h'.2.1⟩, ⟨h.2.2, h'.2.2⟩⟩

theorem firm_append_iff (h : Unmarked x) : Firm (x ++ t) ↔ Firm t := by
  simp [Firm, h.1, h.2.1, List.count_eq_zero_of_not_mem h.2.2]

def isCore (c : UInt8) : Bool := c ≠ minus ∧ c ≠ plus

theorem padVersion_eq (token : Bytes) : padVersion token =
    token.takeWhile isCore ++ (List.replicate (2 - (token.takeWhile isCore).count dot)
      (ascii ".0")).flatten ++ token.dropWhile isCore := by
  have hcore : isCore = fun c ↦ decide (c ≠ minus ∧ c ≠ plus) := rfl
  simp only [padVersion, ← hcore]
  split_ifs with h
  · rw [Nat.sub_eq_zero_of_le h]
    simp
  · rfl

theorem isCore_of_mem (hm : minus ∉ t) (hp : plus ∉ t) : ∀ c ∈ t, isCore c = true := by
  intro c hc
  have hm' : c ≠ minus := fun h ↦ hm (h ▸ hc)
  have hp' : c ≠ plus := fun h ↦ hp (h ▸ hc)
  simp [isCore, hm', hp']

theorem padVersion_append_of_firm (h : Firm t) (x : Bytes) :
    padVersion (t ++ x) = padVersion t ++ x := by
  by_cases hcore : ∀ c ∈ t, isCore c = true
  · have hm : minus ∉ t := fun hc ↦ absurd (hcore _ hc) (by decide)
    have hp : plus ∉ t := fun hc ↦ absurd (hcore _ hc) (by decide)
    have hdots : 2 ≤ t.count dot := by simpa [Firm, hm, hp] using h
    rw [padVersion_eq, padVersion_eq t, List.takeWhile_append_of_pos hcore,
      List.dropWhile_append_of_pos hcore, List.takeWhile_eq_self_iff.mpr hcore,
      List.dropWhile_eq_nil_iff.mpr hcore, List.count_append, Nat.sub_eq_zero_of_le hdots,
      Nat.sub_eq_zero_of_le (hdots.trans (Nat.le_add_right _ _))]
    simp
  · obtain ⟨front, c, rest, rfl, hfront, hc⟩ := exists_first hcore
    have hassoc : front ++ c :: rest ++ x = front ++ c :: (rest ++ x) := by simp
    rw [padVersion_eq, padVersion_eq (front ++ c :: rest), hassoc, (takeWhile_first hfront hc).1,
      (takeWhile_first hfront hc).1, (takeWhile_first hfront hc).2, (takeWhile_first hfront hc).2]
    simp

theorem padVersion_append_of_not_firm (h : ¬Firm t) (x : Bytes) :
    ∃ zeros, padVersion (t ++ x) = t ++ x.takeWhile isCore ++ zeros ++ x.dropWhile isCore ∧
      (Unmarked x → dot ∈ zeros) := by
  rw [Firm, not_or, not_or] at h
  obtain ⟨hm, hp, hdots⟩ := h
  have hcore := isCore_of_mem hm hp
  refine ⟨(List.replicate (2 - (t ++ x.takeWhile isCore).count dot) (ascii ".0")).flatten, ?_,
    fun hx ↦ ?_⟩
  · rw [padVersion_eq, List.takeWhile_append_of_pos hcore, List.dropWhile_append_of_pos hcore]
  · rw [List.takeWhile_eq_self_iff.mpr (isCore_of_mem hx.1 hx.2.1), List.count_append,
      List.count_eq_zero_of_not_mem hx.2.2]
    obtain ⟨n, hn⟩ := Nat.exists_eq_add_of_lt (Nat.not_le.mp hdots)
    have hpads : 2 - (t.count dot + 0) = n + 1 := by omega
    rw [hpads, List.replicate_succ]
    simp [ascii, charByte]

theorem parse_padVersion_tabs (ht : Tight t) (hb : Blank b) (htab : 9 ∈ b) :
    Version.parse (padVersion (t ++ b)) =
      if Firm t then Version.parse (padVersion t) else none := by
  split_ifs with hfirm
  · rw [padVersion_append_of_firm hfirm, Version.parse_append_blank hb]
  · obtain ⟨zeros, hpad, hdot⟩ := padVersion_append_of_not_firm hfirm b
    obtain ⟨before, after, rfl⟩ := List.append_of_mem htab
    have hcore := isCore_of_mem hb.unmarked.1 hb.unmarked.2.1
    have hzeros : ¬Blank (after ++ zeros) := by
      intro hblank
      have hdot' := hblank dot (List.mem_append_right _ (hdot hb.unmarked))
      exact absurd hdot' (by decide)
    have hfront : ¬Blank (t ++ before) := fun hblank ↦
      ht.not_blank fun c hc ↦ hblank c (List.mem_append_left _ hc)
    rw [hpad, List.takeWhile_eq_self_iff.mpr hcore, List.dropWhile_eq_nil_iff.mpr hcore]
    have hsplit : t ++ (before ++ 9 :: after) ++ zeros ++ [] =
        t ++ before ++ 9 :: (after ++ zeros) := by simp
    rw [hsplit]
    exact Version.parse_tab hfront hzeros

theorem mem_padVersion {c : UInt8} (hc : c ∈ t) : c ∈ padVersion t := by
  rw [← List.takeWhile_append_dropWhile (p := isCore) (l := t), List.mem_append] at hc
  simp only [padVersion_eq, List.mem_append]
  exact hc.imp_left .inl

theorem parse_padVersion_inner (ht : Tight t) (hb : Blank b) (htab : 9 ∈ b) (hx : ¬Blank x) :
    Version.parse (padVersion (t ++ (b ++ x))) = none := by
  have hcore := isCore_of_mem hb.unmarked.1 hb.unmarked.2.1
  obtain ⟨before, after, rfl⟩ := List.append_of_mem htab
  by_cases hfirm : Firm t
  · have hfront : ¬Blank (padVersion t ++ before) := fun hblank ↦
      ht.not_blank fun c hc ↦ hblank c (List.mem_append_left _ (mem_padVersion hc))
    have hback : ¬Blank (after ++ x) := fun hblank ↦
      hx fun c hc ↦ hblank c (List.mem_append_right _ hc)
    have hparse := Version.parse_tab hfront hback
    rw [padVersion_append_of_firm hfirm]
    simpa using hparse
  · obtain ⟨zeros, hpad, -⟩ := padVersion_append_of_not_firm hfirm (before ++ 9 :: after ++ x)
    rw [List.takeWhile_append_of_pos hcore, List.dropWhile_append_of_pos hcore] at hpad
    have hfront : ¬Blank (t ++ before) := fun hblank ↦
      ht.not_blank fun c hc ↦ hblank c (List.mem_append_left _ hc)
    have hback : ¬Blank (after ++ x.takeWhile isCore ++ zeros ++ x.dropWhile isCore) := by
      intro hblank
      refine hx fun c hc ↦ hblank c ?_
      rw [← List.takeWhile_append_dropWhile (p := isCore) (l := x), List.mem_append] at hc
      simp only [List.mem_append]
      tauto
    have hparse := Version.parse_tab hfront hback
    rw [hpad]
    simpa using hparse

/-- What stands behind the last space. -/
def lastWord (text : Bytes) : Bytes := text.rtakeWhile (· ≠ 32)

theorem ne_space {c : UInt8} (h : isBlank c = false) : c ≠ 32 := by
  rintro rfl
  exact absurd h (by decide)

theorem tab_of_blank {c : UInt8} (h : isBlank c = true) (hne : c ≠ 32) : c = 9 := by
  simpa [isBlank, hne] using h

theorem spaceless (h : 32 ∉ t) : ∀ c ∈ t, decide (c ≠ 32) = true := by
  intro c hc
  simpa using fun heq : c = 32 ↦ h (heq ▸ hc)

theorem lastWord_eq_self (h : 32 ∉ t) : lastWord t = t := by
  rw [lastWord, List.rtakeWhile_eq_self_iff]
  exact spaceless h

theorem lastWord_cons (x t : Bytes) : lastWord (x ++ 32 :: t) = lastWord t := by
  rw [lastWord, lastWord, List.rtakeWhile, List.rtakeWhile, List.reverse_append,
    List.reverse_cons, List.append_assoc, List.takeWhile_append]
  split_ifs with hall
  · rw [(List.takeWhile_prefix _).eq_of_length hall]
    simp
  · rfl

theorem exists_lastWord_append (x t : Bytes) :
    ∃ z, lastWord (x ++ t) = z ++ lastWord t ∧ ∀ c ∈ z, c ∈ x := by
  rw [lastWord, lastWord, List.rtakeWhile, List.rtakeWhile, List.reverse_append,
    List.takeWhile_append]
  split_ifs with hall
  · refine ⟨x.rtakeWhile (· ≠ 32), ?_, fun c hc ↦ (List.rtakeWhile_suffix _ x).subset hc⟩
    rw [(List.takeWhile_prefix _).eq_of_length hall, List.reverse_append, List.reverse_reverse]
    rfl
  · exact ⟨[], rfl, by simp⟩

theorem firm_lastWord (h : Unmarked x) (t : Bytes) : Firm (lastWord (x ++ t)) ↔ Firm (lastWord t) := by
  obtain ⟨z, heq, hz⟩ := exists_lastWord_append x t
  have hunmarked : Unmarked z := ⟨fun hc ↦ h.1 (hz _ hc), fun hc ↦ h.2.1 (hz _ hc), fun hc ↦ h.2.2 (hz _ hc)⟩
  rw [heq, firm_append_iff hunmarked]

namespace VersionRange

theorem takeOp_cons (c : UInt8) (rest : Bytes) : takeOp (c :: rest) =
    if c = 62 then if rest.head? = some 61 then (.gte, rest.tail) else (.gt, rest)
    else if c = 60 then if rest.head? = some 61 then (.lte, rest.tail) else (.lt, rest)
    else if c = 61 then (.eq, rest)
    else if c = 94 then (.caret, rest)
    else if c = 126 then (.tilde, rest)
    else (.eq, c :: rest) := by
  have htwo : ∀ d : UInt8, [d, 61].isPrefixOf (c :: rest) = true ↔
      c = d ∧ rest.head? = some 61 := by
    intro d
    rcases rest with _ | ⟨e, rest⟩
    · simp [List.isPrefixOf]
    · simp [List.isPrefixOf, eq_comm (a := d), eq_comm (a := (61 : UInt8))]
  have hone : ∀ d : UInt8, [d].isPrefixOf (c :: rest) = true ↔ c = d := by
    intro d
    simp [List.isPrefixOf, eq_comm (a := d)]
  have hgte : ascii ">=" = [62, 61] := rfl
  have hlte : ascii "<=" = [60, 61] := rfl
  have hgt : ascii ">" = [62] := rfl
  have hlt : ascii "<" = [60] := rfl
  have heq : ascii "=" = [61] := rfl
  have hcaret : ascii "^" = [94] := rfl
  have htilde : ascii "~" = [126] := rfl
  simp only [takeOp, hgte, hlte, hgt, hlt, heq, hcaret, htilde, htwo, hone]
  split_ifs <;> simp_all

theorem takeOp_append (h : (takeOp t).2 ≠ []) :
    ∃ sign, t = sign ++ (takeOp t).2 ∧ Unmarked sign ∧
      ∀ x, takeOp (t ++ x) = ((takeOp t).1, (takeOp t).2 ++ x) := by
  rcases t with _ | ⟨c, rest⟩
  · exact absurd rfl h
  by_cases hangle : c = 62 ∨ c = 60
  · rcases rest with _ | ⟨d, rest⟩
    · rcases hangle with rfl | rfl <;> exact absurd rfl h
    by_cases hd : d = 61
    · refine ⟨[c, d], ?_⟩
      rcases hangle with rfl | rfl <;> simp [takeOp_cons, hd] <;> decide
    · refine ⟨[c], ?_⟩
      rcases hangle with rfl | rfl <;> simp [takeOp_cons, hd] <;> decide
  · rw [not_or] at hangle
    by_cases hsign : c = 61 ∨ c = 94 ∨ c = 126
    · refine ⟨[c], ?_⟩
      rcases hsign with rfl | rfl | rfl <;> simp [takeOp_cons] <;> decide
    · rw [not_or, not_or] at hsign
      exact ⟨[], by simp [takeOp_cons, hangle, hsign, Unmarked]⟩

def clausesOf (rest : Bytes) : Option (List Clause) := parseClauses (rest.length + 1) rest

def round (op : RangeOp) (operand : Bytes) : Option (List Clause) := do
  let version ← Version.parse (padVersion (operand.takeWhile (· ≠ 32)))
  let clauses ← clausesOf (operand.dropWhile (· ≠ 32))
  pure (⟨op, version⟩ :: clauses)

theorem token_ne_nil (ht : Tight t) : t.takeWhile (· ≠ 32) ≠ [] := by
  obtain ⟨c, rest, rfl, hc⟩ := ht.head
  simp [ne_space hc]

theorem token_not_blank (ht : Tight t) : ¬Blank (t.takeWhile (· ≠ 32)) := by
  obtain ⟨c, rest, rfl, hc⟩ := ht.head
  intro hblank
  rw [hblank c (by simp [ne_space hc])] at hc
  cases hc

theorem clausesOf_tight (hb : Blank b) (ht : Tight t) (hb' : Blank b') :
    clausesOf (b ++ t ++ b') =
      if trim (takeOp t).2 = [] then none else round (takeOp t).1 (trim (takeOp t).2) := by
  rw [clausesOf, parseClauses, trim_tight hb ht hb', if_neg ht.ne_nil]
  by_cases hnil : trim (takeOp t).2 = []
  · simp [hnil]
  · have htoken := token_ne_nil (tight_trim hnil)
    have hlength := congrArg List.length
      (List.takeWhile_append_dropWhile (p := (· ≠ 32)) (l := trim (takeOp t).2))
    have hpos := List.length_pos_iff.mpr htoken
    have h₁ := trim_length_le (takeOp t).2
    have h₂ := takeOp_length_le t
    rw [List.length_append] at hlength
    have hbound : parseClauses (b ++ t ++ b').length ((trim (takeOp t).2).dropWhile (· ≠ 32)) =
        clausesOf ((trim (takeOp t).2).dropWhile (· ≠ 32)) := by
      apply parseClauses_bound
      · simp only [List.length_append]
        omega
      · omega
    dsimp only
    rw [if_neg htoken, if_neg hnil, hbound]
    rfl

theorem clausesOf_lead (hb : Blank b) (ht : Tight t) : clausesOf (b ++ t) = clausesOf t := by
  have hnone : Blank [] := by simp [Blank]
  have hlead := clausesOf_tight hb ht hnone
  have halone := clausesOf_tight hnone ht hnone
  simp only [List.append_nil, List.nil_append] at hlead halone
  rw [hlead, halone]

theorem exists_operand {clauses : List Clause} (ht : Tight t) (h : clausesOf t = some clauses) :
    ∃ sign op operand, t = sign ++ operand ∧ Unmarked sign ∧ Tight operand ∧
      round op operand = some clauses ∧
      ∀ x t', Tight t' → clausesOf (t ++ x ++ t') = round op (operand ++ x ++ t') := by
  have hnone : Blank [] := by simp [Blank]
  have halone := clausesOf_tight hnone ht hnone
  rw [List.append_nil, List.nil_append, h] at halone
  split_ifs at halone with hnil
  have hblank : ¬Blank (takeOp t).2 := fun hblank ↦ hnil (trim_blank hblank)
  have hafter : (takeOp t).2 ≠ [] := by
    intro heq
    exact hblank (heq ▸ hnone)
  obtain ⟨sign, hsign, hunmarked, happend⟩ := takeOp_append hafter
  obtain ⟨b, operand, b', hsplit, hb, hoperand, hb'⟩ := exists_tight hblank
  obtain rfl : b' = [] := by
    rw [hsign, hsplit, ← List.append_assoc] at ht
    exact ht.eq_nil_of_append hb'
  rw [List.append_nil] at hsplit
  have htrim : trim (takeOp t).2 = operand := by
    have htight := trim_tight hb hoperand hnone
    rwa [List.append_nil, ← hsplit] at htight
  refine ⟨sign ++ b, (takeOp t).1, operand, ?_, hunmarked.append hb.unmarked, hoperand, ?_, ?_⟩
  · rw [List.append_assoc, ← hsplit]
    exact hsign
  · rw [← htrim]
    exact halone.symm
  · intro x t' ht'
    have hop : takeOp (t ++ x ++ t') = ((takeOp t).1, b ++ (operand ++ x ++ t') ++ []) := by
      rw [List.append_assoc, happend, hsplit]
      simp
    have hjoined := clausesOf_tight hnone (ht.append ht' x) hnone
    rw [List.append_nil, List.nil_append, hop, trim_tight hb (hoperand.append ht' x) hnone,
      if_neg (hoperand.append ht' x).ne_nil] at hjoined
    exact hjoined

theorem takeWhile_space {token rest : Bytes} (h : 32 ∉ token) :
    (token ++ 32 :: rest).takeWhile (· ≠ 32) = token ∧
      (token ++ 32 :: rest).dropWhile (· ≠ 32) = 32 :: rest := by
  apply takeWhile_first
  · exact spaceless h
  · rfl

theorem round_space {op : RangeOp} {token rest : Bytes} (h : 32 ∉ token) :
    round op (token ++ 32 :: rest) = (Version.parse (padVersion token)).bind fun version ↦
      (clausesOf (32 :: rest)).map (⟨op, version⟩ :: ·) := by
  rw [round, (takeWhile_space h).1, (takeWhile_space h).2]
  simp only [Option.bind_eq_bind, Option.pure_def, Option.map_eq_bind]
  rfl

theorem round_last {op : RangeOp} (h : 32 ∉ t) :
    round op t = (Version.parse (padVersion t)).map fun version ↦ [⟨op, version⟩] := by
  have hnone : clausesOf [] = some [] := rfl
  rw [round, List.takeWhile_eq_self_iff.mpr (spaceless h),
    List.dropWhile_eq_nil_iff.mpr (spaceless h), hnone]
  cases Version.parse (padVersion t) <;> rfl

theorem round_join_space {op : RangeOp} {version : Version} {tabs rest : Bytes}
    {clauses : List Clause} (ht : Tight t) (h : 32 ∉ t)
    (hversion : Version.parse (padVersion t) = some version) (hw : Blank (tabs ++ 32 :: rest))
    (htabs : 32 ∉ tabs) (ht' : Tight t') (hnext : clausesOf t' = some clauses) :
    round op (t ++ (tabs ++ 32 :: rest) ++ t') =
      if (tabs ++ 32 :: rest).head? = some 32 ∨ Firm t then some (⟨op, version⟩ :: clauses)
      else none := by
  have htoken : 32 ∉ t ++ tabs := by
    rw [List.mem_append, not_or]
    exact ⟨h, htabs⟩
  have hrest : Blank (32 :: rest) := fun c hc ↦ hw c (List.mem_append_right _ hc)
  have hsplit : t ++ (tabs ++ 32 :: rest) ++ t' = t ++ tabs ++ 32 :: (rest ++ t') := by simp
  have hlead : clausesOf (32 :: (rest ++ t')) = some clauses := by
    rw [← List.cons_append, clausesOf_lead hrest ht', hnext]
  rw [hsplit, round_space htoken, hlead]
  rcases tabs with _ | ⟨c, tabs⟩
  · simp [hversion]
  · have hblank : Blank (c :: tabs) := fun d hd ↦ hw d (List.mem_append_left _ hd)
    have hc : c = 9 := tab_of_blank (hblank c (by simp)) fun heq ↦ htabs (by simp [heq])
    rw [parse_padVersion_tabs ht hblank (by simp [hc]), hversion]
    by_cases hfirm : Firm t <;> simp [hfirm, hc]

theorem round_join_tabs {op : RangeOp} (ht : Tight t) (h : 32 ∉ t) (hw : Blank w) (hne : w ≠ [])
    (hspace : 32 ∉ w) (ht' : Tight t') : round op (t ++ w ++ t') = none := by
  obtain ⟨c, hc⟩ := List.exists_mem_of_ne_nil w hne
  obtain rfl : c = 9 := tab_of_blank (hw c hc) fun heq ↦ hspace (heq ▸ hc)
  have hall : 32 ∉ t ++ w := by
    rw [List.mem_append, not_or]
    exact ⟨h, hspace⟩
  rw [round, List.takeWhile_append_of_pos (spaceless hall), List.append_assoc,
    parse_padVersion_inner ht hw hc (token_not_blank ht')]
  rfl

theorem round_join {op : RangeOp} {clauses₁ clauses₂ : List Clause} (ht : Tight t) (h : 32 ∉ t)
    (h₁ : round op t = some clauses₁) (hw : Blank w) (hne : w ≠ []) (ht' : Tight t')
    (h₂ : clausesOf t' = some clauses₂) : round op (t ++ w ++ t') =
      if 32 ∈ w ∧ (w.head? = some 32 ∨ Firm t) then some (clauses₁ ++ clauses₂) else none := by
  obtain ⟨version, hversion, rfl⟩ : ∃ version, Version.parse (padVersion t) = some version ∧
      [⟨op, version⟩] = clauses₁ := by
    rw [round_last h] at h₁
    exact Option.map_eq_some_iff.mp h₁
  by_cases hspace : 32 ∈ w
  · obtain ⟨tabs, rest, rfl, htabs⟩ := List.eq_append_cons_of_mem hspace
    rw [round_join_space ht h hversion hw htabs ht' h₂]
    simp only [hspace, true_and]
    rfl
  · rw [round_join_tabs ht h hw hne hspace ht']
    simp [hspace]

theorem exists_next {token rest : Bytes} (h : Tight (token ++ 32 :: rest)) :
    ∃ b next, 32 :: rest = b ++ next ∧ Blank b ∧ Tight next := by
  have hblank : ¬Blank (32 :: rest) := fun hblank ↦
    List.cons_ne_nil 32 rest (h.eq_nil_of_append hblank)
  obtain ⟨b, next, b', hsplit, hb, hnext, hb'⟩ := exists_tight hblank
  obtain rfl : b' = [] := by
    rw [hsplit, ← List.append_assoc] at h
    exact h.eq_nil_of_append hb'
  rw [List.append_nil] at hsplit
  exact ⟨b, next, hsplit, hb, hnext⟩

theorem clausesOf_join {clauses₁ clauses₂ : List Clause} (ht : Tight t)
    (h₁ : clausesOf t = some clauses₁) (hw : Blank w) (hne : w ≠ []) (ht' : Tight t')
    (h₂ : clausesOf t' = some clauses₂) : clausesOf (t ++ w ++ t') =
      if 32 ∈ w ∧ (w.head? = some 32 ∨ Firm (lastWord t)) then some (clauses₁ ++ clauses₂)
      else none := by
  induction hlength : t.length using Nat.strong_induction_on generalizing t clauses₁ with
  | _ n ih =>
    obtain ⟨sign, op, operand, rfl, hsign, hoperand, hround, hjoin⟩ := exists_operand ht h₁
    rw [hjoin w t' ht']
    by_cases hspace : 32 ∈ operand
    · obtain ⟨token, rest, rfl, htoken⟩ := List.eq_append_cons_of_mem hspace
      rw [round_space htoken] at hround
      obtain ⟨version, hversion, hrest⟩ := Option.bind_eq_some_iff.mp hround
      obtain ⟨clauses, hclauses, rfl⟩ := Option.map_eq_some_iff.mp hrest
      obtain ⟨b, next, hsplit, hb, hnext⟩ := exists_next hoperand
      have hlast : Firm (lastWord (sign ++ (token ++ 32 :: rest))) ↔ Firm (lastWord next) := by
        rw [← List.append_assoc, lastWord_cons, ← lastWord_cons [] rest, List.nil_append, hsplit,
          firm_lastWord hb.unmarked]
      have hshort : next.length < n := by
        have hlen := congrArg List.length hsplit
        have htoken' := token_ne_nil hoperand
        rw [(takeWhile_space htoken).1] at htoken'
        have hpos := List.length_pos_iff.mpr htoken'
        simp only [List.length_append, List.length_cons] at hlen hlength
        omega
      rw [hsplit, clausesOf_lead hb hnext] at hclauses
      have hrec := ih next.length hshort hnext hclauses rfl
      have hjoined : token ++ 32 :: rest ++ w ++ t' = token ++ 32 :: (rest ++ w ++ t') := by simp
      have hlead : clausesOf (32 :: (rest ++ w ++ t')) = clausesOf (next ++ w ++ t') := by
        rw [← List.cons_append, ← List.cons_append, hsplit, List.append_assoc, List.append_assoc,
          ← List.append_assoc next]
        exact clausesOf_lead hb (hnext.append ht' w)
      rw [hjoined, round_space htoken, hversion, hlead, hrec]
      simp only [hlast]
      split_ifs <;> rfl
    · have hfirm : Firm (lastWord (sign ++ operand)) ↔ Firm operand := by
        rw [firm_lastWord hsign, lastWord_eq_self hspace]
      rw [round_join hoperand hspace hround hw hne ht' h₂]
      simp only [hfirm]

theorem exists_clauses {range : VersionRange} (h : parse text = some range)
    (hne : range.clauses ≠ []) : ∃ b t b', text = b ++ t ++ b' ∧ Blank b ∧ Tight t ∧ Blank b' ∧
      clausesOf t = some range.clauses := by
  simp only [parse] at h
  split_ifs at h with hany
  · obtain rfl := Option.some.inj h
    exact absurd rfl hne
  · rw [not_or] at hany
    have hblank : ¬Blank text := fun hblank ↦ hany.1 (trim_blank hblank)
    obtain ⟨b, t, b', rfl, hb, ht, hb'⟩ := exists_tight hblank
    rw [trim_tight hb ht hb'] at h
    obtain ⟨clauses, hclauses, rfl⟩ := Option.map_eq_some_iff.mp h
    exact ⟨b, t, b', rfl, hb, ht, hb', hclauses⟩

theorem parse_inner_blank {c : UInt8} (hb : Blank b) (ht : Tight t) (hb' : Blank b') (hc : c ∈ t)
    (hblank : isBlank c = true) :
    parse (b ++ t ++ b') = (clausesOf t).map fun clauses ↦ { clauses, text := t } := by
  have hword : ∀ word : Bytes, (∀ d ∈ word, isBlank d = false) → t ≠ word := by
    rintro word hword rfl
    rw [hword c hc] at hblank
    cases hblank
  have hany : ¬(t = [] ∨ t = ascii "*" ∨ t = ascii "any") := by
    rw [not_or, not_or]
    exact ⟨ht.ne_nil, hword _ (by decide +kernel), hword _ (by decide +kernel)⟩
  simp only [parse, trim_tight hb ht hb', if_neg hany]
  rfl

def gap (r₁ b r₂ : Bytes) : Bytes := r₁.rtakeWhile isBlank ++ b ++ r₂.takeWhile isBlank

/-- The text is read as the comparators of both ranges, one after the other, and as no more. -/
def Composes (text : Bytes) (range₁ range₂ : VersionRange) : Prop :=
  ∃ range, parse text = some range ∧ range.clauses = range₁.clauses ++ range₂.clauses ∧
    ∀ v, range.satisfiedBy v = true ↔
      (v.isPrerelease = true → range₁.invites v = true ∨ range₂.invites v = true) ∧
        (∀ clause ∈ range₁.clauses, Clause.admits clause v = true) ∧
          ∀ clause ∈ range₂.clauses, Clause.admits clause v = true

theorem satisfiedBy_append {range range₁ range₂ : VersionRange} {v : Version}
    (h : range.clauses = range₁.clauses ++ range₂.clauses) (hne : range₁.clauses ≠ []) :
    range.satisfiedBy v = true ↔
      (v.isPrerelease = true → range₁.invites v = true ∨ range₂.invites v = true) ∧
        (∀ clause ∈ range₁.clauses, Clause.admits clause v = true) ∧
          ∀ clause ∈ range₂.clauses, Clause.admits clause v = true := by
  have hinvites : range.invites v = (range₁.invites v || range₂.invites v) := by
    rw [invites, h, List.any_append]
    rfl
  have hclauses : range.clauses ≠ [] := by simp [h, hne]
  rw [satisfiedBy, if_neg hclauses, hinvites, h, List.all_append]
  cases v.isPrerelease <;> cases range₁.invites v <;> cases range₂.invites v <;> simp

theorem composes_of_clausesOf {range₁ range₂ : VersionRange} {c : UInt8} (hb : Blank b)
    (ht : Tight t) (hb' : Blank b') (hc : c ∈ t) (hblank : isBlank c = true)
    (hne : range₁.clauses ≠ []) : Composes (b ++ t ++ b') range₁ range₂ ↔
      clausesOf t = some (range₁.clauses ++ range₂.clauses) := by
  rw [Composes, parse_inner_blank hb ht hb' hc hblank]
  constructor
  · intro ⟨range, hrange, hclauses, _⟩
    obtain ⟨clauses, hparse, rfl⟩ := Option.map_eq_some_iff.mp hrange
    rw [hparse]
    exact congrArg some hclauses
  · intro h
    exact ⟨⟨_, t⟩, by rw [h]; rfl, rfl, fun v ↦ satisfiedBy_append rfl hne⟩

/-- Two ranges can be put side by side, with blanks between them, exactly when there is a space
among the blanks and no tab stands between an operand to be padded and the first space. -/
theorem composes_iff {r₁ r₂ b : Bytes} {range₁ range₂ : VersionRange}
    (h₁ : parse r₁ = some range₁) (h₂ : parse r₂ = some range₂) (hne₁ : range₁.clauses ≠ [])
    (hne₂ : range₂.clauses ≠ []) (hb : Blank b) (hnil : b ≠ []) :
    Composes (r₁ ++ b ++ r₂) range₁ range₂ ↔
      32 ∈ gap r₁ b r₂ ∧ ((gap r₁ b r₂).head? = some 32 ∨ Firm (lastWord (trim r₁))) := by
  obtain ⟨b₁, t₁, b₁', rfl, hb₁, ht₁, hb₁', hclauses₁⟩ := exists_clauses h₁ hne₁
  obtain ⟨b₂, t₂, b₂', rfl, hb₂, ht₂, hb₂', hclauses₂⟩ := exists_clauses h₂ hne₂
  have hgap : gap (b₁ ++ t₁ ++ b₁') b (b₂ ++ t₂ ++ b₂') = b₁' ++ b ++ b₂ := by
    obtain ⟨c, rest, rfl, hc⟩ := ht₂.head
    rw [gap, rtakeWhile_tight ht₁ hb₁', List.append_assoc b₂, List.cons_append,
      (takeWhile_first hb₂ hc).1]
  have hw : Blank (b₁' ++ b ++ b₂) := (hb₁'.append hb).append hb₂
  have hne : b₁' ++ b ++ b₂ ≠ [] := by simp [hnil]
  have hsplit : b₁ ++ t₁ ++ b₁' ++ b ++ (b₂ ++ t₂ ++ b₂') =
      b₁ ++ (t₁ ++ (b₁' ++ b ++ b₂) ++ t₂) ++ b₂' := by simp
  obtain ⟨c, hc⟩ := List.exists_mem_of_ne_nil b hnil
  have hinner : c ∈ t₁ ++ (b₁' ++ b ++ b₂) ++ t₂ := by simp [hc]
  rw [hgap, trim_tight hb₁ ht₁ hb₁', hsplit,
    composes_of_clausesOf hb₁ (ht₁.append ht₂ _) hb₂' hinner (hb c hc) hne₁,
    clausesOf_join ht₁ hclauses₁ hw hne ht₂ hclauses₂]
  split_ifs with h
  · exact iff_of_true rfl h
  · exact iff_of_false (by simp) h

theorem bounds_compose : ∃ range₁ range₂, parse (ascii "^1.2.3\t") = some range₁ ∧
    parse (ascii " <2") = some range₂ ∧
      Composes (ascii "^1.2.3\t" ++ [32] ++ ascii " <2") range₁ range₂ := by
  have h₁ : parse (ascii "^1.2.3\t") = some ⟨[⟨.caret, { major := 1, minor := 2, patch := 3 }⟩],
      ascii "^1.2.3"⟩ := by decide +kernel
  have h₂ : parse (ascii " <2") = some ⟨[⟨.lt, { major := 2 }⟩], ascii "<2"⟩ := by decide +kernel
  refine ⟨_, _, h₁, h₂, (composes_iff h₁ h₂ (List.cons_ne_nil _ _) (List.cons_ne_nil _ _) ?_
    (by decide)).mpr (by decide +kernel)⟩
  simp [Blank, isBlank]

/-- The zeros of `^1` are put behind the tab. -/
theorem tab_not_composed : ∃ range₁ range₂, parse (ascii "^1\t") = some range₁ ∧
    parse (ascii "<2") = some range₂ ∧ range₁.clauses ≠ [] ∧ range₂.clauses ≠ [] ∧
      parse (ascii "^1\t" ++ [32] ++ ascii "<2") = none := by
  refine ⟨⟨[⟨.caret, { major := 1 }⟩], ascii "^1"⟩, ⟨[⟨.lt, { major := 2 }⟩], ascii "<2"⟩, ?_⟩
  decide +kernel

end VersionRange

end SquaredPg
