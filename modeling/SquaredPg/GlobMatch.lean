import SquaredPg.Glob
import SquaredPg.GlobLanguage

namespace SquaredPg

open Ascii Glob

def characterToken (pc : UInt8) : Token UInt8 := if pc = question then .one else .lit pc

/-- A pattern is read from left to right; a slash right behind `**` belongs to it. -/
def tokens : Bytes → List (Token UInt8)
  | [] => []
  | pc :: pattern =>
    if pc = star then
      if pattern.head? = some star then
        if pattern.tail.head? = some slash then .dirs :: tokens pattern.tail.tail
        else .run :: tokens pattern.tail
      else .segment :: tokens pattern
    else characterToken pc :: tokens pattern
termination_by pattern => pattern.length
decreasing_by
  all_goals
    simp only [List.length_cons, List.length_tail]
    omega

variable {pattern path again rest : Bytes} {c pc : UInt8} {mark : Option (Bytes × Bytes)}

theorem tokens_nil : tokens [] = [] := by
  rw [tokens]

theorem tokens_star (h : pattern.head? ≠ some star) :
    tokens (star :: pattern) = .segment :: tokens pattern := by
  rw [tokens, if_pos rfl, if_neg h]

theorem tokens_starStar (h : pattern.head? ≠ some slash) :
    tokens (star :: star :: pattern) = .run :: tokens pattern := by
  rw [tokens, if_pos rfl]
  exact (if_pos rfl).trans (if_neg h)

theorem tokens_dirs : tokens (star :: star :: slash :: pattern) = .dirs :: tokens pattern := by
  rw [tokens, if_pos rfl]
  exact (if_pos rfl).trans (if_pos rfl)

theorem tokens_character (h : pc ≠ star) :
    tokens (pc :: pattern) = characterToken pc :: tokens pattern := by
  rw [tokens, if_neg h]

theorem tokens_slash : tokens (slash :: pattern) = .lit slash :: tokens pattern :=
  tokens_character (by decide)

theorem starred (pattern : Bytes) : (∃ after, pattern = star :: slash :: after) ∨
    (∃ after, pattern = star :: after ∧ after.head? ≠ some slash) ∨ pattern.head? ≠ some star := by
  rcases pattern with _ | ⟨d, after⟩
  · exact .inr (.inr (by simp))
  · by_cases hstar : d = star
    · subst hstar
      by_cases hslash : after.head? = some slash
      · obtain ⟨rest, rfl⟩ := List.head?_eq_some_iff.mp hslash
        exact .inl ⟨rest, rfl⟩
      · exact .inr (.inl ⟨after, rfl, hslash⟩)
    · exact .inr (.inr (by simpa using hstar))

def Takes (pc c : UInt8) : Prop := (pc = question ∧ c ≠ slash) ∨ pc = c

theorem fixed_character : (characterToken pc).fixed = true := by
  unfold characterToken
  split_ifs <;> rfl

theorem takes_question : Takes question c ↔ c ≠ slash := by
  refine ⟨fun h ↦ ?_, fun h ↦ .inl ⟨rfl, h⟩⟩
  rcases h with ⟨-, h⟩ | rfl
  · exact h
  · decide

theorem leftmost_character {ts : List (Token UInt8)} :
    Leftmost slash (characterToken pc :: ts) (c :: path) ↔ Takes pc c ∧ Leftmost slash ts path := by
  unfold characterToken
  split_ifs with h
  · rw [h, takes_question, leftmost_one_cons]
  · simp [Takes, h]

theorem fits_character {ts : List (Token UInt8)} :
    Fits slash (characterToken pc :: ts) (c :: path) ↔ Takes pc c ∧ Fits slash ts path := by
  unfold characterToken
  split_ifs with h
  · rw [h, takes_question]
    exact Iff.rfl
  · simp [Takes, h, Fits]

theorem not_leftmost_character_nil {ts : List (Token UInt8)} :
    ¬Leftmost slash (characterToken pc :: ts) [] := by
  unfold characterToken
  split_ifs <;> simp

theorem leftmost_starStar (hstar : pattern.head? = some star) :
    Leftmost slash (tokens (star :: pattern)) (c :: path) ↔
      (pattern.tail.head? = some slash ∧ Leftmost slash (tokens pattern.tail.tail) (c :: path)) ∨
        Leftmost slash (.run :: tokens pattern.tail) (c :: path) := by
  obtain ⟨after, rfl⟩ := List.head?_eq_some_iff.mp hstar
  rw [List.tail_cons]
  by_cases hslash : after.head? = some slash
  · obtain ⟨rest, rfl⟩ := List.head?_eq_some_iff.mp hslash
    rw [tokens_dirs, leftmost_dirs_cons, tokens_slash, List.tail_cons]
    exact or_congr_left (and_iff_right rfl).symm
  · rw [tokens_starStar hslash]
    exact (or_iff_right fun hboth ↦ hslash hboth.1).symm

theorem leftmost_tokens_nil : Leftmost slash (tokens pattern) [] ↔
    pattern.dropWhile (· = star) = [] := by
  induction hn : pattern.length using Nat.strong_induction_on generalizing pattern with
  | _ n ih =>
    rcases pattern with _ | ⟨pc, pattern⟩
    · simp [tokens]
    rw [List.length_cons] at hn
    by_cases hstar : pc = star
    · subst hstar
      rcases starred pattern with ⟨pattern, rfl⟩ | ⟨pattern, rfl, hslash⟩ | hsegment
      · have hslash : slash ≠ star := by decide
        simp [tokens_dirs, hslash]
      · rw [List.length_cons] at hn
        rw [tokens_starStar hslash, leftmost_run_nil, ih pattern.length (by omega) rfl]
        simp
      · rw [tokens_star hsegment, leftmost_segment_nil, ih pattern.length (by omega) rfl]
        simp
    · simp [tokens_character hstar, not_leftmost_character_nil, hstar]

/-- The loop has come from the beginning of an attempt, behind a `**`, to `pattern` and `path`, and
what is left decides about the attempt. -/
structure Attempt (again rest pattern path : Bytes) : Prop where
  reads : Leftmost slash (tokens again) rest ↔ Leftmost slash (tokens pattern) path
  settled : Settled slash (tokens again) rest ↔ Settled slash (tokens pattern) path
  length : path.length ≤ rest.length
  block : block (tokens again) + path.length = block (tokens pattern) + rest.length

namespace Attempt

theorem start (again rest : Bytes) : Attempt again rest again rest :=
  ⟨Iff.rfl, Iff.rfl, le_rfl, rfl⟩

theorem step (h : Attempt again rest (pc :: pattern) (c :: path)) (hstar : pc ≠ star)
    (htakes : Takes pc c) : Attempt again rest pattern path := by
  obtain ⟨hreads, hsettled, hlength, hblock⟩ := h
  rw [tokens_character hstar] at hreads hsettled hblock
  rw [leftmost_character, and_iff_right htakes] at hreads
  rw [settled_cons_fixed fixed_character (fits_character.trans (and_iff_right htakes))] at hsettled
  rw [List.length_cons] at hlength hblock
  refine ⟨hreads, hsettled, by omega, ?_⟩
  have hcons : Glob.block (characterToken pc :: tokens pattern) =
      Glob.block (tokens pattern) + 1 := by
    simp [Glob.block, fixed_character]
  omega

theorem of_settled (h : Attempt again rest pattern path) (hsettled : Settled slash (tokens pattern) path) :
    Leftmost slash (.run :: tokens again) rest ↔ Leftmost slash (tokens pattern) path := by
  rcases rest with _ | ⟨d, rest⟩
  · rw [leftmost_run_nil, h.reads]
  · rw [leftmost_run_cons, h.reads]
    exact or_iff_left fun hgo ↦ hgo.1 (h.settled.mpr hsettled)

theorem of_nil (h : Attempt again rest pattern []) :
    Leftmost slash (.run :: tokens again) rest ↔ Leftmost slash (tokens pattern) [] := by
  rcases hpattern : tokens pattern with _ | ⟨t, ts⟩
  · have hdone : Leftmost slash (tokens pattern) [] := hpattern ▸ .nil
    rw [← hpattern]
    exact iff_of_true (h.reads.mpr hdone).runEnd hdone
  · cases ht : t.fixed with
    | false =>
      rw [← hpattern]
      exact h.of_settled (hpattern ▸ settled_of_wild ht)
    | true =>
      have hblock := h.block
      have hcons : Glob.block (t :: ts) = Glob.block ts + 1 := by simp [Glob.block, ht]
      rw [hpattern, List.length_nil] at hblock
      refine iff_of_false (fun hrun ↦ ?_) fun hnil ↦ ?_
      · have hle := block_le_of_run hrun
        omega
      · have hle := hnil.fits.block_le
        rw [List.length_nil] at hle
        omega

theorem of_stuck {d : UInt8} {later : Bytes} (h : Attempt again (d :: later) pattern (c :: path))
    (hreads : ¬Leftmost slash (tokens pattern) (c :: path))
    (hsettled : ¬Settled slash (tokens pattern) (c :: path)) :
    Leftmost slash (.run :: tokens again) (d :: later) ↔
      Leftmost slash (.run :: tokens again) later := by
  rw [leftmost_run_cons, h.reads, h.settled]
  simp [hreads, hsettled]

end Attempt

theorem no_mark (pattern : Bytes) :
    ∀ m ∈ (none : Option (Bytes × Bytes)), pattern.length ≤ m.1.length := by
  intro m hm
  cases hm

theorem matchLoop_star (h : ∀ m ∈ mark, (star :: pattern).length ≤ m.1.length) :
    matchLoop (star :: pattern) (c :: path) mark h =
      if pattern.head? = some star then
        (pattern.tail.head? = some slash &&
          matchLoop pattern.tail.tail (c :: path) none (no_mark _)) ||
        matchLoop pattern.tail (c :: path) (some (pattern.tail, c :: path)) (mark_self _ _)
      else
        matchLoop pattern (c :: path) none (no_mark _) ||
          (c ≠ slash && matchLoop (star :: pattern) path mark h) := by
  rw [matchLoop.eq_def]
  exact if_pos rfl

theorem matchLoop_takes (h : ∀ m ∈ mark, (pc :: pattern).length ≤ m.1.length) (hstar : pc ≠ star)
    (htakes : Takes pc c) : matchLoop (pc :: pattern) (c :: path) mark h =
      matchLoop pattern path mark fun m hm ↦ (Nat.le_succ _).trans (h m hm) := by
  rw [matchLoop.eq_def]
  exact (if_neg hstar).trans (if_pos htakes)

theorem settled_star : Settled slash (tokens (star :: pattern)) path := by
  rcases starred pattern with ⟨pattern, rfl⟩ | ⟨pattern, rfl, hslash⟩ | hsegment
  · rw [tokens_dirs]
    exact settled_of_wild rfl
  · rw [tokens_starStar hslash]
    exact settled_of_wild rfl
  · rw [tokens_star hsegment]
    exact settled_of_wild rfl

/-- What the loop decides: about the path, or about the whole attempt if it may start over. -/
theorem matchLoop_spec (pattern path : Bytes) (mark : Option (Bytes × Bytes))
    (h : ∀ m ∈ mark, pattern.length ≤ m.1.length) :
    (mark = none ∨ pattern.head? = some star →
      (matchLoop pattern path mark h = true ↔ Leftmost slash (tokens pattern) path)) ∧
    ∀ again rest, mark = some (again, rest) → Attempt again rest pattern path →
      (matchLoop pattern path mark h = true ↔ Leftmost slash (.run :: tokens again) rest) := by
  induction pattern, path, mark, h using matchLoop.induct with
  | case1 mark pattern h =>
    have hnil : matchLoop pattern [] mark h = true ↔ Leftmost slash (tokens pattern) [] := by
      rw [matchLoop, decide_eq_true_iff, leftmost_tokens_nil]
    refine ⟨fun _ ↦ hnil, fun again rest _ hattempt ↦ ?_⟩
    rw [hattempt.of_nil, hnil]
  | case2 c path again d later h _ ih =>
    refine ⟨fun hmark ↦ by simp at hmark, fun again' rest hmark hattempt ↦ ?_⟩
    obtain ⟨rfl, rfl⟩ : again = again' ∧ d :: later = rest := by simpa using hmark
    have hreads : ¬Leftmost slash (tokens []) (c :: path) := by simp [tokens_nil]
    have hsettled : ¬Settled slash (tokens []) (c :: path) := not_settled (by simp [tokens_nil])
    rw [matchLoop, hattempt.of_stuck hreads hsettled]
    exact ih.2 _ _ rfl (.start _ _)
  | case3 mark c path h hno _ =>
    rcases mark with _ | ⟨again, _ | ⟨d, later⟩⟩
    · refine ⟨fun _ ↦ ?_, fun _ _ hmark ↦ by cases hmark⟩
      simp [matchLoop, tokens_nil]
    · refine ⟨fun hmark ↦ by simp at hmark, fun again' rest hmark hattempt ↦ ?_⟩
      obtain ⟨rfl, rfl⟩ : again = again' ∧ [] = rest := by simpa using hmark
      exact absurd hattempt.length (by simp)
    · exact (hno again d later h rfl HEq.rfl).elim
  | case4 c path pattern mark hstar h _ ihDirs ihRun =>
    have hdirs := ihDirs.1 (.inl rfl)
    have hrun := ihRun.2 _ _ rfl (.start _ _)
    have hvalue : matchLoop (star :: pattern) (c :: path) mark h = true ↔
        Leftmost slash (tokens (star :: pattern)) (c :: path) := by
      rw [matchLoop_star, if_pos hstar, Bool.or_eq_true, Bool.and_eq_true, decide_eq_true_iff, hdirs,
        hrun, leftmost_starStar hstar]
    refine ⟨fun _ ↦ hvalue, fun again rest _ hattempt ↦ ?_⟩
    rw [hattempt.of_settled settled_star, hvalue]
  | case5 c path pattern mark hstar h _ ihEnd ihOn =>
    have hvalue : matchLoop (star :: pattern) (c :: path) mark h = true ↔
        Leftmost slash (tokens (star :: pattern)) (c :: path) := by
      have hend := ihEnd.1 (.inl rfl)
      have hon := ihOn.1 (.inr rfl)
      rw [matchLoop_star, if_neg hstar, Bool.or_eq_true, Bool.and_eq_true, decide_eq_true_iff, hend,
        hon, tokens_star hstar, leftmost_segment_cons]
    refine ⟨fun _ ↦ hvalue, fun again rest _ hattempt ↦ ?_⟩
    rw [hattempt.of_settled settled_star, hvalue]
  | case6 c path pc pattern mark h hstar htakes _ ih =>
    rw [matchLoop_takes h hstar htakes]
    refine ⟨fun hmark ↦ ?_, fun again rest hmark hattempt ↦ ?_⟩
    · have hnone := hmark.resolve_right (by simpa using hstar)
      rw [ih.1 (.inl hnone), tokens_character hstar, leftmost_character]
      exact (and_iff_right htakes).symm
    · exact ih.2 again rest hmark (hattempt.step hstar htakes)
  | case7 c path pc pattern hstar htakes again d later h _ ih =>
    refine ⟨fun hmark ↦ by simp [hstar] at hmark, fun again' rest hmark hattempt ↦ ?_⟩
    obtain ⟨rfl, rfl⟩ : again = again' ∧ d :: later = rest := by simpa using hmark
    have hfits : ¬Fits slash (tokens (pc :: pattern)) (c :: path) := by
      rw [tokens_character hstar, fits_character]
      exact fun hfits ↦ htakes hfits.1
    have hlater := hattempt.of_stuck (fun hreads ↦ hfits hreads.fits) fun hsettled ↦ hfits hsettled.2
    rw [matchLoop, if_neg hstar, if_neg htakes, hlater]
    exact ih.2 _ _ rfl (.start _ _)
  | case8 c path pc pattern mark hstar htakes h hno _ =>
    rcases mark with _ | ⟨again, _ | ⟨d, later⟩⟩
    · refine ⟨fun _ ↦ ?_, fun _ _ hmark ↦ by cases hmark⟩
      rw [matchLoop, if_neg hstar, if_neg htakes, tokens_character hstar, leftmost_character]
      · exact iff_of_false Bool.false_ne_true fun hreads ↦ htakes hreads.1
      · exact hno
    · refine ⟨fun hmark ↦ by simp [hstar] at hmark, fun again' rest hmark hattempt ↦ ?_⟩
      obtain ⟨rfl, rfl⟩ : again = again' ∧ [] = rest := by simpa using hmark
      exact absurd hattempt.length (by simp)
    · exact (hno again d later h rfl HEq.rfl).elim

theorem matchHere_iff_leftmost :
    matchHere pattern path = true ↔ Leftmost slash (tokens pattern) path :=
  (matchLoop_spec pattern path none (no_mark _)).1 (.inl rfl)

/-- `match_here` agrees with the language of its patterns where every path of the language has a
leftmost reading. -/
theorem matchHere_agrees_iff (pattern path : Bytes) :
    (matchHere pattern path = true ↔ InLanguage slash (tokens pattern) path) ↔
      (InLanguage slash (tokens pattern) path → Leftmost slash (tokens pattern) path) := by
  rw [matchHere_iff_leftmost]
  exact ⟨Iff.mpr, fun h ↦ ⟨Leftmost.inLanguage, h⟩⟩

/-- The `*` behind `**/` is tried in the first directory only, because its failure at a slash ends
the whole search. -/
theorem nested_not_matched : ¬(matchHere (ascii "**/*.c") (ascii "a/b/c.c") = true ↔
    InLanguage slash (tokens (ascii "**/*.c")) (ascii "a/b/c.c")) := by
  have htokens : tokens (ascii "**/*.c") = [.dirs, .segment, .lit 46, .lit 99] := by
    simp [ascii, charByte, tokens, characterToken, Ascii.star, slash, question]
  have hmatch : matchHere (ascii "**/*.c") (ascii "a/b/c.c") = false := by
    simp [matchHere, matchLoop, ascii, charByte, Ascii.star, slash, question]
  have hlanguage : InLanguage slash (tokens (ascii "**/*.c")) (ascii "a/b/c.c") := by
    rw [htokens]
    refine .inr ⟨ascii "a/b", ascii "c.c", rfl, ascii "c", ascii ".c", rfl, ?_, _, rfl, _, rfl, rfl⟩
    decide
  rw [hmatch]
  simp [hlanguage]

theorem matchHere_iff_of_tame (h : Tame (tokens pattern)) :
    matchHere pattern path = true ↔ InLanguage slash (tokens pattern) path :=
  matchHere_iff_leftmost.trans h.leftmost_iff

theorem matchHere_starStar : matchHere (ascii "**") path = true := by
  have htokens : tokens (ascii "**") = [.run] := by
    simp [ascii, charByte, tokens]
  rw [matchHere_iff_leftmost, htokens]
  induction path with
  | nil => exact .runEnd .nil
  | cons c path ih => exact ih.run (not_settled (by simp))

theorem matchHere_star : matchHere (ascii "*") path = true ↔ slash ∉ path := by
  have htokens : tokens (ascii "*") = [.segment] := by
    simp [ascii, charByte, tokens]
  rw [matchHere_iff_leftmost, htokens]
  induction path with
  | nil => simp
  | cons c path ih =>
    have hrest : Leftmost slash [.segment] path ↔ slash ∉ path := ih
    rw [leftmost_segment_cons, hrest, leftmost_nil, List.mem_cons, not_or, ne_comm]
    exact or_iff_right (List.cons_ne_nil c path)

theorem names_directory_iff : ((ascii "/**").isSuffixOf pattern = true ∧
    path = pattern.take (pattern.length - 3)) ↔ pattern = path ++ ascii "/**" := by
  have hlength : (ascii "/**").length = 3 := rfl
  rw [List.isSuffixOf_iff_suffix, List.suffix_iff_eq_append, hlength]
  constructor
  · rintro ⟨hsuffix, rfl⟩
    exact hsuffix.symm
  · rintro rfl
    simp [hlength]

/-- `glob_match` is `match_here`, and a pattern for all that is in a directory matches the
directory, but for the shortcut that lets `*` match every path. -/
theorem globMatch_shortcut_iff (hpattern : pattern ≠ []) :
    (globMatch pattern path = true ↔
        matchHere pattern path = true ∨ pattern = path ++ ascii "/**") ↔
      ¬(pattern = ascii "*" ∧ slash ∈ path) := by
  by_cases hall : pattern = ascii "**"
  · subst hall
    have hglob : globMatch (ascii "**") path = true := rfl
    have hne : ascii "**" ≠ ascii "*" := by decide
    simp [hglob, matchHere_starStar, hne]
  by_cases hstar : pattern = ascii "*"
  · subst hstar
    have hglob : globMatch (ascii "*") path = true := rfl
    have hne : ascii "*" ≠ path ++ ascii "/**" := by
      intro heq
      have hlength := congrArg List.length heq
      have hone : (ascii "*").length = 1 := rfl
      have hthree : (ascii "/**").length = 3 := rfl
      rw [List.length_append, hone, hthree] at hlength
      omega
    simp [hglob, hne, matchHere_star]
  · have hglob : globMatch pattern path = true ↔
        pattern = path ++ ascii "/**" ∨ matchHere pattern path = true := by
      simp only [globMatch, if_neg hpattern, hall, hstar, or_self, if_false, names_directory_iff]
      split_ifs with hnames <;> simp [hnames]
    rw [hglob]
    exact iff_of_true or_comm fun h ↦ hstar h.1

theorem star_shortcut : globMatch (ascii "*") (ascii "a") = true ↔
    matchHere (ascii "*") (ascii "a") = true ∨ ascii "*" = ascii "a" ++ ascii "/**" :=
  (globMatch_shortcut_iff (by decide)).mpr (by decide)

/-- The shortcut for `*` lets it cross a slash. -/
theorem star_crosses : ¬(globMatch (ascii "*") (ascii "a/b") = true ↔
    matchHere (ascii "*") (ascii "a/b") = true ∨ ascii "*" = ascii "a/b" ++ ascii "/**") := by
  have hglob : globMatch (ascii "*") (ascii "a/b") = true := rfl
  have hslash : slash ∈ ascii "a/b" := by decide
  have hne : ascii "*" ≠ ascii "a/b" ++ ascii "/**" := by decide
  simp [hglob, matchHere_star, hslash, hne]

end SquaredPg
