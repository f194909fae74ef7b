import SquaredPg.Ownership

namespace SquaredPg

section Fold

variable {σ τ α : Type*} {view : σ → τ} {f : σ → α → σ} {g : τ → τ} {p : α → Bool}

theorem view_foldl (hstep : ∀ s a, view (f s a) = if p a then g (view s) else view s)
    (hidem : ∀ t, g (g t) = g t) (s : σ) (l : List α) :
    view (l.foldl f s) = if l.any p then g (view s) else view s := by
  induction l generalizing s with
  | nil => rfl
  | cons a l ih =>
    rw [List.foldl_cons, ih, hstep, List.any_cons]
    by_cases ha : p a
    · simp only [ha, if_true, Bool.true_or, hidem, ite_self]
    · simp only [ha, Bool.false_or, Bool.false_eq_true, if_false]

theorem any_eq_of_mem_iff {l l' : List α} (h : ∀ a, a ∈ l ↔ a ∈ l') : l.any p = l'.any p := by
  rw [Bool.eq_iff_iff, List.any_eq_true, List.any_eq_true]
  exact exists_congr fun a ↦ and_congr_left fun _ ↦ h a

end Fold

/-- What the fold of `classify_path` comes to: the class chosen, and whether a warning was given. -/
structure Verdict where
  chosen : Option OwnershipClass
  warned : Bool
  deriving DecidableEq

namespace Verdict

def meet (cls : OwnershipClass) (verdict : Verdict) : Verdict :=
  match verdict.chosen with
  | none => { verdict with chosen := some cls }
  | some chosen =>
    if cls = chosen then verdict
    else { chosen := some (if chosen = .generated then cls else chosen), warned := true }

theorem meet_meet (cls : OwnershipClass) (verdict : Verdict) :
    meet cls (meet cls verdict) = meet cls verdict := by
  obtain ⟨chosen, warned⟩ := verdict
  cases chosen with
  | none => simp [meet]
  | some chosen =>
    by_cases hsame : cls = chosen
    · simp [meet, hsame]
    · by_cases hgen : chosen = .generated
      · subst hgen
        simp [meet, hsame]
      · simp [meet, hsame, hgen]

def ofState (state : Option (OwnershipClass × Bytes) × List Diagnostic) : Verdict :=
  { chosen := state.1.map Prod.fst
    warned := state.2.any (·.severity = .warning) }

theorem ofState_considerPattern (path : Bytes) (cls : OwnershipClass)
    (state : Option (OwnershipClass × Bytes) × List Diagnostic) (pattern : Bytes) :
    ofState (considerPattern path cls state pattern) =
      if globMatch pattern path then meet cls (ofState state) else ofState state := by
  obtain ⟨choice, diagnostics⟩ := state
  by_cases hmatch : globMatch pattern path
  · cases choice with
    | none => simp [considerPattern, hmatch, ofState, meet]
    | some choice =>
      obtain ⟨chosen, chosenPattern⟩ := choice
      by_cases hsame : cls = chosen
      · simp [considerPattern, hmatch, hsame, ofState, meet]
      · by_cases hgen : chosen = .generated
        · subst hgen
          simp [considerPattern, hmatch, hsame, ofState, meet, overlapWarning]
        · simp [considerPattern, hmatch, hsame, hgen, ofState, meet, overlapWarning]
  · simp [considerPattern, hmatch]

end Verdict

def matchesAny (path : Bytes) (patterns : List Bytes) : Bool := patterns.any (globMatch · path)

namespace OwnershipRules

def lists (rules : OwnershipRules) : List (List Bytes) :=
  [rules.generated, rules.user, rules.shared]

/-- The lists differ at most in the order and the repetition of their patterns. -/
structure SamePatterns (rules rules' : OwnershipRules) : Prop where
  generated : ∀ pattern, pattern ∈ rules.generated ↔ pattern ∈ rules'.generated
  user : ∀ pattern, pattern ∈ rules.user ↔ pattern ∈ rules'.user
  shared : ∀ pattern, pattern ∈ rules.shared ↔ pattern ∈ rules'.shared
  defaultClass : rules.defaultClass = rules'.defaultClass

def verdict (rules : OwnershipRules) (path : Bytes) : Verdict :=
  let consider := fun verdict patterns cls ↦
    if matchesAny path patterns then Verdict.meet cls verdict else verdict
  let generated := consider ⟨none, false⟩ rules.generated .generated
  let user := consider generated rules.user .seeded
  consider user rules.shared .shared

theorem SamePatterns.verdict_eq {rules rules' : OwnershipRules} (h : rules.SamePatterns rules')
    (path : Bytes) : rules.verdict path = rules'.verdict path := by
  have hgenerated : matchesAny path rules.generated = matchesAny path rules'.generated :=
    any_eq_of_mem_iff h.generated
  have huser : matchesAny path rules.user = matchesAny path rules'.user := any_eq_of_mem_iff h.user
  have hshared : matchesAny path rules.shared = matchesAny path rules'.shared :=
    any_eq_of_mem_iff h.shared
  simp only [verdict, hgenerated, huser, hshared]

end OwnershipRules

/-- The three loops of `classify_path`, read as three merges. -/
theorem classifyPath_verdict (rules : OwnershipRules) (path : Bytes) :
    (classifyPath rules path).1 = (rules.verdict path).chosen.getD rules.defaultClass ∧
      (classifyPath rules path).2.any (·.severity = .warning) = (rules.verdict path).warned := by
  have hlist := fun cls state patterns ↦ view_foldl (Verdict.ofState_considerPattern path cls)
    (Verdict.meet_meet cls) state patterns
  have hclasses : OwnershipClass.fromManifest (ascii "generated") = .generated ∧
      OwnershipClass.fromManifest (ascii "user") = .seeded ∧
      OwnershipClass.fromManifest (ascii "shared") = .shared := by decide
  obtain ⟨hgenerated, huser, hshared⟩ := hclasses
  have hfinal : Verdict.ofState (rules.shared.foldl (considerPattern path .shared)
      (rules.user.foldl (considerPattern path .seeded)
        (rules.generated.foldl (considerPattern path .generated) (none, [])))) =
      rules.verdict path := by
    rw [hlist, hlist, hlist]
    rfl
  have hchosen := congrArg Verdict.chosen hfinal
  have hwarned := congrArg Verdict.warned hfinal
  simp only [classifyPath, hgenerated, huser, hshared]
  refine ⟨?_, hwarned⟩
  rw [← hchosen]
  rfl

theorem classifyPath_exact (rules : OwnershipRules) (path : Bytes) :
    (classifyPath rules path).1 =
      (if matchesAny path rules.user then .seeded
        else if matchesAny path rules.shared then .shared
        else if matchesAny path rules.generated then .generated
        else rules.defaultClass) ∧
    ((∃ d ∈ (classifyPath rules path).2, d.severity = .warning) ↔
      2 ≤ rules.lists.countP (matchesAny path)) ∧
    ∀ rules', rules.SamePatterns rules' →
      (classifyPath rules' path).1 = (classifyPath rules path).1 ∧
      ((∃ d ∈ (classifyPath rules' path).2, d.severity = .warning) ↔
        ∃ d ∈ (classifyPath rules path).2, d.severity = .warning) := by
  have hwarned : ∀ rules, (∃ d ∈ (classifyPath rules path).2, d.severity = .warning) ↔
      (rules.verdict path).warned = true := by
    intro rules
    rw [← (classifyPath_verdict rules path).2, List.any_eq_true]
    simp only [decide_eq_true_eq]
  refine ⟨?_, ?_, ?_⟩
  · rw [(classifyPath_verdict rules path).1]
    simp only [OwnershipRules.verdict]
    cases matchesAny path rules.generated <;> cases matchesAny path rules.user <;>
      cases matchesAny path rules.shared <;> rfl
  · rw [hwarned]
    simp only [OwnershipRules.verdict, OwnershipRules.lists, List.countP_cons, List.countP_nil]
    cases matchesAny path rules.generated <;> cases matchesAny path rules.user <;>
      cases matchesAny path rules.shared <;> simp [Verdict.meet]
  · intro rules' h
    rw [hwarned, hwarned, h.verdict_eq, (classifyPath_verdict rules' path).1,
      (classifyPath_verdict rules path).1, h.verdict_eq, h.defaultClass]
    exact ⟨rfl, Iff.rfl⟩

/-- A path in two lists, one of them with its pattern twice. -/
theorem classifyPath_exact_repeated :
    let rules : OwnershipRules := { generated := [ascii "mk"], user := [ascii "mk", ascii "mk"] }
    let once : OwnershipRules := { generated := [ascii "mk"], user := [ascii "mk"] }
    (classifyPath once (ascii "mk")).1 = (classifyPath rules (ascii "mk")).1 ∧
      ((∃ d ∈ (classifyPath once (ascii "mk")).2, d.severity = .warning) ↔
        ∃ d ∈ (classifyPath rules (ascii "mk")).2, d.severity = .warning) :=
  (classifyPath_exact _ _).2.2 _ ⟨by simp, by simp, by simp, rfl⟩

end SquaredPg
