import SquaredPg.Destruct
import SquaredPg.VersionGrammar

namespace SquaredPg

open Ascii

def padRight (width : ℕ) (text : Bytes) : Bytes :=
  text ++ List.replicate (width - text.length) 32

def padLeft (width : ℕ) (text : Bytes) : Bytes :=
  List.replicate (width - text.length) 32 ++ text

def GitState.localFlag (git : GitState) : List Bytes :=
  match git.remote with
  | none => [ascii "no remote"]
  | some _ =>
    if git.noUpstream then [decimal git.unpushed ++ ascii " commit(s), no upstream"]
    else if 0 < git.unpushed then [decimal git.unpushed ++ ascii " unpushed commit(s)"]
    else []

def GitState.dirtyFlag (git : GitState) : List Bytes :=
  if git.dirty then [ascii "uncommitted changes"] else []

def GitState.flags (git : GitState) : List Bytes := git.dirtyFlag ++ git.localFlag

def gitNote (flags : List Bytes) : Bytes :=
  if flags = [] then ascii "  (pushed)" else ascii "  <- " ++ joinWith (ascii ", ") flags

namespace SurveyEntry

def note (e : SurveyEntry) : Bytes :=
  match e.git with
  | none => []
  | some git => gitNote git.flags

def atRisk (e : SurveyEntry) : Bool := e.git.any fun git ↦ git.flags ≠ []

def line (e : SurveyEntry) : Bytes :=
  ascii "  " ++ padRight 34 e.label ++ ascii " " ++ padLeft 5 (decimal e.files) ++
    ascii " files" ++ e.note

end SurveyEntry

def inventoryTotal (entries : List SurveyEntry) : Bytes :=
  decimal entries.length ++ ascii " director" ++
    ascii (if entries.length = 1 then "y" else "ies") ++ ascii ", " ++
    decimal (entries.map SurveyEntry.files).sum ++ ascii " files"

def inventoryRisks (risks : List SurveyEntry) : List Bytes :=
  if risks = [] then []
  else
    [[], decimal risks.length ++ ascii " of these hold work that exists nowhere else:"] ++
      risks.map (fun e ↦ ascii "  " ++ e.label) ++
      [[], ascii "this is the part `rm -rf` would not have told you."]

/-- The lines that `report_inventory` prints. -/
def reportInventory (entries : List SurveyEntry) : List Bytes :=
  entries.map SurveyEntry.line ++ [[], inventoryTotal entries] ++
    inventoryRisks (entries.filter SurveyEntry.atRisk)

section

variable {e e' : SurveyEntry} {entries others front back : List SurveyEntry}

theorem length_reportInventory (entries : List SurveyEntry) :
    (reportInventory entries).length =
      entries.length + 2 + (inventoryRisks (entries.filter SurveyEntry.atRisk)).length := by
  simp only [reportInventory, List.length_append, List.length_map, List.length_cons,
    List.length_nil]

theorem length_reportInventory_of_none (h : ∀ e ∈ entries, e.git = none) :
    (reportInventory entries).length = entries.length + 2 := by
  have hnone : entries.filter SurveyEntry.atRisk = [] := by
    rw [List.filter_eq_nil_iff]
    intro e he
    simp [SurveyEntry.atRisk, h e he]
  rw [length_reportInventory, hnone]
  rfl

theorem length_reportInventory_of_risk (he : e ∈ entries) (hrisk : e.atRisk = true) :
    entries.length + 2 < (reportInventory entries).length := by
  have hmem : e ∈ entries.filter SurveyEntry.atRisk := List.mem_filter.mpr ⟨he, hrisk⟩
  rw [length_reportInventory, inventoryRisks, if_neg (List.ne_nil_of_mem hmem)]
  simp only [List.length_append, List.length_cons]
  omega

theorem line_of_reportInventory
    (h : reportInventory (front ++ e :: back) = reportInventory (front ++ e' :: back)) :
    e.line = e'.line := by
  simp only [reportInventory, List.append_assoc] at h
  obtain ⟨hlines, -⟩ := List.append_inj h (by simp)
  simp only [List.map_append, List.map_cons] at hlines
  obtain ⟨-, hrest⟩ := List.append_inj hlines rfl
  exact (List.cons.inj hrest).1

end

inductive Area
  | sandbox | project | tool
  deriving DecidableEq

def Area.front : Area → Bytes
  | sandbox => ascii "sandbox/"
  | project => ascii "project/"
  | tool => ascii ".sqpg"

/-- A directory that is surveyed; the installed tool has no name of its own. -/
structure Seen where
  area : Area
  name : Bytes
  files : ℕ
  git : Option GitState

def Seen.entry (root : Bytes) (seen : Seen) : SurveyEntry where
  path := root ++ ascii "/" ++ (seen.area.front ++ seen.name)
  label := if seen.area = .tool then ascii ".sqpg (the installed tool)"
    else seen.area.front ++ seen.name
  files := seen.files
  git := seen.git

/-- What `git_state` can find: a remote is a word, and without one nothing is counted. -/
structure GitState.Sound (git : GitState) : Prop where
  counted : git.remote = none → git.unpushed = 0 ∧ git.noUpstream = false
  word : ∀ remote ∈ git.remote, remote ≠ [] ∧ ∀ c ∈ remote, isLuaSpace c = false

/-- A name that `ls -1` prints on a line of its own. -/
structure ListedName (name : Bytes) : Prop where
  nonempty : name ≠ []
  element : slash ∉ name
  line : 10 ∉ name

structure Seen.Sound (seen : Seen) : Prop where
  git : ∀ git ∈ seen.git, git.Sound
  name : if seen.area = .tool then seen.name = [] else ListedName seen.name

def Area.Before (a b : Area) : Prop := a ≠ .tool ∧ ¬(a = .project ∧ b = .sandbox)

instance (a b : Area) : Decidable (a.Before b) := inferInstanceAs (Decidable (_ ∧ ¬(_ ∧ _)))

/-- What a survey of a scope can find. A workspace has any name, the same one in both tiers. -/
def Surveyed : Scope → List Seen → Prop
  | .workspace name, found => (found.map Seen.area).Sublist [.sandbox, .project] ∧
      ∀ seen ∈ found, seen.name = name ∧ ∀ git ∈ seen.git, git.Sound
  | .sandbox, found => ∀ seen ∈ found, seen.area = .sandbox ∧ seen.Sound
  | .environment, found => (found.map Seen.area).Pairwise Area.Before ∧
      ∀ seen ∈ found, seen.Sound

namespace Machine

variable {m : Machine} {st : HostState} {root : Bytes}

def seen (m : Machine) (root : Bytes) (st : HostState) (area : Area) (name : Bytes) : List Seen :=
  let path := root ++ ascii "/" ++ (area.front ++ name)
  if m.isDir path st = false then [] else [⟨area, name, m.countFiles path st, m.gitState path st⟩]

theorem firstWord_word {text word : Bytes} (h : firstWord text = some word) :
    word ≠ [] ∧ ∀ c ∈ word, isLuaSpace c = false := by
  simp only [firstWord] at h
  split_ifs at h with hne
  obtain rfl := Option.some.inj h
  refine ⟨hne, fun c hc ↦ ?_⟩
  simpa using List.mem_takeWhile_imp hc

theorem gitState_sound {path : Bytes} {git : GitState} (h : m.gitState path st = some git) :
    git.Sound := by
  simp only [gitState] at h
  split_ifs at h
  split at h
  · obtain rfl := Option.some.inj h
    exact ⟨fun _ ↦ ⟨rfl, rfl⟩, fun _ hremote ↦ (nomatch hremote)⟩
  · rename_i remote hremote
    have hword : ∀ remote' ∈ some remote, remote' ≠ [] ∧ ∀ c ∈ remote', isLuaSpace c = false := by
      intro remote' heq
      obtain rfl := Option.some.inj heq
      exact firstWord_word hremote
    split at h <;> obtain rfl := Option.some.inj h <;> exact ⟨fun heq ↦ (nomatch heq), hword⟩

theorem seen_spec {area : Area} {name : Bytes} {seen : Seen} (h : seen ∈ m.seen root st area name) :
    seen.area = area ∧ seen.name = name ∧ ∀ git ∈ seen.git, git.Sound := by
  simp only [Machine.seen] at h
  split_ifs at h
  · cases h
  · obtain rfl := List.mem_singleton.mp h
    exact ⟨rfl, rfl, fun git hgit ↦ gitState_sound hgit⟩

theorem seen_areas (m : Machine) (root : Bytes) (st : HostState) (area : Area) (name : Bytes) :
    (m.seen root st area name).map Seen.area = [] ∨
      (m.seen root st area name).map Seen.area = [area] := by
  simp only [Machine.seen]
  split_ifs
  · exact .inl rfl
  · exact .inr rfl

theorem surveyed_seen {area : Area} {name path label : Bytes}
    (hpath : path = root ++ ascii "/" ++ (area.front ++ name))
    (hlabel : label = if area = .tool then ascii ".sqpg (the installed tool)"
      else area.front ++ name) :
    m.surveyed path label st = (m.seen root st area name).map (Seen.entry root) := by
  subst hpath hlabel
  by_cases hdir : m.isDir (root ++ ascii "/" ++ (area.front ++ name)) st = false
  · simp only [surveyed, Machine.seen, if_pos hdir, List.map_nil]
  · simp only [surveyed, Machine.seen, if_neg hdir, List.map_cons, List.map_nil, Seen.entry]

theorem surveyed_tier {area : Area} {tier : Bytes} (hfront : area.front = tier ++ ascii "/")
    (hne : area ≠ .tool) (name : Bytes) :
    m.surveyed (tierPath root tier name) (tier ++ ascii "/" ++ name) st =
      (m.seen root st area name).map (Seen.entry root) := by
  refine surveyed_seen ?_ ?_
  · simp [tierPath, hfront]
  · rw [if_neg hne, hfront]

theorem sandbox_front : Area.sandbox.front = ascii "sandbox" ++ ascii "/" := by decide

theorem project_front : Area.project.front = ascii "project" ++ ascii "/" := by decide

theorem surveyed_tool :
    m.surveyed (root ++ ascii "/.sqpg") (ascii ".sqpg (the installed tool)") st =
      (m.seen root st .tool []).map (Seen.entry root) := by
  have hfront : ascii "/.sqpg" = ascii "/" ++ (Area.tool.front ++ []) := by decide
  refine surveyed_seen ?_ rfl
  rw [hfront, List.append_assoc]

theorem surveyTier_seen {area : Area} {tier : Bytes} (hfront : area.front = tier ++ ascii "/")
    (hne : area ≠ .tool) : m.surveyTier root tier st =
      ((m.listed root tier st).flatMap (m.seen root st area)).map (Seen.entry root) := by
  rw [surveyTier, List.map_flatMap]
  exact congrArg (List.flatMap · _) (funext fun name ↦ surveyed_tier hfront hne name)

theorem listing_spec {area : Area} {tier : Bytes} {seen : Seen} (hne : area ≠ .tool)
    (hlisted : ∀ line ∈ m.listed root tier st, slash ∉ line)
    (h : seen ∈ (m.listed root tier st).flatMap (m.seen root st area)) :
    seen.area = area ∧ seen.Sound := by
  obtain ⟨line, hline, hseen⟩ := List.mem_flatMap.mp h
  obtain ⟨harea, hname, hgit⟩ := seen_spec hseen
  refine ⟨harea, hgit, ?_⟩
  rw [harea, if_neg hne, hname]
  have hmem := List.mem_filter.mp (show line ∈ List.filter _ _ from hline)
  exact ⟨by simpa using hmem.2, hlisted line hline, not_mem_of_mem_splitOn hmem.1⟩

theorem survey_surveyed (scope : Scope)
    (hlisted : ∀ tier, ∀ line ∈ m.listed root tier st, slash ∉ line) :
    ∃ found, m.survey root st scope = found.map (Seen.entry root) ∧ Surveyed scope found := by
  cases scope with
  | workspace name =>
    refine ⟨m.seen root st .sandbox name ++ m.seen root st .project name, ?_, ?_, ?_⟩
    · simp only [survey, tiers, List.flatMap_cons, List.flatMap_nil, List.append_nil,
        List.map_append]
      rw [surveyed_tier sandbox_front (by decide), surveyed_tier project_front (by decide)]
    · rw [List.map_append]
      have hsandbox := seen_areas m root st .sandbox name
      have hproject := seen_areas m root st .project name
      obtain ha | ha := hsandbox <;> obtain hb | hb := hproject <;> rw [ha, hb] <;> decide
    · intro seen hseen
      obtain h | h := List.mem_append.mp hseen
      · exact (seen_spec h).2
      · exact (seen_spec h).2
  | sandbox =>
    refine ⟨_, surveyTier_seen sandbox_front (by decide), fun seen hseen ↦ ?_⟩
    exact listing_spec (by decide) (hlisted _) hseen
  | environment =>
    let sandboxes := (m.listed root (ascii "sandbox") st).flatMap (m.seen root st .sandbox)
    let projects := (m.listed root (ascii "project") st).flatMap (m.seen root st .project)
    have hsandboxes : ∀ seen ∈ sandboxes, seen.area = .sandbox ∧ seen.Sound := fun seen ↦
      listing_spec (by decide) (hlisted _)
    have hprojects : ∀ seen ∈ projects, seen.area = .project ∧ seen.Sound := fun seen ↦
      listing_spec (by decide) (hlisted _)
    have htool : ∀ seen ∈ m.seen root st .tool [], seen.area = .tool ∧ seen.Sound := by
      intro seen hseen
      obtain ⟨harea, hname, hgit⟩ := seen_spec hseen
      exact ⟨harea, hgit, by rw [if_pos harea, hname]⟩
    refine ⟨sandboxes ++ projects ++ m.seen root st .tool [], ?_, ?_, ?_⟩
    · simp only [survey, tiers, List.flatMap_cons, List.flatMap_nil, List.append_nil,
        List.map_append]
      rw [surveyTier_seen sandbox_front (by decide), surveyTier_seen project_front (by decide),
        surveyed_tool]
    · rw [List.pairwise_map, List.pairwise_append, List.pairwise_append]
      refine ⟨⟨?_, ?_, fun a ha b hb ↦ ?_⟩, ?_, fun a ha b hb ↦ ?_⟩
      · refine List.pairwise_of_forall_mem_list fun a ha b hb ↦ ?_
        rw [(hsandboxes a ha).1, (hsandboxes b hb).1]
        decide
      · refine List.pairwise_of_forall_mem_list fun a ha b hb ↦ ?_
        rw [(hprojects a ha).1, (hprojects b hb).1]
        decide
      · rw [(hsandboxes a ha).1, (hprojects b hb).1]
        decide
      · simp only [Machine.seen]
        split_ifs <;> simp
      · rw [(htool b hb).1]
        obtain h | h := List.mem_append.mp ha
        · rw [(hsandboxes a h).1]
          decide
        · rw [(hprojects a h).1]
          decide
    · intro seen hseen
      obtain h | h := List.mem_append.mp hseen
      · obtain h | h := List.mem_append.mp h
        · exact (hsandboxes seen h).2
        · exact (hprojects seen h).2
      · exact (htool seen h).2

end Machine

abbrev bar : UInt8 := 124

def GitState.remoteText (git : GitState) : Bytes := git.remote.getD (ascii "nil")

def Seen.header (seen : Seen) (git : GitState) : Bytes :=
  seen.name ++ colon :: (decimal seen.files ++ colon :: (luaBoolean git.dirty ++
    colon :: (decimal git.unpushed ++ [colon])))

/-- How an entry is spelled behind the directory it is in. -/
def Seen.text (seen : Seen) : Bytes :=
  match seen.git with
  | none => seen.name ++ colon :: decimal seen.files
  | some git => seen.header git ++ git.remoteText

def Seen.spelled (root : Bytes) (seen : Seen) : Bytes :=
  bar :: (root ++ slash :: (seen.area.front ++ seen.text))

theorem foldl_append_eq {α : Type} (f : α → Bytes) (front : Bytes) (l : List α) :
    l.foldl (fun text a ↦ text ++ f a) front = front ++ l.flatMap f := by
  induction l generalizing front with
  | nil => simp
  | cons a l ih =>
    rw [List.foldl_cons, ih, List.flatMap_cons, List.append_assoc]

theorem tokenMaterial_entries (root : Bytes) (scope : Scope) (found : List Seen) :
    tokenMaterial (found.map (Seen.entry root)) scope =
      scope.text ++ found.flatMap (Seen.spelled root) := by
  rw [tokenMaterial, List.foldl_map, ← foldl_append_eq]
  refine List.foldl_ext _ _ _ ?_
  intro text seen _
  have hbar : ascii "|" = [bar] := by decide
  have hslash : ascii "/" = [slash] := by decide
  have hcolon : ascii ":" = [colon] := by decide
  rw [hbar, hcolon]
  obtain ⟨area, name, files, git⟩ := seen
  cases git with
  | none => simp [Seen.spelled, Seen.text, Seen.entry, hslash]
  | some git =>
    simp [Seen.spelled, Seen.text, Seen.header, Seen.entry, GitState.remoteText, hslash]

variable {root : Bytes} {seen other : Seen} {git : GitState}

theorem text_of_none (h : seen.git = none) : seen.text = seen.name ++ colon :: decimal seen.files := by
  rw [Seen.text, h]

theorem text_of_some (h : seen.git = some git) : seen.text = seen.header git ++ git.remoteText := by
  rw [Seen.text, h]

theorem decimal_inj {m n : ℕ} (h : decimal m = decimal n) : m = n := by
  rw [← digitsValue_decimal m, h, digitsValue_decimal]

theorem not_mem_decimal {c : UInt8} {n : ℕ} (h : isDigit c = false) : c ∉ decimal n := by
  intro hmem
  rw [decimal_digits hmem] at h
  cases h

theorem lastField_inj {separator : UInt8} {a b s t : Bytes} (hs : separator ∉ s)
    (ht : separator ∉ t) (h : a ++ separator :: s = b ++ separator :: t) : a = b ∧ s = t := by
  obtain ⟨c, rfl, hrest⟩ | ⟨c, rfl, hrest⟩ := List.append_eq_append_iff.mp h
  · cases c with
    | nil =>
      obtain ⟨-, rfl⟩ := List.cons.inj hrest
      exact ⟨(List.append_nil a).symm, rfl⟩
    | cons d c =>
      obtain ⟨-, rfl⟩ := List.cons.inj hrest
      simp at hs
  · cases c with
    | nil =>
      obtain ⟨-, rfl⟩ := List.cons.inj hrest
      exact ⟨List.append_nil b, rfl⟩
    | cons d c =>
      obtain ⟨-, rfl⟩ := List.cons.inj hrest
      simp at ht

theorem seen_of_text (harea : seen.area = other.area) (hseen : seen.git = none)
    (hother : other.git = none) (h : seen.text = other.text) : seen = other := by
  rw [text_of_none hseen, text_of_none hother] at h
  obtain ⟨hname, hfiles⟩ := lastField_inj (not_mem_decimal rfl) (not_mem_decimal rfl) h
  obtain ⟨area, name, files, git⟩ := seen
  obtain ⟨area', name', files', git'⟩ := other
  simp only at harea hseen hother hname hfiles
  rw [harea, hseen, hother, hname, decimal_inj hfiles]

theorem slash_header (h : slash ∉ seen.name) (git : GitState) : slash ∉ seen.header git := by
  have hboolean : slash ∉ luaBoolean git.dirty := by cases git.dirty <;> decide
  have hdecimal : ∀ n, slash ∉ decimal n := fun n ↦ not_mem_decimal rfl
  simp only [Seen.header, List.mem_append, List.mem_cons, List.not_mem_nil, or_false, not_or]
  exact ⟨h, by decide, hdecimal _, by decide, hboolean, by decide, hdecimal _, by decide⟩

theorem Seen.Sound.slash_name (h : seen.Sound) : slash ∉ seen.name := by
  have hname := h.name
  split_ifs at hname with harea
  · rw [hname]
    exact List.not_mem_nil
  · exact hname.element

theorem slash_text (h : slash ∉ seen.name) (hnone : seen.git = none) : slash ∉ seen.text := by
  rw [text_of_none hnone]
  have hdecimal : slash ∉ decimal seen.files := not_mem_decimal rfl
  simp only [List.mem_append, List.mem_cons, not_or]
  exact ⟨h, by decide, hdecimal⟩

theorem front_ne_nil (a : Area) : a.front ≠ [] := by
  cases a <;> decide

theorem front_head {a b : Area} (h : a.front.head? = b.front.head?) : a = b := by
  revert h
  cases a <;> cases b <;> decide

theorem front_inj {a b : Area} {s t : Bytes} (h : a.front ++ s = b.front ++ t) : a = b := by
  apply front_head
  have hhead := congrArg List.head? h
  rwa [List.head?_append_of_ne_nil _ (front_ne_nil a),
    List.head?_append_of_ne_nil _ (front_ne_nil b)] at hhead

def Seen.Poses (admits : Seen → Prop) (seen : Seen) : Prop :=
  ∃ other, admits other ∧ other.area = seen.area ∧ other.git ≠ none ∧ seen.text = other.text

/-- What stands in front of a root's first slash. -/
def firstElement (root : Bytes) : Bytes := root.takeWhile (· ≠ slash)

def Seen.RunsInto (root : Bytes) (seen : Seen) : Prop :=
  ∃ (other : Seen) (git : GitState) (rest : Bytes), other.Sound ∧ other.area = seen.area ∧
    seen.text ++ bar :: firstElement root = other.header git ++ rest ∧
      rest.length ≤ (firstElement root).length

def Follows (root rest : Bytes) : Prop :=
  rest = [] ∨ ∃ more, rest = bar :: (root ++ slash :: more)

variable {a rest rest' : Bytes} {found others : List Seen}

theorem follows_spelled (root : Bytes) (found : List Seen) :
    Follows root (found.flatMap (Seen.spelled root)) := by
  cases found with
  | nil => exact .inl rfl
  | cons seen found =>
    right
    refine ⟨seen.area.front ++ seen.text ++ found.flatMap (Seen.spelled root), ?_⟩
    simp [Seen.spelled]

theorem takeWhile_slash (root more : Bytes) :
    (bar :: (root ++ slash :: more)).takeWhile (· ≠ slash) = bar :: firstElement root := by
  have hbar : decide (bar ≠ slash) = true := by decide
  rw [List.takeWhile_cons, if_pos hbar, firstElement, List.takeWhile_append]
  split_ifs with h
  · have hall := (List.takeWhile_sublist (p := fun c ↦ decide (c ≠ slash)) (l := root)).eq_of_length h
    rw [hall]
    simp
  · rfl

theorem takeWhile_append_slash (h : slash ∉ a) :
    (a ++ rest).takeWhile (· ≠ slash) = a ++ rest.takeWhile (· ≠ slash) := by
  refine List.takeWhile_append_of_pos ?_
  intro c hc
  have hne : c ≠ slash := by
    intro heq
    subst heq
    exact h hc
  simpa using hne

theorem Follows.cancel (h : Follows root rest) (h' : Follows root rest') (ha : slash ∉ a)
    (heq : rest = a ++ rest') : a = [] := by
  obtain rfl | ⟨more, rfl⟩ := h
  · exact (List.append_eq_nil_iff.mp heq.symm).1
  · obtain rfl | ⟨more', rfl⟩ := h'
    · rw [List.append_nil] at heq
      rw [← heq] at ha
      simp at ha
    · have htake := congrArg (List.takeWhile (fun c ↦ decide (c ≠ slash))) heq
      rw [takeWhile_append_slash ha, takeWhile_slash, takeWhile_slash] at htake
      exact List.self_eq_append_left.mp htake

theorem header_colon (seen : Seen) (git : GitState) :
    ∃ front, seen.header git = front ++ colon :: [] :=
  ⟨seen.name ++ colon :: (decimal seen.files ++ colon :: (luaBoolean git.dirty ++
    colon :: decimal git.unpushed)), by simp [Seen.header]⟩

theorem text_ne_header (h : seen.git = none) (git : GitState) : seen.text ≠ other.header git := by
  intro heq
  obtain ⟨front, hfront⟩ := header_colon other git
  rw [text_of_none h, hfront] at heq
  exact decimal_ne_nil seen.files (lastField_inj (not_mem_decimal rfl) List.not_mem_nil heq).2

theorem GitState.Sound.remoteText (h : git.Sound) {c : UInt8} (hc : c ∈ git.remoteText) :
    isLuaSpace c = false := by
  unfold GitState.remoteText at hc
  cases hremote : git.remote with
  | none =>
    have hnil : ∀ c ∈ ascii "nil", isLuaSpace c = false := by decide +kernel
    rw [hremote] at hc
    exact hnil c hc
  | some remote =>
    rw [hremote] at hc
    exact (h.word remote hremote).2 c hc

theorem poses_of_start (hnone : seen.git = none) (hother : other.Sound)
    (harea : other.area = seen.area) (hgit : other.git = some git)
    (htext : seen.text = other.header git ++ a) (hstart : a <+: git.remoteText) :
    seen.Poses Seen.Sound := by
  have hne : a ≠ [] := by
    intro hnil
    rw [hnil, List.append_nil] at htext
    exact text_ne_header hnone git htext
  have hword : ∀ c ∈ a, isLuaSpace c = false := fun c hc ↦
    (hother.git git hgit).remoteText (hstart.subset hc)
  refine ⟨{ other with git := some { git with remote := some a } }, ⟨?_, hother.name⟩, harea,
    (nomatch ·), htext⟩
  intro git' hgit'
  obtain rfl := Option.some.inj hgit'
  refine ⟨fun h ↦ (nomatch h), fun remote hremote ↦ ?_⟩
  obtain rfl := Option.some.inj hremote
  exact ⟨hne, hword⟩

theorem seen_unique (hnone : seen.git = none) (hslash : slash ∉ seen.name) (hother : other.Sound)
    (harea : other.area = seen.area) (hposes : ¬ seen.Poses Seen.Sound)
    (hruns : rest ≠ [] → ¬ seen.RunsInto root) (hrest : Follows root rest)
    (hrest' : Follows root rest') (h : seen.text ++ rest = other.text ++ rest') :
    seen = other ∧ rest = rest' := by
  have hseen := slash_text hslash hnone
  cases hgit : other.git with
  | none =>
    have hsame : seen.text = other.text := by
      have hfree := slash_text hother.slash_name hgit
      obtain ⟨a, heq, htail⟩ | ⟨a, heq, htail⟩ := List.append_eq_append_iff.mp h
      · have ha : slash ∉ a := fun hmem ↦ hfree (heq ▸ List.mem_append_right _ hmem)
        rw [heq, hrest.cancel hrest' ha htail, List.append_nil]
      · have ha : slash ∉ a := fun hmem ↦ hseen (heq ▸ List.mem_append_right _ hmem)
        rw [heq, hrest'.cancel hrest ha htail, List.append_nil]
    refine ⟨seen_of_text harea.symm hnone hgit hsame, ?_⟩
    rw [hsame] at h
    exact List.append_cancel_left h
  | some git =>
    exfalso
    rw [text_of_some hgit, List.append_assoc] at h
    obtain ⟨v, heq, htail⟩ | ⟨a, heq, htail⟩ := List.append_eq_append_iff.mp h
    · -- the fields of the repository would reach behind the entry
      have hv : slash ∉ v := fun hmem ↦
        slash_header hother.slash_name git (heq ▸ List.mem_append_right _ hmem)
      have hne : v ≠ [] := by
        intro hnil
        rw [hnil, List.append_nil] at heq
        exact text_ne_header hnone git heq.symm
      obtain rfl | ⟨more, rfl⟩ := hrest
      · exact hne (List.append_eq_nil_iff.mp htail.symm).1
      · obtain ⟨w, htake⟩ : ∃ w, bar :: firstElement root = v ++ w :=
          ⟨_, by rw [← takeWhile_slash root more, htail, takeWhile_append_slash hv]⟩
        refine hruns (List.cons_ne_nil _ _) ⟨other, git, w, hother, harea, ?_, ?_⟩
        · rw [htake, ← List.append_assoc, ← heq]
        · have hlength := congrArg List.length htake
          have hpos := List.length_pos_of_ne_nil hne
          rw [List.length_append, List.length_cons] at hlength
          omega
    · -- the remote would begin in the entry
      have ha : slash ∉ a := fun hmem ↦ hseen (heq ▸ List.mem_append_right _ hmem)
      obtain ⟨b, hb, hback⟩ | ⟨b, hb, hback⟩ := List.append_eq_append_iff.mp htail
      · have hfree : slash ∉ b := fun hmem ↦ ha (hb ▸ List.mem_append_right _ hmem)
        rw [hrest'.cancel hrest hfree hback, List.append_nil] at hb
        exact hposes (poses_of_start hnone hother harea hgit heq (hb ▸ List.prefix_rfl))
      · exact hposes (poses_of_start hnone hother harea hgit heq ⟨b, hb.symm⟩)

theorem spelled_cancel (h : seen.spelled root ++ rest = other.spelled root ++ rest') :
    other.area = seen.area ∧ seen.text ++ rest = other.text ++ rest' := by
  simp only [Seen.spelled, List.cons_append, List.append_assoc, List.cons.injEq, true_and,
    List.append_cancel_left_eq] at h
  have harea := front_inj h
  rw [harea] at h
  exact ⟨harea.symm, List.append_cancel_left h⟩

theorem spelled_of_text (harea : other.area = seen.area) (h : other.text = seen.text) :
    other.spelled root = seen.spelled root := by
  rw [Seen.spelled, Seen.spelled, harea, h]

theorem eq_nil_of_spelled (h : found.flatMap (Seen.spelled root) = []) : found = [] := by
  cases found with
  | nil => rfl
  | cons seen found => simp [Seen.spelled] at h

theorem listing_unique (hfound : ∀ seen ∈ found, seen.Sound ∧ seen.git = none ∧
      ¬ seen.Poses Seen.Sound) (hothers : ∀ other ∈ others, other.Sound)
    (hruns : ∀ front seen next back, found = front ++ seen :: next :: back → ¬ seen.RunsInto root)
    (h : found.flatMap (Seen.spelled root) = others.flatMap (Seen.spelled root)) :
    found = others := by
  induction found generalizing others with
  | nil => exact (eq_nil_of_spelled h.symm).symm
  | cons seen found ih =>
    cases others with
    | nil => exact eq_nil_of_spelled h
    | cons other others =>
      rw [List.flatMap_cons, List.flatMap_cons] at h
      obtain ⟨harea, htext⟩ := spelled_cancel h
      obtain ⟨hsound, hnone, hposes⟩ := hfound seen List.mem_cons_self
      have hfollowed : found.flatMap (Seen.spelled root) ≠ [] → ¬ seen.RunsInto root := by
        intro hne
        cases found with
        | nil => exact absurd rfl hne
        | cons next back => exact hruns [] seen next back rfl
      obtain ⟨rfl, hrest⟩ := seen_unique hnone hsound.slash_name (hothers other List.mem_cons_self)
        harea hposes hfollowed (follows_spelled root found) (follows_spelled root others) htext
      rw [ih (fun seen hmem ↦ hfound seen (.tail _ hmem)) (fun other hmem ↦ hothers other (.tail _ hmem))
        (fun front seen next back heq ↦ hruns (_ :: front) seen next back (by rw [heq]; rfl)) hrest]

def Seen.IsPair (root : Bytes) (seen : Seen) : Prop :=
  ∃ a b : Seen, a.area = .sandbox ∧ b.area = .project ∧ a.name = b.name ∧
    (∀ git ∈ a.git, git.Sound) ∧ (∀ git ∈ b.git, git.Sound) ∧
      seen.area = .sandbox ∧ seen.text = a.text ++ b.spelled root

/-- No repository is found, and nothing that is spelled like something else. -/
def Legible (root : Bytes) : Scope → List Seen → Prop
  | .workspace _, found => found.length ≤ 1 ∧ ∀ seen ∈ found, seen.git = none ∧
      ¬ seen.Poses (fun other ↦ ∀ git ∈ other.git, git.Sound) ∧ ¬ seen.IsPair root
  | _, found => ∀ seen ∈ found, seen.git = none ∧ ¬ seen.Poses Seen.Sound

/-- No entry goes on into the root of the next one. -/
def Unmixed (root : Bytes) : Scope → List Seen → Prop
  | .workspace _, _ => True
  | _, found => ∀ front seen next back, found = front ++ seen :: next :: back →
      ¬ seen.RunsInto root

/-- Whatever else the same scope shows, the token is made of something else. -/
def Covers (root : Bytes) (scope : Scope) (found : List Seen) : Prop :=
  ∀ (scope' : Scope) (others : List Seen), scope'.text = scope.text → Surveyed scope' others →
    reportInventory (others.map (Seen.entry root)) ≠ reportInventory (found.map (Seen.entry root)) →
      tokenMaterial (others.map (Seen.entry root)) scope' ≠
        tokenMaterial (found.map (Seen.entry root)) scope

variable {scope : Scope} {name : Bytes}

theorem unmixed_of_firstElement (h : colon ∉ firstElement root) (scope : Scope)
    (found : List Seen) : Unmixed root scope found := by
  have hruns : ∀ seen : Seen, ¬ seen.RunsInto root := by
    intro seen hruns
    obtain ⟨other, git, rest, -, -, heq, hlength⟩ := hruns
    obtain ⟨front, hfront⟩ := header_colon other git
    rw [hfront, List.append_assoc] at heq
    obtain ⟨a, rfl, ha⟩ | ⟨a, ha, hrest⟩ := List.append_eq_append_iff.mp heq
    · cases a with
      | nil => exact absurd (List.cons.inj ha).1 (by decide)
      | cons c a =>
        have hroot := (List.cons.inj ha).2
        rw [hroot] at h
        simp at h
    · cases a with
      | nil => exact absurd (List.cons.inj hrest).1 (by decide)
      | cons c a =>
        have hcount := congrArg List.length hrest
        simp only [List.length_append, List.length_cons, List.length_nil] at hcount
        omega
  cases scope with
  | workspace name => trivial
  | sandbox => exact fun front seen next back _ ↦ hruns seen
  | environment => exact fun front seen next back _ ↦ hruns seen

theorem covers_of_unique (h : ∀ (scope' : Scope) (others : List Seen), scope'.text = scope.text →
      Surveyed scope' others →
        found.flatMap (Seen.spelled root) = others.flatMap (Seen.spelled root) → found = others) :
    Covers root scope found := by
  intro scope' others hscope hsurveyed hreport hmaterial
  rw [tokenMaterial_entries, tokenMaterial_entries, hscope] at hmaterial
  have heq := h scope' others hscope hsurveyed (List.append_cancel_left hmaterial).symm
  exact hreport (by rw [heq])

theorem scope_cases {scope' : Scope} (h : scope'.text = scope.text) :
    scope' = scope ∨ ∃ a b, scope' = .workspace a ∧ scope = .workspace b := by
  cases scope <;> cases scope'
  case workspace.workspace a b => exact .inr ⟨b, a, rfl, rfl⟩
  case sandbox.sandbox => exact .inl rfl
  case environment.environment => exact .inl rfl
  all_goals
    simp only [Scope.text] at h
    exact absurd h (by decide)

theorem Surveyed.sound_listing {others : List Seen} (hscope : ∀ name, scope ≠ .workspace name)
    (h : Surveyed scope others) : ∀ other ∈ others, other.Sound := by
  cases scope with
  | workspace name => exact absurd rfl (hscope name)
  | sandbox => exact fun other hmem ↦ (h other hmem).2
  | environment => exact h.2

theorem Surveyed.cases_workspace (h : Surveyed (.workspace name) found) :
    found = [] ∨ (∃ seen, found = [seen]) ∨
      ∃ a b, found = [a, b] ∧ a.area = .sandbox ∧ b.area = .project ∧ a.name = b.name := by
  obtain ⟨hareas, hnames⟩ := h
  rcases found with _ | ⟨a, _ | ⟨b, _ | ⟨c, found⟩⟩⟩
  · exact .inl rfl
  · exact .inr (.inl ⟨a, rfl⟩)
  · right
    right
    have heq := hareas.eq_of_length rfl
    simp only [List.map_cons, List.map_nil, List.cons.injEq, and_true] at heq
    refine ⟨a, b, rfl, heq.1, heq.2, ?_⟩
    rw [(hnames a (by simp)).1, (hnames b (by simp)).1]
  · have hlength := hareas.length_le
    simp at hlength

theorem workspace_unique (hnone : seen.git = none)
    (hposes : ¬ seen.Poses fun other ↦ ∀ git ∈ other.git, git.Sound) (hpair : ¬ seen.IsPair root)
    (hothers : Surveyed (.workspace name) others)
    (h : seen.spelled root = others.flatMap (Seen.spelled root)) : [seen] = others := by
  have hsound : ∀ other ∈ others, ∀ git ∈ other.git, git.Sound := fun other hmem ↦
    (hothers.2 other hmem).2
  obtain rfl | ⟨other, rfl⟩ | ⟨a, b, rfl, ha, hb, hname⟩ := hothers.cases_workspace
  · simp [Seen.spelled] at h
  · have hspelled : seen.spelled root ++ [] = other.spelled root ++ [] := by simpa using h
    obtain ⟨harea, htext⟩ := spelled_cancel hspelled
    rw [List.append_nil, List.append_nil] at htext
    cases hgit : other.git with
    | none => rw [seen_of_text harea.symm hnone hgit htext]
    | some git =>
      have hne : other.git ≠ none := by simp [hgit]
      exact absurd ⟨other, hsound other (by simp), harea, hne, htext⟩ hposes
  · have hspelled : seen.spelled root ++ [] = a.spelled root ++ b.spelled root := by simpa using h
    obtain ⟨harea, htext⟩ := spelled_cancel hspelled
    rw [List.append_nil] at htext
    exact absurd ⟨a, b, ha, hb, hname, hsound a (by simp), hsound b (by simp), harea ▸ ha, htext⟩ hpair

theorem covers_of_legible (h : Surveyed scope found) (hlegible : Legible root scope found)
    (hunmixed : Unmixed root scope found) : Covers root scope found := by
  refine covers_of_unique fun scope' others hscope hothers heq ↦ ?_
  have hlisting (hne : ∀ name, scope ≠ .workspace name)
      (hplain : ∀ seen ∈ found, seen.git = none ∧ ¬ seen.Poses Seen.Sound)
      (hruns : ∀ front seen next back, found = front ++ seen :: next :: back →
        ¬ seen.RunsInto root) : found = others := by
    obtain rfl | ⟨a, b, -, hworkspace⟩ := scope_cases hscope
    · refine listing_unique (fun seen hmem ↦ ?_) (hothers.sound_listing hne) hruns heq
      exact ⟨h.sound_listing hne seen hmem, hplain seen hmem⟩
    · exact absurd hworkspace (hne b)
  cases scope with
  | workspace name =>
    obtain ⟨other, rfl⟩ : ∃ other, scope' = .workspace other := by
      obtain rfl | ⟨other, -, rfl, -⟩ := scope_cases hscope
      · exact ⟨name, rfl⟩
      · exact ⟨other, rfl⟩
    obtain ⟨hlength, hseen⟩ := hlegible
    rcases found with _ | ⟨seen, _ | ⟨next, found⟩⟩
    · exact (eq_nil_of_spelled heq.symm).symm
    · obtain ⟨hnone, hposes, hpair⟩ := hseen seen List.mem_cons_self
      exact workspace_unique hnone hposes hpair hothers (by simpa using heq)
    · simp at hlength
  | sandbox => exact hlisting (fun _ ↦ Scope.noConfusion) hlegible hunmixed
  | environment => exact hlisting (fun _ ↦ Scope.noConfusion) hlegible hunmixed

/-- What the token does not tell apart: whether the commits have an upstream, and a remote that is
called `nil` from none at all. -/
def GitState.twin (git : GitState) : GitState :=
  match git.remote with
  | none => { git with remote := some (ascii "nil") }
  | some _ => { git with noUpstream := !git.noUpstream }

theorem GitState.Sound.twin (h : git.Sound) : git.twin.Sound := by
  obtain ⟨dirty, unpushed, remote, noUpstream⟩ := git
  cases remote with
  | none =>
    refine ⟨fun heq ↦ (nomatch heq), fun remote hremote ↦ ?_⟩
    obtain rfl := Option.some.inj hremote
    exact ⟨by decide, by decide +kernel⟩
  | some remote => exact ⟨fun heq ↦ (nomatch heq), h.word⟩

theorem text_twin (hgit : seen.git = some git) :
    { seen with git := some git.twin : Seen }.text = seen.text := by
  rw [text_of_some hgit]
  obtain ⟨dirty, unpushed, remote, noUpstream⟩ := git
  cases remote <;> rfl

theorem dirtyFlag_cases (git : GitState) : git.dirtyFlag = [] ∨ ∃ flag, git.dirtyFlag = [flag] := by
  unfold GitState.dirtyFlag
  split_ifs
  · exact .inr ⟨_, rfl⟩
  · exact .inl rfl

theorem gitNote_last {a b : Bytes}
    (h : gitNote (git.dirtyFlag ++ [a]) = gitNote (git.dirtyFlag ++ [b])) : a = b := by
  obtain hnone | ⟨flag, hflag⟩ := dirtyFlag_cases git
  · simpa [hnone, gitNote, joinWith] using h
  · simpa [hflag, gitNote, joinWith] using h

theorem gitNote_more (git : GitState) (a : Bytes) :
    gitNote (git.dirtyFlag ++ [a]) ≠ gitNote git.dirtyFlag := by
  intro h
  obtain hnone | ⟨flag, hflag⟩ := dirtyFlag_cases git
  · have hnote : ascii "  <- " ++ a = ascii "  (pushed)" := by
      simpa [hnone, gitNote, joinWith] using h
    have hstart : ascii "  <- " <+: ascii "  (pushed)" := ⟨a, hnote⟩
    exact absurd hstart (by decide)
  · have hnote : ascii ", " ++ a = [] := by simpa [hflag, gitNote, joinWith] using h
    exact absurd (List.append_eq_nil_iff.mp hnote).1 (by decide)

theorem flagTexts_ne (n : ℕ) :
    decimal n ++ ascii " commit(s), no upstream" ≠ decimal n ++ ascii " unpushed commit(s)" := by
  intro h
  exact absurd (List.append_cancel_left h) (by decide)

theorem note_twin (h : git.Sound) : gitNote git.twin.flags ≠ gitNote git.flags := by
  have hdirty : git.twin.dirtyFlag = git.dirtyFlag := by
    unfold GitState.twin
    split <;> rfl
  rw [GitState.flags, GitState.flags, hdirty]
  cases hremote : git.remote with
  | none =>
    obtain ⟨hzero, hupstream⟩ := h.counted hremote
    have hflag : git.localFlag = [ascii "no remote"] := by simp [GitState.localFlag, hremote]
    have htwin : git.twin.localFlag = [] := by
      simp [GitState.localFlag, GitState.twin, hremote, hzero, hupstream]
    rw [hflag, htwin, List.append_nil]
    exact (gitNote_more git _).symm
  | some remote =>
    have hflag : git.localFlag = if git.noUpstream then
        [decimal git.unpushed ++ ascii " commit(s), no upstream"]
      else if 0 < git.unpushed then [decimal git.unpushed ++ ascii " unpushed commit(s)"]
      else [] := by simp [GitState.localFlag, hremote]
    have htwin : git.twin.localFlag = if !git.noUpstream then
        [decimal git.unpushed ++ ascii " commit(s), no upstream"]
      else if 0 < git.unpushed then [decimal git.unpushed ++ ascii " unpushed commit(s)"]
      else [] := by simp [GitState.localFlag, GitState.twin, hremote]
    rw [hflag, htwin]
    cases hupstream : git.noUpstream <;> by_cases hpos : 0 < git.unpushed <;>
      simp only [Bool.not_false, Bool.not_true, Bool.false_eq_true, if_true, if_false, hpos,
        List.append_nil]
    · exact fun heq ↦ flagTexts_ne _ (gitNote_last heq)
    · exact gitNote_more git _
    · exact fun heq ↦ flagTexts_ne _ (gitNote_last heq).symm
    · exact (gitNote_more git _).symm

theorem line_ne_of_note {e e' : SurveyEntry} (hlabel : e.label = e'.label)
    (hfiles : e.files = e'.files) (h : e.note ≠ e'.note) : e.line ≠ e'.line := by
  intro heq
  rw [SurveyEntry.line, SurveyEntry.line, hlabel, hfiles] at heq
  exact h (List.append_cancel_left heq)

theorem report_ne_of_git {e e' : SurveyEntry} {front back : List SurveyEntry} {git : GitState}
    (hnone : ∀ e ∈ front ++ e' :: back, e.git = none) (hgit : e.git = some git) :
    reportInventory (front ++ e :: back) ≠ reportInventory (front ++ e' :: back) := by
  intro heq
  by_cases hflags : git.flags = []
  · have hnote : e.note = ascii "  (pushed)" := by simp [SurveyEntry.note, hgit, gitNote, hflags]
    have hnote' : e'.note = [] := by simp [SurveyEntry.note, hnone e' (by simp)]
    have hlast := congrArg List.getLast? (line_of_reportInventory heq)
    rw [SurveyEntry.line, SurveyEntry.line, hnote, hnote', List.append_nil,
      List.getLast?_append_of_ne_nil _ (by decide), List.getLast?_append_of_ne_nil _ (by decide)]
      at hlast
    exact absurd hlast (by decide)
  · have hrisk : e.atRisk = true := by simp [SurveyEntry.atRisk, hgit, hflags]
    have hmem : e ∈ front ++ e :: back := by simp
    have hmore := length_reportInventory_of_risk hmem hrisk
    rw [heq, length_reportInventory_of_none hnone] at hmore
    simp at hmore

theorem forall_replace {P : Seen → Prop} {front back : List Seen}
    (h : ∀ x ∈ front ++ seen :: back, P x) (hother : P other) :
    ∀ x ∈ front ++ other :: back, P x := by
  intro x hx
  obtain hfront | hback := List.mem_append.mp hx
  · exact h x (List.mem_append_left _ hfront)
  · obtain rfl | hback := List.mem_cons.mp hback
    · exact hother
    · exact h x (List.mem_append_right _ (.tail _ hback))

theorem Surveyed.with_git {front back : List Seen} {state : Option GitState}
    (h : Surveyed scope (front ++ seen :: back)) (hstate : ∀ git ∈ state, git.Sound) :
    Surveyed scope (front ++ { seen with git := state } :: back) := by
  have hmem : seen ∈ front ++ seen :: back := by simp
  cases scope with
  | workspace name =>
    exact ⟨by simpa using h.1, forall_replace h.2 ⟨(h.2 seen hmem).1, hstate⟩⟩
  | sandbox => exact forall_replace h ⟨(h seen hmem).1, hstate, (h seen hmem).2.name⟩
  | environment => exact ⟨by simpa using h.1, forall_replace h.2 ⟨hstate, (h.2 seen hmem).name⟩⟩

theorem Surveyed.with_other {front back : List Seen} (hscope : ∀ name, scope ≠ .workspace name)
    (h : Surveyed scope (front ++ seen :: back)) (harea : other.area = seen.area)
    (hother : other.Sound) : Surveyed scope (front ++ other :: back) := by
  cases scope with
  | workspace name => exact absurd rfl (hscope name)
  | sandbox => exact forall_replace h ⟨harea ▸ (h seen (by simp)).1, hother⟩
  | environment => exact ⟨by simpa [harea] using h.1, forall_replace h.2 hother⟩

theorem Covers.false {scope' : Scope} (h : Covers root scope found)
    (hothers : Surveyed scope' others) (hscope : scope'.text = scope.text)
    (hspelled : others.flatMap (Seen.spelled root) = found.flatMap (Seen.spelled root))
    (hreport : reportInventory (others.map (Seen.entry root)) ≠
      reportInventory (found.map (Seen.entry root))) : False := by
  refine h scope' others hscope hothers hreport ?_
  rw [tokenMaterial_entries, tokenMaterial_entries, hscope, hspelled]

theorem git_none_of_covers (h : Surveyed scope found) (hcovers : Covers root scope found) :
    ∀ seen ∈ found, seen.git = none := by
  intro seen hmem
  cases hgit : seen.git with
  | none => rfl
  | some git =>
    exfalso
    obtain ⟨front, back, rfl⟩ := List.append_of_mem hmem
    have hsound : git.Sound := by
      cases scope with
      | workspace name => exact (h.2 seen hmem).2 git hgit
      | sandbox => exact (h seen hmem).2.git git hgit
      | environment => exact (h.2 seen hmem).git git hgit
    have htwin : ∀ other ∈ some git.twin, other.Sound := by
      intro other hother
      obtain rfl := Option.some.inj hother
      exact hsound.twin
    have hsame : { seen with git := some git.twin : Seen }.spelled root = seen.spelled root :=
      spelled_of_text rfl (text_twin hgit)
    refine hcovers.false (h.with_git htwin) rfl ?_ ?_
    · simp only [List.flatMap_append, List.flatMap_cons, hsame]
    · simp only [List.map_append, List.map_cons]
      intro heq
      have hnote : ({ seen with git := some git.twin : Seen }.entry root).note ≠
          (seen.entry root).note := by
        simpa [SurveyEntry.note, Seen.entry, hgit] using note_twin hsound
      have hline := line_of_reportInventory heq
      exact absurd hline (line_ne_of_note rfl rfl hnote)

theorem not_poses_of_covers (hscope : ∀ name, scope ≠ .workspace name)
    (h : Surveyed scope found) (hcovers : Covers root scope found) :
    ∀ seen ∈ found, ¬ seen.Poses Seen.Sound := by
  intro seen hmem hposes
  have hnone := git_none_of_covers h hcovers
  obtain ⟨other, hsound, harea, hne, htext⟩ := hposes
  obtain ⟨git, hgit⟩ := Option.ne_none_iff_exists'.mp hne
  obtain ⟨front, back, rfl⟩ := List.append_of_mem hmem
  refine hcovers.false (h.with_other hscope harea hsound) rfl ?_ ?_
  · simp only [List.flatMap_append, List.flatMap_cons]
    rw [spelled_of_text harea htext.symm]
  · simp only [List.map_append, List.map_cons]
    refine report_ne_of_git ?_ hgit
    intro e he
    rw [← List.map_cons, ← List.map_append] at he
    obtain ⟨x, hx, rfl⟩ := List.mem_map.mp he
    exact hnone x hx

theorem report_pair_ne {e a b : SurveyEntry} (hnone : e.git = none) :
    reportInventory [a, b] ≠ reportInventory [e] := by
  intro heq
  have hall : ∀ x ∈ [e], x.git = none := by simpa using hnone
  have hone := length_reportInventory_of_none hall
  have htwo := length_reportInventory [a, b]
  rw [heq, hone] at htwo
  simp only [List.length_cons, List.length_nil] at htwo
  omega

theorem legible_of_covers_workspace (h : Surveyed (.workspace name) found)
    (hcovers : Covers root (.workspace name) found) : Legible root (.workspace name) found := by
  have hnone := git_none_of_covers h hcovers
  have hone : found.length ≤ 1 := by
    obtain rfl | ⟨seen, rfl⟩ | ⟨a, b, rfl, ha, hb, hname⟩ := h.cases_workspace
    · exact Nat.zero_le 1
    · exact le_refl 1
    · exfalso
      -- the two of them read as one workspace, with the root in its name
      let merged : Seen :=
        ⟨.sandbox, a.text ++ bar :: (root ++ slash :: (b.area.front ++ b.name)), b.files, none⟩
      have hmerged : Surveyed (.workspace merged.name) [merged] :=
        ⟨by simp [merged], by simp [merged]⟩
      have hentry : (merged.entry root).git = none := rfl
      refine hcovers.false hmerged rfl ?_ (report_pair_ne hentry).symm
      have hb' := text_of_none (hnone b (by simp))
      simp [Seen.spelled, merged, text_of_none, ha, hb']
  refine ⟨hone, fun seen hmem ↦ ⟨hnone seen hmem, ?_, ?_⟩⟩
  · intro hposes
    obtain ⟨other, hsound, harea, hne, htext⟩ := hposes
    obtain ⟨git, hgit⟩ := Option.ne_none_iff_exists'.mp hne
    obtain ⟨x, rfl⟩ := List.length_eq_one_iff.mp
      (le_antisymm hone (List.length_pos_of_mem hmem))
    obtain rfl := List.mem_singleton.mp hmem
    have hother : Surveyed (.workspace other.name) [other] :=
      ⟨by simpa [harea] using h.1, by simpa using hsound⟩
    refine hcovers.false hother rfl ?_ ?_
    · simp only [List.flatMap_cons, List.flatMap_nil]
      rw [spelled_of_text harea htext.symm]
    · have hentry : ∀ e ∈ [] ++ seen.entry root :: [], e.git = none := by
        simpa [Seen.entry] using hnone seen hmem
      exact report_ne_of_git hentry hgit
  · intro hpair
    obtain ⟨a, b, ha, hb, hname, hasound, hbsound, harea, htext⟩ := hpair
    obtain ⟨x, rfl⟩ := List.length_eq_one_iff.mp
      (le_antisymm hone (List.length_pos_of_mem hmem))
    obtain rfl := List.mem_singleton.mp hmem
    have hothers : Surveyed (.workspace a.name) [a, b] := by
      refine ⟨by simp [ha, hb], ?_⟩
      intro x hx
      simp only [List.mem_cons, List.not_mem_nil, or_false] at hx
      obtain rfl | rfl := hx
      · exact ⟨rfl, hasound⟩
      · exact ⟨hname.symm, hbsound⟩
    refine hcovers.false hothers rfl ?_ ?_
    · simp [Seen.spelled, ha, harea, htext]
    · exact report_pair_ne (hnone seen hmem)

/-- The token covers what was shown exactly of surveys without repositories whose names spell nothing
else; for a listing this needs entries that do not go on into the root behind them, as none does where
the root has no colon in front of its first slash. -/
theorem token_covers_iff (h : Surveyed scope found) :
    (Covers root scope found → Legible root scope found) ∧
      (Unmixed root scope found → Legible root scope found → Covers root scope found) ∧
      (colon ∉ firstElement root → Unmixed root scope found) := by
  refine ⟨fun hcovers ↦ ?_, fun hunmixed hlegible ↦ covers_of_legible h hlegible hunmixed,
    fun hroot ↦ unmixed_of_firstElement hroot scope found⟩
  cases scope with
  | workspace name => exact legible_of_covers_workspace h hcovers
  | sandbox =>
    have hposes := not_poses_of_covers (fun _ ↦ Scope.noConfusion) h hcovers
    exact fun seen hmem ↦ ⟨git_none_of_covers h hcovers seen hmem, hposes seen hmem⟩
  | environment =>
    have hposes := not_poses_of_covers (fun _ ↦ Scope.noConfusion) h hcovers
    exact fun seen hmem ↦ ⟨git_none_of_covers h hcovers seen hmem, hposes seen hmem⟩

theorem count_colon_text (hname : colon ∉ seen.name) (hnone : seen.git = none) :
    seen.text.count colon = 1 := by
  have hdecimal : (decimal seen.files).count colon = 0 :=
    List.count_eq_zero.mpr (not_mem_decimal rfl)
  rw [text_of_none hnone, List.count_append, List.count_cons_self, hdecimal,
    List.count_eq_zero.mpr hname]

theorem not_poses_of_name {admits : Seen → Prop} (hname : colon ∉ seen.name)
    (hnone : seen.git = none) : ¬ seen.Poses admits := by
  intro hposes
  obtain ⟨other, -, -, hne, htext⟩ := hposes
  obtain ⟨git, hgit⟩ := Option.ne_none_iff_exists'.mp hne
  have hcount := congrArg (List.count colon) htext
  rw [count_colon_text hname hnone, text_of_some hgit] at hcount
  simp only [Seen.header, List.count_append, List.count_cons_self] at hcount
  omega

def quietListing : List Seen := [⟨.sandbox, ascii "demo", 5, none⟩, ⟨.sandbox, ascii "other", 12, none⟩]

theorem token_covers_quiet : Covers (ascii "/s") .sandbox quietListing := by
  have hlisted : ∀ name ∈ [ascii "demo", ascii "other"], colon ∉ name ∧ ListedName name := by
    intro name hname
    simp only [List.mem_cons, List.not_mem_nil, or_false] at hname
    obtain rfl | rfl := hname
    · exact ⟨by decide, by decide, by decide, by decide⟩
    · exact ⟨by decide, by decide, by decide, by decide⟩
  have hsound : ∀ seen ∈ quietListing, seen.area = .sandbox ∧ seen.Sound := by
    intro seen hseen
    simp only [quietListing, List.mem_cons, List.not_mem_nil, or_false] at hseen
    obtain rfl | rfl := hseen
    · exact ⟨rfl, fun _ h ↦ (nomatch h), (hlisted _ (by simp)).2⟩
    · exact ⟨rfl, fun _ h ↦ (nomatch h), (hlisted _ (by simp)).2⟩
  have hlegible : Legible (ascii "/s") .sandbox quietListing := by
    intro seen hseen
    simp only [quietListing, List.mem_cons, List.not_mem_nil, or_false] at hseen
    obtain rfl | rfl := hseen
    · exact ⟨rfl, not_poses_of_name (hlisted _ (by simp)).1 rfl⟩
    · exact ⟨rfl, not_poses_of_name (hlisted _ (by simp)).1 rfl⟩
  have hsurveyed : Surveyed .sandbox quietListing := hsound
  have hcovers := (token_covers_iff hsurveyed).2.1 (unmixed_of_firstElement (by decide) _ _) hlegible
  exact hcovers

/-- One repository with three commits, that are ahead of its upstream or have none. -/
def repositoryListing (noUpstream : Bool) : List Seen :=
  [⟨.sandbox, ascii "demo", 5, some ⟨false, 3, some (ascii "origin"), noUpstream⟩⟩]

theorem token_misses_upstream :
    (∀ noUpstream, Surveyed .sandbox (repositoryListing noUpstream)) ∧
    reportInventory ((repositoryListing true).map (Seen.entry (ascii "/s"))) ≠
      reportInventory ((repositoryListing false).map (Seen.entry (ascii "/s"))) ∧
    tokenMaterial ((repositoryListing true).map (Seen.entry (ascii "/s"))) .sandbox =
      tokenMaterial ((repositoryListing false).map (Seen.entry (ascii "/s"))) .sandbox := by
  refine ⟨fun noUpstream seen hseen ↦ ?_, by decide +kernel, rfl⟩
  have hlisted : ListedName (ascii "demo") := ⟨by decide, by decide, by decide⟩
  obtain rfl := List.mem_singleton.mp hseen
  refine ⟨rfl, fun git hgit ↦ ?_, hlisted⟩
  obtain rfl := Option.some.inj hgit
  refine ⟨fun h ↦ (nomatch h), fun remote hremote ↦ ?_⟩
  obtain rfl := Option.some.inj hremote
  exact ⟨by decide, by decide +kernel⟩

end SquaredPg
