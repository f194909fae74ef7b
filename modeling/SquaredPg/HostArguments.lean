import SquaredPg.Arguments
import Mathlib.Data.List.Infix

namespace SquaredPg

open Ascii

/-- What the host takes from the command line; the search paths come from the environment. -/
structure HostConfig where
  workflow : Bytes := ascii "workflow.sqpg.default"
  forwarded : List Bytes := []
  fastDurability : Bool := false
  deriving DecidableEq

def workflowOption : Bytes := ascii "--workflow"

def workflowPrefix : Bytes := ascii "--workflow="

def fastOption : Bytes := ascii "--fast"

namespace HostConfig

def forward (config : HostConfig) (argument : Bytes) : HostConfig :=
  { config with forwarded := config.forwarded ++ [argument] }

def take (config : HostConfig) (argument : Bytes) : HostConfig :=
  if workflowPrefix.isPrefixOf argument then
    { config with workflow := argument.drop workflowPrefix.length }
  else if argument = fastOption then { config with fastDurability := true }
  else config.forward argument

end HostConfig

/-- The loop over `argv`; `--workflow` at the end is forwarded. -/
def hostArgumentsFrom (config : HostConfig) : List Bytes → HostConfig
  | [] => config
  | [argument] => config.take argument
  | argument :: value :: rest =>
    if argument = workflowOption then hostArgumentsFrom { config with workflow := value } rest
    else hostArgumentsFrom (config.take argument) (value :: rest)

def hostArguments (argv : List Bytes) : HostConfig := hostArgumentsFrom {} argv

/-- None of the words is one that the host takes. -/
def HostFree : List Bytes → Prop
  | [] => True
  | argument :: rest => (argument = workflowOption → rest = []) ∧
    workflowPrefix.isPrefixOf argument = false ∧ argument ≠ fastOption ∧ HostFree rest

variable {config : HostConfig} {argument value : Bytes} {before after rest words : List Bytes}

theorem HostConfig.take_free (hjoined : workflowPrefix.isPrefixOf argument = false)
    (hfast : argument ≠ fastOption) : config.take argument = config.forward argument := by
  rw [take, hjoined, if_neg (by decide), if_neg hfast]

theorem HostConfig.take_forwarded (config : HostConfig) (argument : Bytes) :
    (config.take argument).forwarded = config.forwarded ++ [argument] ∧
        workflowPrefix.isPrefixOf argument = false ∧ argument ≠ fastOption ∨
      (config.take argument).forwarded = config.forwarded := by
  by_cases hjoined : workflowPrefix.isPrefixOf argument = true
  · right
    rw [take, if_pos hjoined]
  · by_cases hfast : argument = fastOption
    · right
      rw [take, if_neg hjoined, if_pos hfast]
    · left
      rw [take, if_neg hjoined, if_neg hfast]
      exact ⟨rfl, eq_false_of_ne_true hjoined, hfast⟩

theorem hostArgumentsFrom_workflow :
    hostArgumentsFrom config (workflowOption :: value :: rest) =
      hostArgumentsFrom { config with workflow := value } rest := by
  rw [hostArgumentsFrom, if_pos rfl]

theorem hostArgumentsFrom_cons (h : argument = workflowOption → rest = []) :
    hostArgumentsFrom config (argument :: rest) =
      hostArgumentsFrom (config.take argument) rest := by
  cases rest with
  | nil => rfl
  | cons value rest =>
    rw [hostArgumentsFrom, if_neg fun heq ↦ nomatch h heq]

theorem hostArgumentsFrom_free (h : HostFree words) :
    hostArgumentsFrom config words = { config with forwarded := config.forwarded ++ words } := by
  induction words generalizing config with
  | nil => simp [hostArgumentsFrom]
  | cons argument rest ih =>
    obtain ⟨hlast, hjoined, hfast, hrest⟩ := h
    rw [hostArgumentsFrom_cons hlast, HostConfig.take_free hjoined hfast, ih hrest]
    simp [HostConfig.forward]

theorem hostArgumentsFrom_append {word : Bytes} (hword : word ≠ workflowOption) :
    hostArgumentsFrom config (before ++ word :: after) =
      hostArgumentsFrom (hostArgumentsFrom config (before ++ [word])) after := by
  have hplain {config : HostConfig} {rest : List Bytes} :
      hostArgumentsFrom config (word :: rest) = hostArgumentsFrom (config.take word) rest :=
    hostArgumentsFrom_cons fun heq ↦ absurd heq hword
  induction config, before using hostArgumentsFrom.induct with
  | case1 config =>
    rw [List.nil_append, List.nil_append, hplain, hplain, hostArgumentsFrom]
  | case2 config argument =>
    simp only [List.cons_append, List.nil_append]
    by_cases h : argument = workflowOption
    · rw [h, hostArgumentsFrom_workflow, hostArgumentsFrom_workflow, hostArgumentsFrom]
    · rw [hostArgumentsFrom_cons (absurd · h), hostArgumentsFrom_cons (absurd · h), hplain, hplain,
        hostArgumentsFrom]
  | case3 config value rest ih =>
    simp only [List.cons_append]
    rw [hostArgumentsFrom_workflow, hostArgumentsFrom_workflow]
    exact ih
  | case4 config argument value rest h ih =>
    simp only [List.cons_append] at ih ⊢
    rw [hostArgumentsFrom_cons (absurd · h), hostArgumentsFrom_cons (absurd · h)]
    exact ih

theorem hostArgumentsFrom_forwarded (config : HostConfig) (words : List Bytes) :
    ∃ kept, (hostArgumentsFrom config words).forwarded = config.forwarded ++ kept ∧
      kept.Sublist words ∧ (kept = words → HostFree words) := by
  induction config, words using hostArgumentsFrom.induct with
  | case1 config => exact ⟨[], by simp [hostArgumentsFrom], List.Sublist.refl _, fun _ ↦ trivial⟩
  | case2 config argument =>
    rw [hostArgumentsFrom]
    obtain ⟨heq, hjoined, hfast⟩ | heq := config.take_forwarded argument
    · exact ⟨[argument], heq, List.Sublist.refl _, fun _ ↦ ⟨fun _ ↦ rfl, hjoined, hfast, trivial⟩⟩
    · exact ⟨[], by simp [heq], List.nil_sublist _, fun h ↦ nomatch h⟩
  | case3 config value rest ih =>
    obtain ⟨kept, heq, hsub, _⟩ := ih
    rw [hostArgumentsFrom_workflow]
    refine ⟨kept, heq, (hsub.cons value).cons workflowOption, ?_⟩
    intro h
    have hlength := hsub.length_le
    rw [h, List.length_cons, List.length_cons] at hlength
    omega
  | case4 config argument value rest h ih =>
    obtain ⟨kept, heq, hsub, hfree⟩ := ih
    rw [hostArgumentsFrom_cons (absurd · h), heq]
    obtain ⟨htake, hjoined, hfast⟩ | htake := config.take_forwarded argument
    · refine ⟨argument :: kept, by simp [htake], hsub.cons_cons argument, ?_⟩
      intro hall
      exact ⟨(absurd · h), hjoined, hfast, hfree (List.cons.inj hall).2⟩
    · refine ⟨kept, by rw [htake], hsub.cons argument, ?_⟩
      intro hall
      have hlength := hsub.length_le
      rw [hall, List.length_cons] at hlength
      omega

namespace Args

abbrev dashes : Bytes := [minus, minus]

/-- Between two arguments: with or without a command so far, waiting for the value of an option, or
behind the marker. -/
inductive Stage
  | words (command : Bool)
  | awaiting (command : Bool)
  | marked
  deriving DecidableEq

def Stage.next : Stage → Bytes → Stage
  | .words command, argument =>
    if argument = dashes then .marked
    else
      match optionName argument with
      | none => .words true
      | some (_, some _) => .words command
      | some (name, none) => if name ∈ switches then .words command else .awaiting command
  | .awaiting command, _ => .words command
  | .marked, _ => .marked

def stageAfter (stage : Stage) (words : List Bytes) : Stage := words.foldl Stage.next stage

/-- A word that is no option and not the marker. -/
def Plain (word : Bytes) : Prop := word ≠ dashes ∧ optionName word = none

instance (word : Bytes) : Decidable (Plain word) := inferInstanceAs (Decidable (_ ∧ _))

variable {parsed : Parsed} {name value word : Bytes} {rest words before after : List Bytes}

@[simp] theorem store_positional : (parsed.store name value).positional = parsed.positional := rfl

@[simp] theorem store_command : (parsed.store name value).command = parsed.command := rfl

@[simp] theorem addError_positional {error : Bytes} :
    (parsed.addError error).positional = parsed.positional := rfl

theorem addWord_isSome : (parsed.addWord word).command.isSome = true := by
  unfold Parsed.addWord
  split
  · rfl
  · rename_i h
    simp [h]

theorem addWord_of_none (h : parsed.command.isSome = false) :
    (parsed.addWord word).positional = parsed.positional := by
  have hnone : parsed.command = none := by simpa using h
  simp only [Parsed.addWord, hnone]

theorem addWord_of_some (h : parsed.command.isSome = true) :
    (parsed.addWord word).positional = parsed.positional ++ [word] := by
  obtain ⟨command, hsome⟩ := Option.isSome_iff_exists.mp h
  simp only [Parsed.addWord, hsome]

theorem parseFrom_marker :
    parseFrom parsed (dashes :: rest) = { parsed with positional := parsed.positional ++ rest } := by
  rw [parseFrom, if_pos rfl]

theorem parseFrom_plain (h : Plain word) :
    parseFrom parsed (word :: rest) = parseFrom (parsed.addWord word) rest := by
  rw [parseFrom, if_neg h.1, h.2]

theorem parseFrom_inline (hword : word ≠ dashes) (h : optionName word = some (name, some value)) :
    parseFrom parsed (word :: rest) = parseFrom (parsed.store name value) rest := by
  rw [parseFrom, if_neg hword, h]

theorem parseFrom_switch (hword : word ≠ dashes) (h : optionName word = some (name, none))
    (hswitch : name ∈ switches) : parseFrom parsed (word :: rest) =
      parseFrom (parsed.store name (ascii "true")) rest := by
  rw [parseFrom, if_neg hword, h]
  exact if_pos hswitch

theorem parseFrom_valued (hword : word ≠ dashes) (h : optionName word = some (name, none))
    (hswitch : name ∉ switches) : parseFrom parsed (word :: value :: rest) =
      parseFrom (parsed.store name value) rest := by
  rw [parseFrom, if_neg hword, h]
  exact if_neg hswitch

theorem parseFrom_valueless (hword : word ≠ dashes) (h : optionName word = some (name, none))
    (hswitch : name ∉ switches) : parseFrom parsed [word] =
      parsed.addError (requiresValue name) := by
  rw [parseFrom, if_neg hword, h]
  exact if_neg hswitch

def Leaves (parsed : Parsed) (words : List Bytes) : Stage → Prop
  | .words command => (parseFrom parsed words).command.isSome = command ∧
    ∀ rest, parseFrom parsed (words ++ rest) = parseFrom (parseFrom parsed words) rest
  | .awaiting _ => ∃ (opened : Parsed) (name : Bytes),
    opened.positional = (parseFrom parsed words).positional ∧
      ∀ value rest, parseFrom parsed (words ++ value :: rest) =
        parseFrom (opened.store name value) rest
  | .marked => ∀ rest, (parseFrom parsed (words ++ rest)).positional =
    (parseFrom parsed words).positional ++ rest

theorem Leaves.shift (front : List Bytes) {further : Parsed} {stage : Stage}
    (hfront : ∀ rest, parseFrom parsed (front ++ rest) = parseFrom further rest)
    (h : Leaves further words stage) : Leaves parsed (front ++ words) stage := by
  cases stage with
  | words command =>
    refine ⟨?_, fun rest ↦ ?_⟩
    · rw [hfront]
      exact h.1
    · rw [List.append_assoc, hfront, hfront]
      exact h.2 rest
  | awaiting command =>
    obtain ⟨opened, name, hpositional, hnext⟩ := h
    refine ⟨opened, name, ?_, fun value rest ↦ ?_⟩
    · rw [hpositional, hfront]
    · rw [List.append_assoc, hfront]
      exact hnext value rest
  | marked =>
    intro rest
    rw [List.append_assoc, hfront, hfront]
    exact h rest

theorem stageAfter_cons (stage : Stage) :
    stageAfter stage (word :: rest) = stageAfter (stage.next word) rest := rfl

theorem stageAfter_append (stage : Stage) :
    stageAfter stage (words ++ rest) = stageAfter (stageAfter stage words) rest :=
  List.foldl_append

theorem stageAfter_marked : stageAfter .marked words = .marked := by
  induction words with
  | nil => rfl
  | cons word words ih => exact ih

theorem leaves_stageAfter (parsed : Parsed) (words : List Bytes) :
    Leaves parsed words (stageAfter (.words parsed.command.isSome) words) := by
  induction parsed, words using parseFrom.induct with
  | case1 parsed => exact ⟨rfl, fun rest ↦ rfl⟩
  | case2 parsed rest =>
    rw [stageAfter_cons, Stage.next, if_pos rfl, stageAfter_marked]
    intro more
    rw [List.cons_append, parseFrom_marker, parseFrom_marker, List.append_assoc]
  | case3 parsed word rest hword h ih =>
    rw [stageAfter_cons, Stage.next, if_neg hword, h]
    rw [addWord_isSome] at ih
    exact ih.shift [word] fun rest ↦ parseFrom_plain ⟨hword, h⟩
  | case4 parsed word rest hword name value h ih =>
    rw [stageAfter_cons, Stage.next, if_neg hword, h]
    exact ih.shift [word] fun rest ↦ parseFrom_inline hword h
  | case5 parsed word rest hword name h hswitch ih =>
    rw [stageAfter_cons, Stage.next, if_neg hword, h]
    simp only [if_pos hswitch]
    exact ih.shift [word] fun rest ↦ parseFrom_switch hword h hswitch
  | case6 parsed word hword name h hswitch =>
    rw [stageAfter_cons, Stage.next, if_neg hword, h]
    simp only [if_neg hswitch]
    refine ⟨parsed, name, ?_, fun value rest ↦ parseFrom_valued hword h hswitch⟩
    rw [parseFrom_valueless hword h hswitch, addError_positional]
  | case7 parsed word hword name h hswitch value rest ih =>
    rw [stageAfter_cons, Stage.next, if_neg hword, h]
    simp only [if_neg hswitch]
    rw [stageAfter_cons, Stage.next]
    exact ih.shift [word, value] fun rest ↦ parseFrom_valued hword h hswitch

theorem parseFrom_positional (parsed : Parsed) (words : List Bytes) :
    ∃ added, (parseFrom parsed words).positional = parsed.positional ++ added ∧
      added.Sublist words := by
  induction parsed, words using parseFrom.induct with
  | case1 parsed => exact ⟨[], by simp [parseFrom], List.Sublist.refl _⟩
  | case2 parsed rest => exact ⟨rest, by rw [parseFrom_marker], List.sublist_cons_self _ _⟩
  | case3 parsed word rest hword h ih =>
    obtain ⟨added, heq, hsub⟩ := ih
    rw [parseFrom_plain ⟨hword, h⟩, heq]
    cases hcommand : parsed.command.isSome with
    | false => exact ⟨added, by rw [addWord_of_none hcommand], hsub.cons word⟩
    | true => exact ⟨word :: added, by simp [addWord_of_some hcommand], hsub.cons_cons word⟩
  | case4 parsed word rest hword name value h ih =>
    obtain ⟨added, heq, hsub⟩ := ih
    exact ⟨added, by rw [parseFrom_inline hword h, heq, store_positional], hsub.cons word⟩
  | case5 parsed word rest hword name h hswitch ih =>
    obtain ⟨added, heq, hsub⟩ := ih
    exact ⟨added, by rw [parseFrom_switch hword h hswitch, heq, store_positional], hsub.cons word⟩
  | case6 parsed word hword name h hswitch =>
    refine ⟨[], ?_, List.nil_sublist _⟩
    rw [parseFrom_valueless hword h hswitch, addError_positional, List.append_nil]
  | case7 parsed word hword name h hswitch value rest ih =>
    obtain ⟨added, heq, hsub⟩ := ih
    refine ⟨added, ?_, (hsub.cons value).cons word⟩
    rw [parseFrom_valued hword h hswitch, heq, store_positional]

theorem not_all_of_short {fewer : List Bytes} {more : Parsed}
    (hmore : more.positional = parsed.positional) (hshort : fewer.length < words.length) :
    (parseFrom more fewer).positional ≠ parsed.positional ++ words := by
  obtain ⟨added, heq, hsub⟩ := parseFrom_positional more fewer
  rw [heq, hmore]
  intro h
  have hlength := hsub.length_le
  rw [List.append_cancel_left h] at hlength
  omega

theorem not_all_of_option (h : ¬ Plain word) :
    (parseFrom parsed (word :: rest)).positional ≠ parsed.positional ++ word :: rest := by
  by_cases hword : word = dashes
  · rw [hword, parseFrom_marker]
    simp
  · cases hname : optionName word with
    | none => exact absurd ⟨hword, hname⟩ h
    | some option =>
      obtain ⟨name, value⟩ := option
      cases value with
      | some value =>
        rw [parseFrom_inline hword hname]
        exact not_all_of_short store_positional (by simp)
      | none =>
        by_cases hswitch : name ∈ switches
        · rw [parseFrom_switch hword hname hswitch]
          exact not_all_of_short store_positional (by simp)
        · cases rest with
          | nil =>
            rw [parseFrom_valueless hword hname hswitch]
            simp
          | cons value rest =>
            rw [parseFrom_valued hword hname hswitch]
            exact not_all_of_short store_positional (by simp only [List.length_cons]; omega)

theorem all_positional_iff : (parseFrom parsed words).positional = parsed.positional ++ words ↔
    words = [] ∨ parsed.command.isSome = true ∧ ∀ word ∈ words, Plain word := by
  induction words generalizing parsed with
  | nil => simp [parseFrom]
  | cons word rest ih =>
    by_cases hplain : Plain word
    · rw [parseFrom_plain hplain]
      cases hcommand : parsed.command.isSome with
      | false =>
        exact iff_of_false (not_all_of_short (addWord_of_none hcommand) (by simp)) (by simp)
      | true =>
        have hsplit : parsed.positional ++ word :: rest =
            (parsed.addWord word).positional ++ rest := by
          rw [addWord_of_some hcommand, List.append_assoc]
          rfl
        rw [hsplit, ih, addWord_isSome]
        constructor
        · intro h
          refine .inr ⟨rfl, List.forall_mem_cons.mpr ⟨hplain, ?_⟩⟩
          obtain rfl | ⟨_, hall⟩ := h
          · simp
          · exact hall
        · intro h
          obtain hnil | ⟨_, hall⟩ := h
          · cases hnil
          · exact .inr ⟨rfl, (List.forall_mem_cons.mp hall).2⟩
    · refine iff_of_false (not_all_of_option hplain) ?_
      rintro (hnil | ⟨_, hall⟩)
      · cases hnil
      · exact hplain (hall word (by simp))

/-- Nothing stands behind the place, or it is behind the marker, or it is no option's value and all
that follows are plain words behind a command. -/
def Stage.Clear (after : List Bytes) : Stage → Prop
  | .words command => after = [] ∨ command = true ∧ ∀ word ∈ after, Plain word
  | .awaiting _ => after = []
  | .marked => True

theorem positional_append_iff {stage : Stage} (h : Leaves parsed before stage) :
    (parseFrom parsed (before ++ after)).positional =
      (parseFrom parsed before).positional ++ after ↔ stage.Clear after := by
  cases stage with
  | words command =>
    rw [h.2, all_positional_iff, h.1]
    rfl
  | awaiting command =>
    obtain ⟨opened, name, hpositional, hnext⟩ := h
    cases after with
    | nil => simp [Stage.Clear]
    | cons value rest =>
      rw [hnext, ← hpositional]
      exact iff_of_false (not_all_of_short store_positional (by simp)) (by simp [Stage.Clear])
  | marked => exact iff_of_true (h after) trivial

theorem positional_append {stage : Stage} (h : Leaves parsed before stage) (more : List Bytes) :
    ∃ added, (parseFrom parsed (before ++ more)).positional =
      (parseFrom parsed before).positional ++ added ∧ added.Sublist more := by
  cases stage with
  | words command =>
    rw [h.2]
    exact parseFrom_positional _ _
  | awaiting command =>
    obtain ⟨opened, name, hpositional, hnext⟩ := h
    cases more with
    | nil => exact ⟨[], by simp, List.Sublist.refl _⟩
    | cons value rest =>
      rw [hnext, ← hpositional]
      obtain ⟨added, heq, hsub⟩ := parseFrom_positional (opened.store name value) rest
      exact ⟨added, heq, hsub.cons value⟩
  | marked => exact ⟨more, h more, List.Sublist.refl _⟩

end Args

open Args

/-- The words behind a place on the command line become positionals as they are, behind those that
there were, and the host's options are those that were given in front of the place. -/
def Arrive (before after : List Bytes) : Prop :=
  let upTo := hostArguments (before ++ [dashes])
  let whole := hostArguments (before ++ dashes :: after)
  (parse whole.forwarded).positional = (parse upTo.forwarded).positional ++ after ∧
    whole.workflow = upTo.workflow ∧ whole.fastDurability = upTo.fastDurability

instance (before after : List Bytes) : Decidable (Arrive before after) :=
  inferInstanceAs (Decidable (_ ∧ _ ∧ _))

/-- Where the forwarded words stand behind the place. -/
def stageAt (before : List Bytes) : Stage :=
  stageAfter (.words false) (hostArguments (before ++ [dashes])).forwarded

theorem arrive_iff (before after : List Bytes) :
    Arrive before after ↔ HostFree after ∧ (stageAt before).Clear after := by
  have hmarker : dashes ≠ workflowOption := by decide
  have hleaves := leaves_stageAfter {} (hostArguments (before ++ [dashes])).forwarded
  have hsplit : hostArguments (before ++ dashes :: after) =
      hostArgumentsFrom (hostArguments (before ++ [dashes])) after := hostArgumentsFrom_append hmarker
  constructor
  · intro h
    obtain ⟨hpositional, _, _⟩ := h
    obtain ⟨kept, hkept, hsub, hall⟩ := hostArgumentsFrom_forwarded
      (hostArguments (before ++ [dashes])) after
    obtain ⟨added, hadded, hsub'⟩ := positional_append hleaves kept
    rw [hsplit, hkept] at hpositional
    -- as many words arrive as there are, so the host took none of them
    obtain rfl : added = after := List.append_cancel_left (hadded.symm.trans hpositional)
    obtain rfl : kept = added := hsub.antisymm hsub'
    exact ⟨hall rfl, (positional_append_iff hleaves).mp hpositional⟩
  · intro h
    obtain ⟨hfree, hclear⟩ := h
    rw [hostArgumentsFrom_free hfree] at hsplit
    refine ⟨?_, ?_, ?_⟩
    · rw [hsplit]
      exact (positional_append_iff hleaves).mpr hclear
    · rw [hsplit]
    · rw [hsplit]

/-- `args.parse` takes this `--` for the marker, and with it the first that it could take. -/
def TakesMarker (words before after : List Bytes) : Prop :=
  words = before ++ dashes :: after ∧ ∃ command, stageAfter (.words false) before = .words command

theorem TakesMarker.positional (h : TakesMarker words before after) :
    (parse words).positional = (parse before).positional ++ after := by
  obtain ⟨rfl, command, hstage⟩ := h
  have hleaves := leaves_stageAfter {} before
  rw [show ({} : Parsed).command.isSome = false from rfl, hstage] at hleaves
  rw [parse, hleaves.2, parseFrom_marker]
  rfl

/-- The host forwards the `--` at this place, and `args.parse` takes it for the marker then. -/
def ForwardsMarker (before : List Bytes) : Prop :=
  (hostArguments (before ++ [dashes])).forwarded = (hostArguments before).forwarded ++ [dashes] ∧
    ∃ command, stageAfter (.words false) (hostArguments before).forwarded = .words command

theorem stageAt_of_forwards (h : ForwardsMarker before) : stageAt before = .marked := by
  obtain ⟨hforwarded, command, hstage⟩ := h
  rw [stageAt, hforwarded, stageAfter_append, hstage, stageAfter_cons, Stage.next, if_pos rfl]
  rfl

theorem marker_arrives_iff (argv : List Bytes) :
    ((∀ before after, TakesMarker argv before after → Arrive before after) ↔
      ∀ before after, TakesMarker argv before after →
        HostFree after ∧ (stageAt before).Clear after) ∧
    (∀ before after, argv = before ++ dashes :: after → ForwardsMarker before →
      (Arrive before after ↔ HostFree after)) := by
  constructor
  · simp only [arrive_iff]
  · intro before after _ h
    rw [arrive_iff, stageAt_of_forwards h]
    exact and_iff_left trivial

/-- The host takes its option behind the marker, and in front of it the value that would have kept
the marker from being one. -/
theorem marker_lost :
    (TakesMarker [ascii "new", dashes, fastOption] [ascii "new"] [fastOption] ∧
      ¬ Arrive [ascii "new"] [fastOption]) ∧
    (TakesMarker [ascii "--out", fastOption, dashes, ascii "x"] [ascii "--out", fastOption]
        [ascii "x"] ∧
      ¬ Arrive [ascii "--out", fastOption] [ascii "x"]) := by
  refine ⟨⟨⟨rfl, true, ?_⟩, ?_⟩, ⟨rfl, false, ?_⟩, ?_⟩
  · decide
  · decide
  · decide
  · decide

end SquaredPg
