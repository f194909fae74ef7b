import SquaredPg.VersionGrammar
import Mathlib.Logic.Function.Basic

namespace SquaredPg

open Ascii

abbrev equals : UInt8 := 61

namespace Args

/-- The value of an option: a text, or the list that a repeatable option grows. -/
inductive OptionValue
  | text (value : Bytes)
  | list (values : List Bytes)
  deriving DecidableEq

/-- The result of `args.parse`; the options are a table from names to values. -/
structure Parsed where
  command : Option Bytes := none
  positional : List Bytes := []
  options : Bytes → Option OptionValue := fun _ ↦ none
  errors : List Bytes := []

def switches : List Bytes :=
  ["help", "json", "quiet", "verbose", "explain", "sandbox", "environment", "no-git",
    "version"].map ascii

def repeatable : List Bytes := ["kit", "package", "asset", "platform", "param"].map ascii

def aliases (name : Bytes) : Option Bytes :=
  if name = ascii "t" then some (ascii "template")
  else if name = ascii "k" then some (ascii "kit")
  else if name = ascii "o" then some (ascii "out")
  else if name = ascii "p" then some (ascii "param")
  else if name = ascii "h" then some (ascii "help")
  else if name = ascii "j" then some (ascii "jobs")
  else none

/-- `split_pair`: a key that is not empty, and all behind the first equals sign. -/
def splitPair (text : Bytes) : Option (Bytes × Bytes) :=
  match cutAt equals text with
  | (_, none) => none
  | (key, some value) => if key = [] then none else some (key, value)

def optionName (argument : Bytes) : Option (Bytes × Option Bytes) :=
  if argument.take 2 = [minus, minus] then
    match splitPair (argument.drop 2) with
    | some (key, value) => some (key, some value)
    | none => some (argument.drop 2, none)
  else if argument.take 1 = [minus] ∧ 1 < argument.length then
    some ((aliases (argument.drop 1)).getD (argument.drop 1), none)
  else none

namespace Parsed

def addWord (parsed : Parsed) (word : Bytes) : Parsed :=
  match parsed.command with
  | none => { parsed with command := some word }
  | some _ => { parsed with positional := parsed.positional ++ [word] }

def listAt (parsed : Parsed) (name : Bytes) : List Bytes :=
  match parsed.options name with
  | some (.list values) => values
  | _ => []

def store (parsed : Parsed) (name value : Bytes) : Parsed :=
  let stored := if name ∈ repeatable then .list (parsed.listAt name ++ [value]) else .text value
  { parsed with options := Function.update parsed.options name (some stored) }

def addError (parsed : Parsed) (error : Bytes) : Parsed :=
  { parsed with errors := parsed.errors ++ [error] }

end Parsed

def requiresValue (name : Bytes) : Bytes := ascii "--" ++ name ++ ascii " requires a value"

/-- The loop of `args.parse` over the arguments that are left. -/
def parseFrom (parsed : Parsed) : List Bytes → Parsed
  | [] => parsed
  | argument :: rest =>
    if argument = [minus, minus] then { parsed with positional := parsed.positional ++ rest }
    else
      match optionName argument with
      | none => parseFrom (parsed.addWord argument) rest
      | some (name, some value) => parseFrom (parsed.store name value) rest
      | some (name, none) =>
        if name ∈ switches then parseFrom (parsed.store name (ascii "true")) rest
        else
          match rest with
          | [] => parsed.addError (requiresValue name)
          | value :: rest => parseFrom (parsed.store name value) rest

def parse (argv : List Bytes) : Parsed := parseFrom {} argv

inductive Setting
  | bare (name : Bytes) (h : name ∈ switches)
  | joined (name value : Bytes) (hname : name ≠ []) (hequals : equals ∉ name)
  | spaced (name value : Bytes) (hname : name ≠ []) (hequals : equals ∉ name)
    (hswitch : name ∉ switches)

structure Word where
  text : Bytes
  plain : text.head? ≠ some minus

def Setting.render : Setting → List Bytes
  | .bare name _ => [minus :: minus :: name]
  | .joined name value _ _ => [minus :: minus :: (name ++ equals :: value)]
  | .spaced name value _ _ _ => [minus :: minus :: name, value]

def Setting.binding : Setting → Bytes × Bytes
  | .bare name _ => (name, ascii "true")
  | .joined name value _ _ => (name, value)
  | .spaced name value _ _ _ => (name, value)

/-- The command stands before the other words; the words behind `--` are arbitrary. -/
structure CommandLine where
  before : List Setting
  command : Word
  after : List (Setting ⊕ Word)
  rest : Option (List Bytes)

namespace CommandLine

def renderItem : Setting ⊕ Word → List Bytes
  | .inl setting => setting.render
  | .inr word => [word.text]

def renderRest : Option (List Bytes) → List Bytes
  | none => []
  | some words => [minus, minus] :: words

def render (line : CommandLine) : List Bytes :=
  line.before.flatMap Setting.render ++ line.command.text ::
    (line.after.flatMap renderItem ++ renderRest line.rest)

def bindings (line : CommandLine) : List (Bytes × Bytes) :=
  line.before.map Setting.binding ++ (line.after.filterMap Sum.getLeft?).map Setting.binding

def positional (line : CommandLine) : List Bytes :=
  (line.after.filterMap Sum.getRight?).map Word.text ++ line.rest.getD []

end CommandLine

def optionOf (bindings : List (Bytes × Bytes)) (name : Bytes) : Option OptionValue :=
  let values := (bindings.filter fun binding ↦ binding.1 = name).map Prod.snd
  if name ∈ repeatable then if values = [] then none else some (.list values)
  else values.getLast?.map .text

variable {name value text : Bytes} {parsed : Parsed} {rest : List Bytes}

theorem splitPair_of_not_mem (h : equals ∉ name) : splitPair name = none := by
  rw [splitPair, cutAt_of_not_mem h]

theorem splitPair_append (hname : name ≠ []) (h : equals ∉ name) :
    splitPair (name ++ equals :: value) = some (name, value) := by
  rw [splitPair, cutAt_append h]
  exact if_neg hname

theorem optionName_long (h : equals ∉ name) :
    optionName (minus :: minus :: name) = some (name, none) := by
  simp [optionName, splitPair_of_not_mem h]

theorem optionName_joined (hname : name ≠ []) (h : equals ∉ name) :
    optionName (minus :: minus :: (name ++ equals :: value)) = some (name, some value) := by
  simp [optionName, splitPair_append hname h]

theorem optionName_word (h : text.head? ≠ some minus) : optionName text = none := by
  cases text with
  | nil => simp [optionName]
  | cons c rest =>
    have hc : c ≠ minus := by simpa using h
    simp [optionName, hc]

theorem switch_ne_nil (h : name ∈ switches) : name ≠ [] := by
  intro heq
  revert h
  rw [heq]
  decide

theorem switch_no_equals (h : name ∈ switches) : equals ∉ name := by
  have hall : ∀ name ∈ switches, equals ∉ name := by decide
  exact hall name h

theorem long_ne_marker (h : name ≠ []) : minus :: minus :: name ≠ [minus, minus] := by
  simpa using h

theorem parseFrom_setting (setting : Setting) :
    parseFrom parsed (setting.render ++ rest) =
      parseFrom (parsed.store setting.binding.1 setting.binding.2) rest := by
  cases setting with
  | bare name h =>
    rw [Setting.render, List.singleton_append, parseFrom,
      if_neg (long_ne_marker (switch_ne_nil h)), optionName_long (switch_no_equals h)]
    exact if_pos h
  | joined name value hname hequals =>
    rw [Setting.render, List.singleton_append, parseFrom, if_neg (long_ne_marker (by simp)),
      optionName_joined hname hequals]
    rfl
  | spaced name value hname hequals hswitch =>
    rw [Setting.render, List.cons_append, List.singleton_append, parseFrom,
      if_neg (long_ne_marker hname), optionName_long hequals]
    exact if_neg hswitch

theorem parseFrom_word (word : Word) :
    parseFrom parsed (word.text :: rest) = parseFrom (parsed.addWord word.text) rest := by
  have hmarker : word.text ≠ [minus, minus] := by
    intro heq
    exact word.plain (by rw [heq]; rfl)
  rw [parseFrom, if_neg hmarker, optionName_word word.plain]

def readSoFar (command : Option Bytes) (words : List Bytes) (bindings : List (Bytes × Bytes)) :
    Parsed :=
  { command, positional := words, options := optionOf bindings }

variable {command : Option Bytes} {words : List Bytes} {bindings : List (Bytes × Bytes)}

theorem options_readSoFar :
    (readSoFar command words bindings).options name = optionOf bindings name := rfl

theorem listAt_readSoFar (h : name ∈ repeatable) :
    (readSoFar command words bindings).listAt name =
      (bindings.filter fun binding ↦ binding.1 = name).map Prod.snd := by
  rw [Parsed.listAt, options_readSoFar, optionOf, if_pos h]
  by_cases hvalues : (bindings.filter fun binding ↦ binding.1 = name).map Prod.snd = []
  · rw [if_pos hvalues, hvalues]
  · rw [if_neg hvalues]

theorem store_readSoFar : (readSoFar command words bindings).store name value =
    readSoFar command words (bindings ++ [(name, value)]) := by
  rw [Parsed.store, readSoFar, Parsed.mk.injEq]
  refine ⟨rfl, rfl, funext fun other ↦ ?_, rfl⟩
  rw [← readSoFar, options_readSoFar]
  by_cases hother : other = name
  · rw [hother, Function.update_self]
    by_cases hrepeat : name ∈ repeatable
    · rw [if_pos hrepeat, listAt_readSoFar hrepeat, optionOf, if_pos hrepeat]
      simp
    · simp [optionOf, hrepeat]
  · have hfilter : (bindings ++ [(name, value)]).filter (fun binding ↦ binding.1 = other) =
        bindings.filter fun binding ↦ binding.1 = other := by
      simp [Ne.symm hother]
    rw [Function.update_of_ne hother, options_readSoFar, optionOf, optionOf, hfilter]

theorem parseFrom_settings (settings : List Setting) :
    parseFrom (readSoFar command words bindings) (settings.flatMap Setting.render ++ rest) =
      parseFrom (readSoFar command words (bindings ++ settings.map Setting.binding)) rest := by
  induction settings generalizing bindings with
  | nil => simp
  | cons setting settings ih =>
    rw [List.flatMap_cons, List.append_assoc, parseFrom_setting, store_readSoFar, ih,
      List.append_assoc]
    rfl

theorem parseFrom_items {command : Bytes} (items : List (Setting ⊕ Word)) :
    parseFrom (readSoFar (some command) words bindings)
        (items.flatMap CommandLine.renderItem ++ rest) =
      parseFrom (readSoFar (some command)
        (words ++ (items.filterMap Sum.getRight?).map Word.text)
        (bindings ++ (items.filterMap Sum.getLeft?).map Setting.binding)) rest := by
  induction items generalizing words bindings with
  | nil => simp
  | cons item items ih =>
    rw [List.flatMap_cons, List.append_assoc]
    cases item with
    | inl setting =>
      rw [CommandLine.renderItem, parseFrom_setting, store_readSoFar, ih]
      simp [List.filterMap_cons]
    | inr word =>
      rw [CommandLine.renderItem, List.singleton_append, parseFrom_word]
      have hadd : (readSoFar (some command) words bindings).addWord word.text =
          readSoFar (some command) (words ++ [word.text]) bindings := rfl
      rw [hadd, ih]
      simp [List.filterMap_cons]

theorem parseFrom_rest (more : Option (List Bytes)) :
    parseFrom (readSoFar command words bindings) (CommandLine.renderRest more) =
      readSoFar command (words ++ more.getD []) bindings := by
  cases more with
  | none => simp [CommandLine.renderRest, parseFrom]
  | some more =>
    rw [CommandLine.renderRest, parseFrom, if_pos rfl]
    rfl

/-- `args.parse` reads a command line as it was meant. -/
theorem parse_render (line : CommandLine) : parse line.render =
    { command := some line.command.text
      positional := line.positional
      options := optionOf line.bindings
      errors := [] } := by
  have hstart : ({} : Parsed) = readSoFar none [] [] := by
    rw [readSoFar, Parsed.mk.injEq]
    refine ⟨rfl, rfl, funext fun name ↦ ?_, rfl⟩
    by_cases h : name ∈ repeatable <;> simp [optionOf, h]
  have hcommand : ∀ bindings, (readSoFar none [] bindings).addWord line.command.text =
      readSoFar (some line.command.text) [] bindings := fun _ ↦ rfl
  rw [parse, hstart, CommandLine.render, parseFrom_settings, parseFrom_word, hcommand,
    parseFrom_items, parseFrom_rest]
  rfl

end Args

end SquaredPg
