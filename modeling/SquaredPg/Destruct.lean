import SquaredPg.Tiers
import SquaredPg.Sorting

namespace SquaredPg

open Ascii

structure GitState where
  dirty : Bool
  unpushed : ℕ
  remote : Option Bytes
  noUpstream : Bool

structure SurveyEntry where
  path : Bytes
  label : Bytes
  files : ℕ
  git : Option GitState

inductive Scope
  | workspace (name : Bytes)
  | sandbox
  | environment
  deriving DecidableEq

structure DestructOptions where
  root : Option Bytes := none
  name : Option Bytes := none
  sandbox : Bool := false
  environment : Bool := false
  confirm : Option Bytes := none

/-- A byte that Lua's `%s` stands for. -/
def isLuaSpace (c : UInt8) : Bool := c = 32 ∨ (9 ≤ c ∧ c ≤ 13)

/-- `tonumber(text:match("%d+"))` -/
def firstNumber (text : Bytes) : Option ℕ :=
  let digits := (text.dropWhile fun c ↦ !isDigit c).takeWhile isDigit
  if digits = [] then none else some (digitsValue digits)

/-- `text:match("^%s*(%S+)")` -/
def firstWord (text : Bytes) : Option Bytes :=
  let word := (text.dropWhile isLuaSpace).takeWhile fun c ↦ !isLuaSpace c
  if word = [] then none else some word

/-- `text:gmatch("[^\n]+")` -/
def lines (text : Bytes) : List Bytes := (text.splitOn 10).filter fun line ↦ line ≠ []

def Scope.text : Scope → Bytes
  | workspace _ => ascii "workspace"
  | sandbox => ascii "sandbox"
  | environment => ascii "environment"

def Scope.phrase : Scope → Bytes
  | workspace name => ascii "destroy " ++ name
  | sandbox => ascii "destroy the sandbox"
  | environment => ascii "destroy the environment"

/-- The scope that `destruct.run` takes from its options. -/
def DestructOptions.scope (options : DestructOptions) : Option Scope :=
  if options.environment then some .environment
  else if options.sandbox then some .sandbox
  else options.name.map .workspace

namespace Machine

variable (m : Machine)

/-- `capture` -/
def captured (command : Bytes) (st : HostState) : Bytes :=
  m.capture st.fs (command ++ ascii " 2>/dev/null")

def countFiles (path : Bytes) (st : HostState) : ℕ :=
  (firstNumber (m.captured (ascii "find " ++ Env.quote path ++ ascii " -type f | wc -l") st)).getD 0

def gitState (path : Bytes) (st : HostState) : Option GitState :=
  if m.isDir (path ++ ascii "/.git") st = false then none
  else
    let git := fun command : String ↦
      m.captured (ascii "git -C " ++ Env.quote path ++ ascii command) st
    let dirty := (git " status --porcelain").any fun c ↦ !isLuaSpace c
    match firstWord (git " remote") with
    | none => some { dirty, unpushed := 0, remote := none, noUpstream := false }
    | some remote =>
      match firstNumber (git " rev-list --count @\x7bupstream\x7d..HEAD") with
      | some ahead => some { dirty, unpushed := ahead, remote := some remote, noUpstream := false }
      | none => some
          { dirty
            unpushed := (firstNumber (git " rev-list --count HEAD")).getD 0
            remote := some remote
            noUpstream := true }

/-- `add` of `survey` -/
def surveyed (path label : Bytes) (st : HostState) : List SurveyEntry :=
  if m.isDir path st = false then []
  else [{ path, label, files := m.countFiles path st, git := m.gitState path st }]

/-- The names that `ls -1` lists in a tier. -/
def listed (root tier : Bytes) (st : HostState) : List Bytes :=
  lines (m.captured (ascii "ls -1 " ++ Env.quote (root ++ ascii "/" ++ tier)) st)

def surveyTier (root tier : Bytes) (st : HostState) : List SurveyEntry :=
  (m.listed root tier st).flatMap fun line ↦
    m.surveyed (tierPath root tier line) (tier ++ ascii "/" ++ line) st

def survey (root : Bytes) (st : HostState) : Scope → List SurveyEntry
  | .workspace name => tiers.flatMap fun tier ↦
      m.surveyed (tierPath root tier name) (tier ++ ascii "/" ++ name) st
  | .sandbox => m.surveyTier root (ascii "sandbox") st
  | .environment => (tiers.flatMap fun tier ↦ m.surveyTier root tier st) ++
      m.surveyed (root ++ ascii "/.sqpg") (ascii ".sqpg (the installed tool)") st

end Machine

def luaBoolean (b : Bool) : Bytes := ascii (if b then "true" else "false")

/-- The text that `token_for` hashes. -/
def tokenMaterial (entries : List SurveyEntry) (scope : Scope) : Bytes :=
  entries.foldl (fun material e ↦ material ++ ascii "|" ++ e.path ++ ascii ":" ++ decimal e.files ++
    match e.git with
    | none => []
    | some git => ascii ":" ++ luaBoolean git.dirty ++ ascii ":" ++ decimal git.unpushed ++
        ascii ":" ++ git.remote.getD (ascii "nil")) scope.text

def fnv (text : Bytes) : UInt32 :=
  text.foldl (fun hash c ↦ (hash ^^^ c.toUInt32) * 16777619) 2166136261

def tokenFor (entries : List SurveyEntry) (scope : Scope) : Bytes :=
  let hash := fnv (tokenMaterial entries scope)
  (List.range 8).map fun i ↦ hexDigit (hash.toNat / 16 ^ (7 - i) % 16)

namespace Machine

variable (m : Machine)

def removeEntries (entries : List SurveyEntry) (st : HostState) : ℕ × HostState :=
  entries.foldl (fun (removed, st) e ↦
    match m.run (ascii "rm -rf " ++ Env.quote e.path) st with
    | (true, st') => (removed + 1, st')
    | (false, st') => (removed, st')) (0, st)

/-- `destruct.run`; `typed` is the line that `io.read` answers. -/
def selfdestruct (options : DestructOptions) (typed : Option Bytes) (st : HostState) :
    ℕ × HostState :=
  match m.root with
  | none => (1, st)
  | some declared =>
    let root := options.root.getD declared
    if m.initialised root st = false then (1, st)
    else
      match options.scope with
      | none => (2, st)
      | some scope =>
        let entries := m.survey root st scope
        if entries = [] then (1, st)
        else if options.confirm ≠ some (tokenFor entries scope) then (1, st)
        else if typed ≠ some scope.phrase then (1, st)
        else
          let st := (m.removeEntries entries st).2
          match scope with
          | .workspace _ => (0, st)
          | .sandbox => (0, (m.mkdirP (root ++ ascii "/sandbox") st).2)
          | .environment =>
            (0, (m.mkdirP (root ++ ascii "/project") (m.mkdirP (root ++ ascii "/sandbox") st).2).2)

end Machine

end SquaredPg
