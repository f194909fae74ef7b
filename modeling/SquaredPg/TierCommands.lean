import SquaredPg.Destruct

namespace SquaredPg

open Ascii

theorem cString_append {before : Bytes} (h : (0 : UInt8) ∉ before) (after : Bytes) :
    cString (before ++ after) = before ++ cString after := by
  refine List.takeWhile_append_of_pos fun c hc ↦ ?_
  have hne : c ≠ 0 := fun h0 ↦ h (h0 ▸ hc)
  simpa using hne

theorem cString_escape {s : Bytes} (h : (0 : UInt8) ∈ s) (after : Bytes) :
    cString (s.flatMap Env.escape ++ after) = (cString s).flatMap Env.escape := by
  induction s with
  | nil => cases h
  | cons c s ih =>
    by_cases hc : c = 0
    · subst hc
      rfl
    · have hin : (0 : UInt8) ∈ s := by simpa [Ne.symm hc] using h
      have hnul : (0 : UInt8) ∉ Env.escape c := by
        unfold Env.escape
        split
        · decide
        · simpa using Ne.symm hc
      have hcut : cString (c :: s) = c :: cString s := by simp [cString, hc]
      rw [List.flatMap_cons, List.append_assoc, cString_append hnul, ih hin, hcut, List.flatMap_cons]

namespace Machine

variable {m : Machine} {before path : Bytes} {ws : List Bytes}

def Prepares (m : Machine) (before : Bytes) (ws : List Bytes) : Prop :=
  (0 : UInt8) ∉ before ∧ ∃ tokens, Shell.State.run m.rules {} before = { tokens } ∧
    Shell.arguments m.environment tokens = some ws

theorem words_of_nul (h : m.Prepares before ws) (hpath : (0 : UInt8) ∈ path) (after : Bytes) :
    m.words (before ++ Env.quote path ++ after) = none := by
  obtain ⟨hnul, tokens, hrun, -⟩ := h
  have hquote : (0 : UInt8) ∉ [Shell.apostrophe] := by decide
  have hcut : cString (before ++ Env.quote path ++ after) =
      before ++ ([Shell.apostrophe] ++ (cString path).flatMap Env.escape) := by
    rw [List.append_assoc, cString_append hnul, ← cString_escape hpath ([Shell.apostrophe] ++ after),
      ← cString_append hquote]
    simp [Env.quote]
  have hread : Shell.read m.rules (cString (before ++ Env.quote path ++ after)) = none := by
    rw [hcut, Shell.read, Shell.State.run_append, hrun]
    exact congrArg Shell.State.finish (run_escape m.rules { tokens } [] (cString path))
  rw [words, hread]
  rfl

theorem arguments_concat (env : Shell.Environment) (tokens : List Shell.Token) (text : Bytes) :
    Shell.arguments env (tokens ++ [.word (Shell.literal text)]) =
      (Shell.arguments env tokens).map fun ws ↦ ws ++ [text] := by
  induction tokens with
  | nil => simp [Shell.arguments, Shell.evaluate_literal]
  | cons token tokens ih =>
    cases token with
    | word w =>
      rw [List.cons_append, Shell.arguments, ih, Shell.arguments]
      cases Shell.arguments env tokens <;> simp
    | _ => rfl

theorem Prepares.words (h : m.Prepares before ws) (hpath : (0 : UInt8) ∉ path) :
    m.words (before ++ Env.quote path) = some (ws ++ [path]) := by
  obtain ⟨hnul, tokens, hrun, hargs⟩ := h
  have hcommand : (0 : UInt8) ∉ before ++ Env.quote path := by simp [hnul, quote_no_nul hpath]
  have hready : Shell.State.ready { tokens } = some { tokens } := rfl
  have hquote := run_quote m.rules hready path
  have hread : Shell.read m.rules (cString (before ++ Env.quote path)) =
      some (tokens ++ [.word (Shell.literal path)]) := by
    rw [cString_of_not_mem hcommand, Shell.read, Shell.State.run_append, hrun, hquote]
    rfl
  rw [Machine.words, hread, Option.bind_some, arguments_concat, hargs]
  rfl

theorem Prepares.next (h : m.Prepares before ws) (hpath : (0 : UInt8) ∉ path) :
    m.Prepares (before ++ Env.quote path ++ ascii " ") (ws ++ [path]) := by
  obtain ⟨hnul, tokens, hrun, hargs⟩ := h
  have hblank : (0 : UInt8) ∉ ascii " " := by decide
  refine ⟨by simp [hnul, quote_no_nul hpath, hblank],
    tokens ++ [.word (Shell.literal path)], ?_, ?_⟩
  · have hready : Shell.State.ready { tokens } = some { tokens } := rfl
    rw [Shell.State.run_append, Shell.State.run_append, hrun, run_quote m.rules hready path]
    rfl
  · rw [arguments_concat, hargs]
    rfl

theorem prepares_test_d : m.Prepares (ascii "test -d ") [ascii "test", ascii "-d"] :=
  ⟨by decide, _, rfl, rfl⟩

theorem prepares_test_e : m.Prepares (ascii "test -e ") [ascii "test", ascii "-e"] :=
  ⟨by decide, _, rfl, rfl⟩

theorem prepares_rm : m.Prepares (ascii "rm -rf ") [ascii "rm", ascii "-rf"] :=
  ⟨by decide, _, rfl, rfl⟩

theorem prepares_cp : m.Prepares (ascii "cp -a ") [ascii "cp", ascii "-a"] :=
  ⟨by decide, _, rfl, rfl⟩

variable (m)

theorem run_of_words {command : Bytes} (h : m.words command = some ws) (st : HostState) :
    m.run command st = m.execute ws st := by
  rw [run, h]

theorem run_of_nul {command : Bytes} (h : m.words command = none) (st : HostState) :
    m.run command st = (false, st) := by
  rw [run, h]

theorem execute_test_d (path : Bytes) (st : HostState) :
    m.execute [ascii "test", ascii "-d", path] st = (m.isDirectory path st.fs, st) := rfl

theorem execute_test_e (path : Bytes) (st : HostState) :
    m.execute [ascii "test", ascii "-e", path] st = (m.existsAt path st.fs, st) := rfl

theorem execute_rm (path : Bytes) (st : HostState) :
    m.execute [ascii "rm", ascii "-rf", path] st = m.rm path st := rfl

theorem execute_cp (source target : Bytes) (st : HostState) :
    m.execute [ascii "cp", ascii "-a", source, target] st = m.cp source target st := rfl

theorem isDir_eq (path : Bytes) (st : HostState) :
    m.isDir path st = (decide ((0 : UInt8) ∉ path) && m.isDirectory path st.fs) := by
  by_cases hpath : (0 : UInt8) ∈ path
  · have hnone := words_of_nul (m := m) prepares_test_d hpath []
    rw [List.append_nil] at hnone
    rw [isDir, run_of_nul m hnone]
    simp [hpath]
  · rw [isDir, run_of_words m (prepares_test_d.words hpath), List.cons_append, List.cons_append,
      List.nil_append, execute_test_d]
    simp [hpath]

theorem exists_eq {path : Bytes} (hpath : (0 : UInt8) ∉ path) (st : HostState) :
    m.exists_ path st = m.existsAt path st.fs := by
  rw [exists_, cString_of_not_mem hpath, run_of_words m (prepares_test_e.words hpath),
    List.cons_append, List.cons_append, List.nil_append, execute_test_e, Bool.or_self]

theorem run_rm (path : Bytes) (st : HostState) : m.run (ascii "rm -rf " ++ Env.quote path) st =
    if (0 : UInt8) ∈ path then (false, st) else m.rm path st := by
  split_ifs with hpath
  · have hnone := words_of_nul (m := m) prepares_rm hpath []
    rw [List.append_nil] at hnone
    exact run_of_nul m hnone st
  · rw [run_of_words m (prepares_rm.words hpath), List.cons_append, List.cons_append,
      List.nil_append, execute_rm]

theorem run_cp (source target : Bytes) (st : HostState) :
    m.run (ascii "cp -a " ++ Env.quote source ++ ascii " " ++ Env.quote target) st =
      if (0 : UInt8) ∈ source ∨ (0 : UInt8) ∈ target then (false, st)
      else m.cp source target st := by
  by_cases hsource : (0 : UInt8) ∈ source
  · have hnone := words_of_nul (m := m) prepares_cp hsource (ascii " " ++ Env.quote target)
    rw [← List.append_assoc] at hnone
    rw [if_pos (.inl hsource), run_of_nul m hnone]
  · have hready := (prepares_cp (m := m)).next hsource
    split_ifs with hnul
    · have hnone := words_of_nul hready (hnul.resolve_left hsource) []
      rw [List.append_nil] at hnone
      exact run_of_nul m hnone st
    · rw [run_of_words m (hready.words fun h ↦ hnul (.inr h))]
      exact execute_cp m source target st

end Machine

end SquaredPg
