import SquaredPg.Lua
import SquaredPg.Shell

namespace SquaredPg

namespace Env

def escape (c : UInt8) : Bytes :=
  if c = Shell.apostrophe then
    [Shell.apostrophe, Ascii.backslash, Shell.apostrophe, Shell.apostrophe]
  else [c]

def quote (path : Bytes) : Bytes :=
  Shell.apostrophe :: path.flatMap escape ++ [Shell.apostrophe]

end Env

open Shell (Token literal evaluate endsWord apostrophe)

variable (rules : Shell.Rules)

theorem run_escape (st : Shell.State) (w : Shell.Word) (s : Bytes) :
    Shell.State.run rules { st with mode := .single w } (s.flatMap Env.escape) =
      { st with mode := .single (w ++ literal s) } := by
  induction s generalizing w with
  | nil => simp [literal]
  | cons c s ih =>
    have hc : Shell.State.run rules { st with mode := .single w } (Env.escape c) =
        { st with mode := .single (w ++ [.char c .full]) } := by
      unfold Env.escape
      split
      · next h => subst h; rfl
      · next h => exact Shell.State.step_single rules h
    rw [List.flatMap_cons, Shell.State.run_append, hc, ih, Shell.literal_cons, List.append_assoc]
    rfl

theorem run_quote {st st' : Shell.State} (h : st.ready = some st') (s : Bytes) :
    Shell.State.run rules st (Env.quote s) = { st' with mode := .word (literal s) } := by
  rw [Env.quote, List.cons_append, Shell.State.run_cons, Shell.State.step_ready rules h,
    Shell.State.run_append, run_escape]
  rfl

theorem quote_no_nul {s : Bytes} (h : (0 : UInt8) ∉ s) : (0 : UInt8) ∉ Env.quote s := by
  have hs : ∀ c ∈ s, (0 : UInt8) ∉ Env.escape c := by
    intro c hc h0
    unfold Env.escape at h0
    split at h0
    · revert h0; decide
    · rw [List.mem_singleton] at h0
      exact h (h0 ▸ hc)
  have hne : (0 : UInt8) ≠ apostrophe := by decide
  simpa [Env.quote, hne] using hs

/-- What a shell reads where a token is about to start: the quoted text is one word and what is
around it is read as if that word stood there; the word is the text, whatever the environment. -/
theorem shell_reads_quote {s before after : Bytes} {st : Shell.State} (hs : (0 : UInt8) ∉ s)
    (hbefore : (0 : UInt8) ∉ before) (hafter : (0 : UInt8) ∉ after)
    (hready : (Shell.State.run rules {} before).ready = some st) (hends : endsWord after = true) :
    Shell.read rules (cString (before ++ Env.quote s ++ after)) =
        (Shell.State.run rules (st.emit (.word (literal s))) after).finish ∧
      ∀ env, evaluate env (literal s) = [s] := by
  refine ⟨?_, fun env ↦ Shell.evaluate_literal env s⟩
  have hnul : (0 : UInt8) ∉ before ++ Env.quote s ++ after := by
    simp [hbefore, hafter, quote_no_nul hs]
  rw [cString_of_not_mem hnul, Shell.read, Shell.State.run_append, Shell.State.run_append,
    run_quote rules hready, Shell.State.finish_word rules st (Shell.literal_not_descriptor s) hends]

/-- A removal of a directory whose name holds a quote, a substitution and a redirection. -/
theorem shell_reads_quote_removal :
    Shell.read ⟨fun _ _ ↦ none⟩ (cString (ascii "rm -rf " ++ Env.quote (ascii "it's $(x) >y") ++
      ascii " 2>/dev/null")) =
      some [.word ((ascii "rm").map fun c ↦ .char c .bare),
        .word ((ascii "-rf").map fun c ↦ .char c .bare), .word (literal (ascii "it's $(x) >y")),
        .ioNumber ((ascii "2").map fun c ↦ .char c .bare), .operator (ascii ">"),
        .word ((ascii "/dev/null").map fun c ↦ .char c .bare)] ∧
      ∀ env, evaluate env (literal (ascii "it's $(x) >y")) = [ascii "it's $(x) >y"] :=
  shell_reads_quote ⟨fun _ _ ↦ none⟩ (s := ascii "it's $(x) >y") (by decide)
    (show (0 : UInt8) ∉ ascii "rm -rf " by decide)
    (show (0 : UInt8) ∉ ascii " 2>/dev/null" by decide) rfl rfl

end SquaredPg
