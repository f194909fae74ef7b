import SquaredPg.Program
import Mathlib.Data.Nat.Notation

namespace Program

variable {Op : Type} {Ans Raw : Op → Type} {ε α : Type}

section Runs

variable (reply : (op : Op) → Raw op → Option (Ans op)) (outcomes : ℕ → (op : Op) → Raw op)

/-- The run in which the `n`th call comes out below as `outcomes n` says, and throws where that
has no reply. An exception ends the run without a result. -/
def runThrowing : ℕ → Program Op Ans ε α → Option (Except ε α)
  | _, done a => some (.ok a)
  | _, fail e => some (.error e)
  | n, call op next => (reply op (outcomes n op)).bind fun r ↦ runThrowing (n + 1) (next r)

/-- The calls of that run with what they come to, the one that throws included. -/
def met : ℕ → Program Op Ans ε α → List ((op : Op) × Raw op)
  | _, done _ => []
  | _, fail _ => []
  | n, call op next =>
    ⟨op, outcomes n op⟩ :: (reply op (outcomes n op)).elim [] fun r ↦ met (n + 1) (next r)

end Runs

variable {reply : (op : Op) → Raw op → Option (Ans op)} {outcomes : ℕ → (op : Op) → Raw op}

theorem runThrowing_isSome {p : Program Op Ans ε α} {n : ℕ} :
    (p.runThrowing reply outcomes n).isSome = true ↔
      ∀ call ∈ p.met reply outcomes n, (reply call.1 call.2).isSome = true := by
  induction p generalizing n with
  | done a => simp [runThrowing, met]
  | fail e => simp [runThrowing, met]
  | call op next ih =>
    rw [runThrowing, met, List.forall_mem_cons]
    cases hreply : reply op (outcomes n op) with
    | none => simp
    | some r => simpa using ih r

theorem met_of_callsOnly {Q : Op → Prop} {p : Program Op Ans ε α} (h : p.CallsOnly Q) {n : ℕ} :
    ∀ call ∈ p.met reply outcomes n, Q call.1 := by
  induction p generalizing n with
  | done a => simp [met]
  | fail e => simp [met]
  | call op next ih =>
    rw [met, List.forall_mem_cons]
    refine ⟨h.1, ?_⟩
    cases reply op (outcomes n op) with
    | none => simp
    | some r => exact ih r (h.2 r)

theorem exec_of_runThrowing {p : Program Op Ans ε α} {n : ℕ} {out : Except ε α}
    (h : p.runThrowing reply outcomes n = some out) :
    Exec (fun _ _ _ _ ↦ True) p () (.ofExcept out) () := by
  induction p generalizing n with
  | done a =>
    cases h
    exact .done a ()
  | fail e =>
    cases h
    exact .fail e ()
  | call op next ih =>
    obtain ⟨r, -, hrest⟩ := Option.bind_eq_some_iff.mp h
    exact .call trivial (ih r hrest)

section States

variable {ε' β S : Type} {perform : (op : Op) → S → Option (Ans op) × S}

/-- The run against surroundings in which a call may throw, which ends it without a result. -/
def runUntilThrow (perform : (op : Op) → S → Option (Ans op) × S) :
    Program Op Ans ε α → S → Option (Except ε α) × S
  | done a, s => (some (.ok a), s)
  | fail e, s => (some (.error e), s)
  | call op next, s =>
    match perform op s with
    | (none, s') => (none, s')
    | (some r, s') => (next r).runUntilThrow perform s'

theorem runUntilThrow_bind (p : Program Op Ans ε α) (f : α → Program Op Ans ε β) (s : S) :
    (p >>= f).runUntilThrow perform s =
      match p.runUntilThrow perform s with
      | (some (.ok a), s') => (f a).runUntilThrow perform s'
      | (some (.error e), s') => (some (.error e), s')
      | (none, s') => (none, s') := by
  induction p generalizing s with
  | done a => rfl
  | fail e => rfl
  | call op next ih =>
    rw [call_bind, runUntilThrow, runUntilThrow]
    rcases perform op s with ⟨_ | r, s'⟩
    · rfl
    · exact ih r s'

theorem runUntilThrow_attempt (p : Program Op Ans ε α) (s : S) :
    (p.attempt : Program Op Ans ε' (Except ε α)).runUntilThrow perform s =
      ((p.runUntilThrow perform s).1.map .ok, (p.runUntilThrow perform s).2) := by
  induction p generalizing s with
  | done a => rfl
  | fail e => rfl
  | call op next ih =>
    rw [attempt, runUntilThrow, runUntilThrow]
    rcases perform op s with ⟨_ | r, s'⟩
    · rfl
    · exact ih r s'

end States

end Program
