import Mathlib.Logic.Basic

/-- A program that ends in a value or an error after calls of operations with typed answers. -/
inductive Program (Op : Type) (Ans : Op → Type) (ε α : Type)
  | done (a : α)
  | fail (e : ε)
  | call (op : Op) (next : Ans op → Program Op Ans ε α)

namespace Program

variable {Op : Type} {Ans : Op → Type} {ε ε' α β σ S : Type}

def bind : Program Op Ans ε α → (α → Program Op Ans ε β) → Program Op Ans ε β
  | done a, f => f a
  | fail e, _ => fail e
  | call op next, f => call op fun r ↦ (next r).bind f

def handle : Program Op Ans ε α → (ε → Program Op Ans ε' α) → Program Op Ans ε' α
  | done a, _ => done a
  | fail e, h => h e
  | call op next, h => call op fun r ↦ (next r).handle h

def attempt : Program Op Ans ε α → Program Op Ans ε' (Except ε α)
  | done a => done (.ok a)
  | fail e => done (.error e)
  | call op next => call op fun r ↦ (next r).attempt

instance : Monad (Program Op Ans ε) where
  pure := done
  bind := bind

def request (op : Op) : Program Op Ans ε (Ans op) := call op done

@[simp] theorem pure_eq (a : α) : (pure a : Program Op Ans ε α) = done a := rfl

@[simp] theorem done_bind (a : α) (f : α → Program Op Ans ε β) : done a >>= f = f a := rfl

@[simp] theorem fail_bind (e : ε) (f : α → Program Op Ans ε β) : fail e >>= f = fail e := rfl

@[simp] theorem call_bind (op : Op) (next : Ans op → Program Op Ans ε α)
    (f : α → Program Op Ans ε β) : call op next >>= f = call op fun r ↦ next r >>= f := rfl

@[simp] theorem request_bind (op : Op) (f : Ans op → Program Op Ans ε β) :
    request op >>= f = call op f := rfl

theorem bind_assoc {γ : Type} (p : Program Op Ans ε α) (f : α → Program Op Ans ε β)
    (g : β → Program Op Ans ε γ) : p >>= f >>= g = p >>= fun a ↦ f a >>= g := by
  induction p with
  | done a => rfl
  | fail e => rfl
  | call op next ih => exact congrArg (call op) (funext ih)

/-- The run against surroundings that answer every operation. -/
def run (perform : (op : Op) → S → Ans op × S) : Program Op Ans ε α → S → Except ε α × S
  | done a, s => (.ok a, s)
  | fail e, s => (.error e, s)
  | call op next, s => (next (perform op s).1).run perform (perform op s).2

section Run

variable {perform : (op : Op) → S → Ans op × S}

theorem run_bind (p : Program Op Ans ε α) (f : α → Program Op Ans ε β) (s : S) :
    (p >>= f).run perform s =
      match p.run perform s with
      | (.ok a, s') => (f a).run perform s'
      | (.error e, s') => (.error e, s') := by
  induction p generalizing s with
  | done a => rfl
  | fail e => rfl
  | call op next ih => exact ih _ _

theorem run_bind_ok {p : Program Op Ans ε α} {f : α → Program Op Ans ε β} {s s' : S} {b : β} :
    (p >>= f).run perform s = (.ok b, s') ↔
      ∃ a s₁, p.run perform s = (.ok a, s₁) ∧ (f a).run perform s₁ = (.ok b, s') := by
  rw [run_bind]
  rcases p.run perform s with ⟨_ | a, s₁⟩
  · simp
  · constructor
    · exact fun h ↦ ⟨a, s₁, rfl, h⟩
    · rintro ⟨a', s₂, heq, h⟩
      cases heq
      exact h

theorem run_handle (p : Program Op Ans ε α) (h : ε → Program Op Ans ε' α) (s : S) :
    (p.handle h).run perform s =
      match p.run perform s with
      | (.ok a, s') => (.ok a, s')
      | (.error e, s') => (h e).run perform s' := by
  induction p generalizing s with
  | done a => rfl
  | fail e => rfl
  | call op next ih => exact ih _ _

theorem run_attempt (p : Program Op Ans ε α) (s : S) :
    (p.attempt : Program Op Ans ε' (Except ε α)).run perform s =
      (.ok (p.run perform s).1, (p.run perform s).2) := by
  induction p generalizing s with
  | done a => rfl
  | fail e => rfl
  | call op next ih => exact ih _ _

end Run

def pending : Program Op Ans ε α → Option Op
  | done _ => none
  | fail _ => none
  | call op _ => some op

/-- What is left of the program after its next call, and the state after it. -/
def advance (perform : (op : Op) → S → Ans op × S) :
    Program Op Ans ε α → S → Program Op Ans ε α × S
  | done a, s => (done a, s)
  | fail e, s => (fail e, s)
  | call op next, s => (next (perform op s).1, (perform op s).2)

/-- The program has ended in a value. -/
def succeeded : Program Op Ans ε α → Bool
  | done _ => true
  | fail _ => false
  | call _ _ => false

theorem exists_of_succeeded {p : Program Op Ans ε α} (h : p.succeeded = true) : ∃ a, p = done a := by
  cases p with
  | done a => exact ⟨a, rfl⟩
  | fail e => cases h
  | call op next => cases h

inductive Outcome (ε α : Type)
  | ok (a : α)
  | error (e : ε)
  | stopped

def Outcome.ofExcept : Except ε α → Outcome ε α
  | .ok a => ok a
  | .error e => error e

def Outcome.Meets (ok : α → S → Prop) (err : ε → S → Prop) (stop : S → Prop) :
    Outcome ε α → S → Prop
  | .ok a, s => ok a s
  | .error e, s => err e s
  | .stopped, s => stop s

/-- A run in which each operation behaves as `step` allows. An operation without an answer is
one during which the process stops; it may also stop before one. -/
inductive Exec (step : (op : Op) → S → Option (Ans op) → S → Prop) :
    Program Op Ans ε α → S → Outcome ε α → S → Prop
  | done (a : α) (s : S) : Exec step (done a) s (.ok a) s
  | fail (e : ε) (s : S) : Exec step (fail e) s (.error e) s
  | stop (op : Op) (next : Ans op → Program Op Ans ε α) (s : S) : Exec step (call op next) s .stopped s
  | cut {op : Op} {next : Ans op → Program Op Ans ε α} {s s' : S} :
      step op s none s' → Exec step (call op next) s .stopped s'
  | call {op : Op} {next : Ans op → Program Op Ans ε α} {s s' s'' : S} {r : Ans op}
      {out : Outcome ε α} :
      step op s (some r) s' → Exec step (next r) s' out s'' → Exec step (call op next) s out s''

/-- What has to hold before a program for `ok`, `err` and `stop` to hold of every run of it. -/
def wp (step : (op : Op) → S → Option (Ans op) → S → Prop) (ok : α → S → Prop) (err : ε → S → Prop)
    (stop : S → Prop) : Program Op Ans ε α → S → Prop
  | done a, s => ok a s
  | fail e, s => err e s
  | call op next, s => stop s ∧ ∀ r s', step op s r s' →
      match r with
      | none => stop s'
      | some r => (next r).wp step ok err stop s'

section Rules

variable {step step' : (op : Op) → S → Option (Ans op) → S → Prop} {ok : α → S → Prop}
  {err : ε → S → Prop} {stop : S → Prop} {s s' : S}

@[simp] theorem wp_done (a : α) : (done a : Program Op Ans ε α).wp step ok err stop s ↔ ok a s :=
  Iff.rfl

@[simp] theorem wp_fail (e : ε) : (fail e : Program Op Ans ε α).wp step ok err stop s ↔ err e s :=
  Iff.rfl

theorem wp_call {op : Op} {next : Ans op → Program Op Ans ε α} (hs : stop s)
    (hcut : ∀ s', step op s none s' → stop s')
    (hnext : ∀ r s', step op s (some r) s' → (next r).wp step ok err stop s') :
    (call op next).wp step ok err stop s := by
  refine ⟨hs, fun r s' h ↦ ?_⟩
  cases r with
  | none => exact hcut s' h
  | some r => exact hnext r s' h

theorem wp_call_congr {op : Op} {p : Ans op → Program Op Ans ε α} {q : Ans op → Program Op Ans ε' β}
    {ok' : β → S → Prop} {err' : ε' → S → Prop}
    (h : ∀ r s', (p r).wp step ok err stop s' ↔ (q r).wp step ok' err' stop s') :
    (call op p).wp step ok err stop s ↔ (call op q).wp step ok' err' stop s := by
  refine and_congr_right fun _ ↦ forall_congr' fun r ↦ forall_congr' fun s' ↦ ?_
  refine imp_congr_right fun _ ↦ ?_
  cases r with
  | none => rfl
  | some r => exact h r s'

theorem wp_bind (p : Program Op Ans ε α) (f : α → Program Op Ans ε β) {ok : β → S → Prop} :
    (p >>= f).wp step ok err stop s ↔
      p.wp step (fun a s ↦ (f a).wp step ok err stop s) err stop s := by
  induction p generalizing s with
  | done a => rfl
  | fail e => rfl
  | call op next ih => exact wp_call_congr fun r _ ↦ ih r

theorem wp_handle (p : Program Op Ans ε α) (h : ε → Program Op Ans ε' α) {err : ε' → S → Prop} :
    (p.handle h).wp step ok err stop s ↔
      p.wp step ok (fun e s ↦ (h e).wp step ok err stop s) stop s := by
  induction p generalizing s with
  | done a => rfl
  | fail e => rfl
  | call op next ih => exact wp_call_congr fun r _ ↦ ih r

theorem wp_attempt (p : Program Op Ans ε α) {ok : Except ε α → S → Prop} {err : ε' → S → Prop} :
    (p.attempt : Program Op Ans ε' (Except ε α)).wp step ok err stop s ↔
      p.wp step (fun a s ↦ ok (.ok a) s) (fun e s ↦ ok (.error e) s) stop s := by
  induction p generalizing s with
  | done a => rfl
  | fail e => rfl
  | call op next ih => exact wp_call_congr fun r _ ↦ ih r

theorem wp_mono {ok' : α → S → Prop} {err' : ε → S → Prop} {stop' : S → Prop}
    {p : Program Op Ans ε α} (h : p.wp step ok err stop s) (hok : ∀ a s, ok a s → ok' a s)
    (herr : ∀ e s, err e s → err' e s) (hstop : ∀ s, stop s → stop' s) :
    p.wp step ok' err' stop' s := by
  induction p generalizing s with
  | done a => exact hok a s h
  | fail e => exact herr e s h
  | call op next ih =>
    refine wp_call (hstop s h.1) (fun s' hs' ↦ hstop s' (h.2 none s' hs')) fun r s' hs' ↦ ?_
    exact ih r (h.2 (some r) s' hs')

theorem wp_always (hok : ∀ a s, ok a s) (herr : ∀ e s, err e s) (hstop : ∀ s, stop s)
    (p : Program Op Ans ε α) (s : S) : p.wp step ok err stop s := by
  induction p generalizing s with
  | done a => exact hok a s
  | fail e => exact herr e s
  | call op next ih => exact wp_call (hstop s) (fun s' _ ↦ hstop s') fun r s' _ ↦ ih r s'

theorem wp_foldlM {f : σ → α → Program Op Ans ε σ} {I : List α → σ → S → Prop} {items : List α}
    {acc : σ} (hround : ∀ before a acc s, a ∈ items → I before acc s →
      (f acc a).wp step (fun acc' s' ↦ I (before ++ [a]) acc' s') err stop s)
    (h : I [] acc s) :
    (items.foldlM f acc).wp step (fun acc' s' ↦ I items acc' s') err stop s := by
  have hloop : ∀ (rest before : List α) (acc : σ) (s : S), (∀ a ∈ rest, a ∈ items) →
      I before acc s →
      (rest.foldlM f acc).wp step (fun acc' s' ↦ I (before ++ rest) acc' s') err stop s := by
    intro rest
    induction rest with
    | nil =>
      intro before acc s _ hs
      simpa using hs
    | cons a rest ih =>
      intro before acc s hmem hs
      rw [List.foldlM_cons, wp_bind]
      refine wp_mono (hround before a acc s (hmem a (by simp)) hs) (fun acc' s' hs' ↦ ?_)
        (fun _ _ h ↦ h) fun _ h ↦ h
      simpa using ih (before ++ [a]) acc' s' (fun b hb ↦ hmem b (by simp [hb])) hs'
  simpa using hloop items [] acc s (fun _ ha ↦ ha) h

theorem stop_of_wp {p : Program Op Ans ε α} (h : p.wp step ok err stop s)
    (hok : ∀ a, ok a s → stop s) (herr : ∀ e, err e s → stop s) : stop s := by
  cases p with
  | done a => exact hok a h
  | fail e => exact herr e h
  | call op next => exact h.1

theorem Exec.of_done {a : α} {out : Outcome ε α} (h : Exec step (Program.done a) s out s') :
    out = .ok a ∧ s' = s := by
  cases h
  exact ⟨rfl, rfl⟩

theorem Exec.sound {p : Program Op Ans ε α} {out : Outcome ε α} (h : Exec step p s out s')
    (hp : p.wp step ok err stop s) : out.Meets ok err stop s' := by
  induction h with
  | done a s => exact hp
  | fail e s => exact hp
  | stop op next s => exact hp.1
  | cut hstep => exact hp.2 none _ hstep
  | call hstep _ ih => exact ih (hp.2 (some _) _ hstep)

theorem exec_run {perform : (op : Op) → S → Ans op × S}
    (h : ∀ op s, step op s (some (perform op s).1) (perform op s).2) (p : Program Op Ans ε α)
    (s : S) :
    Exec step p s (.ofExcept (p.run perform s).1) (p.run perform s).2 := by
  induction p generalizing s with
  | done a => exact .done a s
  | fail e => exact .fail e s
  | call op next ih => exact .call (h op s) (ih _ _)

end Rules

/-- Every error the program can end in, whatever the answers, is as `Q` says. -/
def FailsWith (Q : ε → Prop) : Program Op Ans ε α → Prop
  | done _ => True
  | fail e => Q e
  | call _ next => ∀ r, (next r).FailsWith Q

section Errors

variable {Q : ε → Prop}

theorem failsWith_bind {p : Program Op Ans ε α} {f : α → Program Op Ans ε β}
    (hp : p.FailsWith Q) (hf : ∀ a, (f a).FailsWith Q) : (p >>= f).FailsWith Q := by
  induction p with
  | done a => exact hf a
  | fail e => exact hp
  | call op next ih => exact fun r ↦ ih r (hp r)

theorem failsWith_handle {R : ε' → Prop} {p : Program Op Ans ε α} {h : ε → Program Op Ans ε' α}
    (hp : p.FailsWith Q) (hh : ∀ e, Q e → (h e).FailsWith R) : (p.handle h).FailsWith R := by
  induction p with
  | done a => trivial
  | fail e => exact hh e hp
  | call op next ih => exact fun r ↦ ih r (hp r)

theorem failsWith_foldlM {f : σ → α → Program Op Ans ε σ} (hf : ∀ acc a, (f acc a).FailsWith Q)
    (items : List α) (acc : σ) : (items.foldlM f acc).FailsWith Q := by
  induction items generalizing acc with
  | nil => trivial
  | cons a items ih => exact failsWith_bind (hf acc a) ih

theorem FailsWith.run {perform : (op : Op) → S → Ans op × S} {p : Program Op Ans ε α} {s s' : S}
    {e : ε} (hp : p.FailsWith Q) (h : p.run perform s = (.error e, s')) : Q e := by
  induction p generalizing s with
  | done a => cases h
  | fail e' =>
    cases h
    exact hp
  | call op next ih => exact ih _ (hp _) h

end Errors

/-- Every call that the program can make, whatever the answers, is as `Q` says. -/
def CallsOnly (Q : Op → Prop) : Program Op Ans ε α → Prop
  | done _ => True
  | fail _ => True
  | call op next => Q op ∧ ∀ r, (next r).CallsOnly Q

section Calls

variable {Q : Op → Prop}

theorem callsOnly_bind {p : Program Op Ans ε α} {f : α → Program Op Ans ε β} (hp : p.CallsOnly Q)
    (hf : ∀ a, (f a).CallsOnly Q) : (p >>= f).CallsOnly Q := by
  induction p with
  | done a => exact hf a
  | fail e => trivial
  | call op next ih => exact ⟨hp.1, fun r ↦ ih r (hp.2 r)⟩

theorem callsOnly_handle {p : Program Op Ans ε α} {h : ε → Program Op Ans ε' α}
    (hp : p.CallsOnly Q) (hh : ∀ e, (h e).CallsOnly Q) : (p.handle h).CallsOnly Q := by
  induction p with
  | done a => trivial
  | fail e => exact hh e
  | call op next ih => exact ⟨hp.1, fun r ↦ ih r (hp.2 r)⟩

theorem callsOnly_attempt {p : Program Op Ans ε α} (hp : p.CallsOnly Q) :
    (p.attempt : Program Op Ans ε' (Except ε α)).CallsOnly Q := by
  induction p with
  | done a => trivial
  | fail e => trivial
  | call op next ih => exact ⟨hp.1, fun r ↦ ih r (hp.2 r)⟩

theorem CallsOnly.mono {Q' : Op → Prop} (h : ∀ op, Q op → Q' op) {p : Program Op Ans ε α}
    (hp : p.CallsOnly Q) : p.CallsOnly Q' := by
  induction p with
  | done a => trivial
  | fail e => trivial
  | call op next ih => exact ⟨h op hp.1, fun r ↦ ih r (hp.2 r)⟩

theorem callsOnly_foldlM {f : σ → α → Program Op Ans ε σ} (hf : ∀ acc a, (f acc a).CallsOnly Q)
    (items : List α) (acc : σ) : (items.foldlM f acc).CallsOnly Q := by
  induction items generalizing acc with
  | nil => trivial
  | cons a items ih => exact callsOnly_bind (hf acc a) ih

end Calls

end Program
