import Mathlib.Logic.Function.Basic
import SquaredPg.Program

/-- What is left of each program, and the state that they share. -/
structure Processes (ι Op : Type) (Ans : Op → Type) (ε α S : Type) where
  left : ι → Program Op Ans ε α
  state : S

variable {ι Op : Type} {Ans : Op → Type} {ε ε' α β σ S : Type}

namespace Processes

variable [DecidableEq ι] (perform : ι → (op : Op) → S → Ans op × S) (permits : ι → Op → S → Prop)

def turn (c : Processes ι Op Ans ε α S) (i : ι) : Processes ι Op Ans ε α S where
  left := Function.update c.left i ((c.left i).advance (perform i) c.state).1
  state := ((c.left i).advance (perform i) c.state).2

theorem turn_of_ended {c : Processes ι Op Ans ε α S} {i : ι} (h : (c.left i).pending = none) :
    c.turn perform i = c := by
  have hsame : (c.left i).advance (perform i) c.state = (c.left i, c.state) := by
    cases hleft : c.left i with
    | done a => rfl
    | fail e => rfl
    | call op next => simp [hleft, Program.pending] at h
  rw [turn, hsame, Function.update_eq_self]

def run (c : Processes ι Op Ans ε α S) (schedule : List ι) : Processes ι Op Ans ε α S :=
  schedule.foldl (turn perform) c

/-- Every call of the run is permitted in the state in which it is made. -/
def Permitted : Processes ι Op Ans ε α S → List ι → Prop
  | _, [] => True
  | c, i :: schedule =>
    (∀ op ∈ (c.left i).pending, permits i op c.state) ∧ Permitted (c.turn perform i) schedule

instance decidablePermitted [∀ i op s, Decidable (permits i op s)] :
    (c : Processes ι Op Ans ε α S) → (schedule : List ι) →
      Decidable (c.Permitted perform permits schedule)
  | _, [] => .isTrue trivial
  | c, i :: schedule =>
    @instDecidableAnd _ _ inferInstance (decidablePermitted (c.turn perform i) schedule)

end Processes

/-- What processes agree on: how calls are answered and which are permitted, what holds between
calls, and what each of them relies on the others to keep. -/
structure Discipline (ι Op : Type) (Ans : Op → Type) (S : Type) where
  perform : ι → (op : Op) → S → Ans op × S
  permits : ι → Op → S → Prop
  inv : S → Prop
  rely : ι → S → S → Prop
  rely_refl : ∀ i s, rely i s s
  rely_trans : ∀ {i s s' s''}, rely i s s' → rely i s' s'' → rely i s s''

namespace Discipline

variable (D : Discipline ι Op Ans S) (i : ι)

def Keeps (s s' : S) : Prop := D.inv s' ∧ ∀ j, j ≠ i → D.rely j s s'

/-- What has to hold before a program for each of its permitted calls to keep the discipline and for
`ok` and `err` to hold when it ends, whatever the others do in between. -/
def amid (ok : α → S → Prop) (err : ε → S → Prop) : S → Program Op Ans ε α → Prop
  | s, .done a => ∀ s', D.rely i s s' → ok a s'
  | s, .fail e => ∀ s', D.rely i s s' → err e s'
  | s, .call op next => ∀ s', D.rely i s s' → D.inv s' → D.permits i op s' →
      D.Keeps i s' (D.perform i op s').2 ∧
        amid ok err (D.perform i op s').2 (next (D.perform i op s').1)

variable {D i} {ok : α → S → Prop} {err : ε → S → Prop} {s s' : S}

theorem amid_stable {p : Program Op Ans ε α} (h : D.amid i ok err s p) (hs : D.rely i s s') :
    D.amid i ok err s' p := by
  cases p with
  | done a => exact fun s'' hs' ↦ h s'' (D.rely_trans hs hs')
  | fail e => exact fun s'' hs' ↦ h s'' (D.rely_trans hs hs')
  | call op next => exact fun s'' hs' ↦ h s'' (D.rely_trans hs hs')

theorem amid_bind {mid : β → S → Prop} {p : Program Op Ans ε β} {f : β → Program Op Ans ε α}
    (h : D.amid i mid err s p) (hf : ∀ b s', mid b s' → D.amid i ok err s' (f b)) :
    D.amid i ok err s (p >>= f) := by
  induction p generalizing s with
  | done b => exact hf b s (h s (D.rely_refl i s))
  | fail e => exact h
  | call op next ih =>
    intro s' hs hinv hpermits
    obtain ⟨hkeeps, hrest⟩ := h s' hs hinv hpermits
    exact ⟨hkeeps, ih _ hrest⟩

theorem amid_handle {mid : ε' → S → Prop} {p : Program Op Ans ε' α} {f : ε' → Program Op Ans ε α}
    (h : D.amid i ok mid s p) (hf : ∀ e s', mid e s' → D.amid i ok err s' (f e)) :
    D.amid i ok err s (p.handle f) := by
  induction p generalizing s with
  | done a => exact h
  | fail e => exact hf e s (h s (D.rely_refl i s))
  | call op next ih =>
    intro s' hs hinv hpermits
    obtain ⟨hkeeps, hrest⟩ := h s' hs hinv hpermits
    exact ⟨hkeeps, ih _ hrest⟩

theorem amid_probe {op : Op} {next : Ans op → Program Op Ans ε α}
    (hsame : ∀ s, (D.perform i op s).2 = s)
    (h : ∀ s', D.rely i s s' → D.inv s' → D.amid i ok err s' (next (D.perform i op s').1)) :
    D.amid i ok err s (.call op next) := by
  intro s' hs hinv _
  rw [hsame]
  exact ⟨⟨hinv, fun j _ ↦ D.rely_refl j s'⟩, h s' hs hinv⟩

/-- What is proved of a program by itself holds of it amid the others as long as these do not change
what the program sees, when its calls keep the discipline wherever `stop` holds. -/
theorem amid_of_wp {view : S → σ} {step : (op : Op) → σ → Option (Ans op) → σ → Prop}
    {ok : α → σ → Prop} {err : ε → σ → Prop} {stop : σ → Prop} {P : S → Prop} {Q : Op → Prop}
    {p : Program Op Ans ε α}
    (hview : ∀ op s, step op (view s) (some (D.perform i op s).1) (view (D.perform i op s).2))
    (hstable : ∀ s s', P s → D.rely i s s' → P s' ∧ view s' = view s)
    (hquiet : ∀ op s, Q op → P s → D.inv s → stop (view s) → stop (view (D.perform i op s).2) →
      P (D.perform i op s).2 ∧ D.Keeps i s (D.perform i op s).2)
    (hok : ∀ a x, ok a x → stop x) (herr : ∀ e x, err e x → stop x)
    (hcalls : p.CallsOnly Q) (hp : p.wp step ok err stop (view s)) (hs : P s) :
    D.amid i (fun a s ↦ P s ∧ ok a (view s)) (fun e s ↦ P s ∧ err e (view s)) s p := by
  induction p generalizing s with
  | done a =>
    intro s' hrely
    obtain ⟨hs', hsame⟩ := hstable s s' hs hrely
    exact ⟨hs', hsame ▸ hp⟩
  | fail e =>
    intro s' hrely
    obtain ⟨hs', hsame⟩ := hstable s s' hs hrely
    exact ⟨hs', hsame ▸ hp⟩
  | call op next ih =>
    intro s' hrely hinv _
    obtain ⟨hs', hsame⟩ := hstable s s' hs hrely
    rw [← hsame] at hp
    have hnext := hp.2 _ _ (hview op s')
    have hstop := Program.stop_of_wp hnext (fun a ↦ hok a _) fun e ↦ herr e _
    obtain ⟨hs'', hkeeps⟩ := hquiet op s' hcalls.1 hs' hinv hp.1 hstop
    exact ⟨hkeeps, ih _ (hcalls.2 _) hnext hs''⟩

section Run

variable [DecidableEq ι] {ok : ι → α → S → Prop} {err : ι → ε → S → Prop}
  {c : Processes ι Op Ans ε α S}

theorem amid_turn (hinv : D.inv c.state) (h : ∀ i, D.amid i (ok i) (err i) c.state (c.left i))
    (hpermits : ∀ op ∈ (c.left i).pending, D.permits i op c.state) :
    D.inv (c.turn D.perform i).state ∧
      ∀ j, D.amid j (ok j) (err j) (c.turn D.perform i).state ((c.turn D.perform i).left j) := by
  have hi := h i
  cases hleft : c.left i with
  | done a =>
    rw [Processes.turn_of_ended D.perform (by rw [hleft]; rfl)]
    exact ⟨hinv, h⟩
  | fail e =>
    rw [Processes.turn_of_ended D.perform (by rw [hleft]; rfl)]
    exact ⟨hinv, h⟩
  | call op next =>
    rw [hleft] at hi hpermits
    obtain ⟨⟨hinv', hrely⟩, hrest⟩ := hi c.state (D.rely_refl i _) hinv (hpermits op rfl)
    unfold Processes.turn
    rw [hleft]
    refine ⟨hinv', fun j ↦ ?_⟩
    by_cases hj : j = i
    · subst hj
      simpa only [Program.advance, Function.update_self] using hrest
    · simpa only [Program.advance, Function.update_of_ne hj] using amid_stable (h j) (hrely j hj)

/-- Where each process keeps the discipline by itself, they all do together. -/
theorem amid_run {schedule : List ι} (hinv : D.inv c.state)
    (h : ∀ i, D.amid i (ok i) (err i) c.state (c.left i))
    (hpermitted : c.Permitted D.perform D.permits schedule) :
    D.inv (c.run D.perform schedule).state ∧
      ∀ i, D.amid i (ok i) (err i) (c.run D.perform schedule).state
        ((c.run D.perform schedule).left i) := by
  induction schedule generalizing c with
  | nil => exact ⟨hinv, h⟩
  | cons i schedule ih =>
    obtain ⟨hinv', h'⟩ := amid_turn hinv h hpermitted.1
    exact ih hinv' h' hpermitted.2

end Run

end Discipline
