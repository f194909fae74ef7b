import SquaredPg.Program

namespace Program

variable {Op : Type} {Ans : Op → Type} {ε ε' α β σ S : Type}

/-- The run in which nothing goes wrong ends in a value, and then `post` holds. -/
def Yields (perform : (op : Op) → S → Ans op × S) (post : α → S → Prop)
    (p : Program Op Ans ε α) (s : S) : Prop :=
  ∃ a s', p.run perform s = (.ok a, s') ∧ post a s'

variable {perform : (op : Op) → S → Ans op × S} {post post' : α → S → Prop}
  {p : Program Op Ans ε α} {s s' : S}

theorem Yields.mono (h : p.Yields perform post s) (hpost : ∀ a s', post a s' → post' a s') :
    p.Yields perform post' s := by
  obtain ⟨a, s', hrun, ha⟩ := h
  exact ⟨a, s', hrun, hpost a s' ha⟩

theorem yields_done {a : α} (h : post a s) :
    (done a : Program Op Ans ε α).Yields perform post s := ⟨a, s, rfl, h⟩

theorem yields_bind {f : β → Program Op Ans ε α} {q : Program Op Ans ε β}
    (h : q.Yields perform (fun b s' ↦ (f b).Yields perform post s') s) :
    (q >>= f).Yields perform post s := by
  obtain ⟨b, s₁, hfirst, a, s', hrun, ha⟩ := h
  exact ⟨a, s', run_bind_ok.mpr ⟨b, s₁, hfirst, hrun⟩, ha⟩

theorem yields_handle {h : ε → Program Op Ans ε' α} (hp : p.Yields perform post s) :
    (p.handle h).Yields perform post s := by
  obtain ⟨a, s', hrun, ha⟩ := hp
  refine ⟨a, s', ?_, ha⟩
  rw [run_handle, hrun]

theorem yields_foldlM {f : σ → α → Program Op Ans ε σ} {I : List α → σ → S → Prop} {items : List α}
    {acc : σ} (hround : ∀ before a after acc s, before ++ a :: after = items → I before acc s →
      (f acc a).Yields perform (fun acc' s' ↦ I (before ++ [a]) acc' s') s)
    (h : I [] acc s) : (items.foldlM f acc).Yields perform (fun acc' s' ↦ I items acc' s') s := by
  have hloop : ∀ (rest before : List α) (acc : σ) (s : S), before ++ rest = items →
      I before acc s →
      (rest.foldlM f acc).Yields perform (fun acc' s' ↦ I items acc' s') s := by
    intro rest
    induction rest with
    | nil =>
      intro before acc s hitems hs
      rw [List.append_nil] at hitems
      exact yields_done (hitems ▸ hs)
    | cons a rest ih =>
      intro before acc s hitems hs
      rw [List.foldlM_cons]
      refine yields_bind ((hround before a rest acc s hitems hs).mono fun acc' s' hs' ↦ ?_)
      exact ih (before ++ [a]) acc' s' (by simpa using hitems) hs'
  exact hloop items [] acc s rfl h

theorem Yields.also {step : (op : Op) → S → Option (Ans op) → S → Prop} {ok : α → S → Prop}
    {err : ε → S → Prop} {stop : S → Prop} (h : p.Yields perform post s)
    (hp : p.wp step ok err stop s)
    (hstep : ∀ op s, step op s (some (perform op s).1) (perform op s).2) :
    p.Yields perform (fun a s' ↦ post a s' ∧ ok a s') s := by
  obtain ⟨a, s', hrun, ha⟩ := h
  have hexec := exec_run hstep p s
  rw [hrun] at hexec
  exact ⟨a, s', hrun, ha, hexec.sound hp⟩

end Program
