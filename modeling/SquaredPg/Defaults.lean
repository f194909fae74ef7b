import Mathlib.Data.List.Nodup
import Mathlib.Data.List.Perm.Basic
import Mathlib.Logic.Relation

namespace Defaults

variable {κ α : Type*}

abbrev Env (κ α : Type*) := κ → Option α

def Extends (env env' : Env κ α) : Prop := ∀ n v, env n = some v → env' n = some v

/-- The chain of references that starts at a name ends in a name with value `v`. -/
inductive Leads (env : Env κ α) (refs : List (κ × κ)) : κ → α → Prop
  | here {n : κ} {v : α} : env n = some v → Leads env refs n v
  | ref {n s : κ} {v : α} : env n = none → (n, s) ∈ refs → Leads env refs s v → Leads env refs n v

/-- No name without a value reaches one through a second reference. -/
def Shallow (env : Env κ α) (refs : List (κ × κ)) : Prop :=
  ∀ n s v, (n, s) ∈ refs → env n = none → Leads env refs s v → env s = some v

def Acyclic (refs : List (κ × κ)) : Prop := ∀ n, ¬Relation.TransGen (fun n s ↦ (n, s) ∈ refs) n n

theorem acyclic_of_rank {refs : List (κ × κ)} (rank : κ → ℕ) (h : ∀ r ∈ refs, rank r.1 < rank r.2) :
    Acyclic refs := by
  have hlt : ∀ n s, Relation.TransGen (fun n s ↦ (n, s) ∈ refs) n s → rank n < rank s := by
    intro n s hchain
    induction hchain with
    | single hmem => exact h _ hmem
    | tail _ hmem ih => exact Nat.lt_trans ih (h _ hmem)
  exact fun n hcycle ↦ Nat.lt_irrefl _ (hlt n n hcycle)

theorem Extends.refl (env : Env κ α) : Extends env env := fun _ _ h ↦ h

theorem Extends.trans {env env' env'' : Env κ α} (h : Extends env env') (h' : Extends env' env'') :
    Extends env env'' := fun n v hv ↦ h' n v (h n v hv)

theorem Extends.eq_none {env env' : Env κ α} (h : Extends env env') {n : κ} (hn : env' n = none) :
    env n = none := by
  cases henv : env n with
  | none => rfl
  | some v =>
    rw [h n v henv] at hn
    cases hn

variable {env env' : Env κ α} {refs refs' : List (κ × κ)} {n s : κ} {v : α}

theorem Leads.of_some (h : Leads env refs n v) {w : α} (hn : env n = some w) : v = w := by
  cases h with
  | here hv => exact Option.some.inj (hv.symm.trans hn)
  | ref hnone _ _ =>
    rw [hnone] at hn
    cases hn

theorem Leads.mono (h : Leads env refs n v) (hrefs : ∀ r ∈ refs, r ∈ refs') :
    Leads env refs' n v := by
  induction h with
  | here hv => exact .here hv
  | ref hnone hmem _ ih => exact .ref hnone (hrefs _ hmem) ih

theorem Shallow.perm (h : Shallow env refs) (hperm : refs'.Perm refs) : Shallow env refs' :=
  fun n s v hmem hnone hleads ↦
    h n s v (hperm.mem_iff.mp hmem) hnone (hleads.mono fun _ hr ↦ hperm.mem_iff.mp hr)

variable [DecidableEq κ]

def fill (env : Env κ α) (name : κ) (value : Option α) : Env κ α :=
  fun n ↦ if n = name then (env n).or value else env n

def literals (env : Env κ α) (declared : List (κ × Option α)) : Env κ α :=
  declared.foldl (fun env d ↦ fill env d.1 d.2) env

def references (env : Env κ α) (refs : List (κ × κ)) : Env κ α :=
  refs.foldl (fun env r ↦ fill env r.1 (env r.2)) env

theorem fill_of_ne {name : κ} (h : n ≠ name) (value : Option α) : fill env name value n = env n :=
  if_neg h

theorem fill_self (name : κ) (value : Option α) : fill env name value name = (env name).or value :=
  if_pos rfl

theorem extends_fill (env : Env κ α) (name : κ) (value : Option α) :
    Extends env (fill env name value) := by
  intro n v hn
  by_cases h : n = name
  · rw [h] at hn ⊢
    rw [fill_self, hn, Option.some_or]
  · rw [fill_of_ne h, hn]

theorem fill_of_some {name : κ} (h : env name = some v) (value : Option α) :
    fill env name value = env := by
  funext n
  by_cases hn : n = name
  · rw [hn, fill_self, h, Option.some_or]
  · exact fill_of_ne hn value

theorem fill_none (env : Env κ α) (name : κ) : fill env name none = env := by
  funext n
  by_cases h : n = name
  · rw [h, fill_self, Option.or_none]
  · exact fill_of_ne h none

theorem findSome_key {β : Type*} {key : β → κ} {l : List β} (h : (l.map key).Nodup)
    (f : β → Option α) (n : κ) :
    l.findSome? (fun b ↦ if n = key b then f b else none) = (l.find? fun b ↦ key b = n).bind f := by
  induction l with
  | nil => rfl
  | cons b l ih =>
    rw [List.map_cons] at h
    obtain ⟨hhead, htail⟩ := List.nodup_cons.mp h
    rw [List.findSome?_cons, List.find?_cons]
    by_cases hb : n = key b
    · have hrest : l.findSome? (fun b ↦ if n = key b then f b else none) = none := by
        rw [List.findSome?_eq_none_iff]
        intro c hc
        rw [if_neg]
        intro hnc
        exact hhead (List.mem_map.mpr ⟨c, hc, hnc.symm.trans hb⟩)
      rw [if_pos hb, hrest, decide_eq_true hb.symm]
      cases hf : f b with
      | none => exact hf.symm
      | some a => exact hf.symm
    · rw [if_neg hb, ih htail, decide_eq_false (Ne.symm hb)]

theorem literals_apply (env : Env κ α) (declared : List (κ × Option α)) (n : κ) :
    literals env declared n =
      (env n).or (declared.findSome? fun d ↦ if n = d.1 then d.2 else none) := by
  induction declared generalizing env with
  | nil => exact (Option.or_none).symm
  | cons d declared ih =>
    have htail : literals env (d :: declared) = literals (fill env d.1 d.2) declared := rfl
    rw [htail, ih, List.findSome?_cons]
    by_cases h : n = d.1
    · rw [h, fill_self, if_pos rfl, Option.or_assoc]
      cases d.2 <;> rfl
    · rw [fill_of_ne h, if_neg h]

theorem extends_references (env : Env κ α) (refs : List (κ × κ)) :
    Extends env (references env refs) := by
  induction refs generalizing env with
  | nil => exact .refl env
  | cons r refs ih => exact (extends_fill env r.1 (env r.2)).trans (ih _)

theorem references_of_not_mem (h : n ∉ refs.map Prod.fst) : references env refs n = env n := by
  induction refs generalizing env with
  | nil => rfl
  | cons r refs ih =>
    rw [List.map_cons] at h
    obtain ⟨hhead, htail⟩ := List.ne_and_not_mem_of_not_mem_cons h
    exact (ih htail).trans (fill_of_ne hhead _)

theorem leads_fill (hext : Extends env env') (h : ∀ n v, env' n = some v → Leads env refs n v)
    (hmem : (n, s) ∈ refs) :
    ∀ m v, fill env' n (env' s) m = some v → Leads env refs m v := by
  intro m v hm
  by_cases hmn : m = n
  · subst hmn
    rw [fill_self] at hm
    cases hvalue : env' m with
    | some w =>
      rw [hvalue, Option.some_or] at hm
      exact h m v (hvalue.trans hm)
    | none =>
      rw [hvalue, Option.none_or] at hm
      exact .ref (hext.eq_none hvalue) hmem (h s v hm)
  · rw [fill_of_ne hmn] at hm
    exact h m v hm

theorem leads_of_references (h : references env refs n = some v) : Leads env refs n v := by
  have hrun : ∀ done env', Extends env env' → (∀ r ∈ done, r ∈ refs) →
      (∀ n v, env' n = some v → Leads env refs n v) →
      ∀ n v, references env' done n = some v → Leads env refs n v := by
    intro done
    induction done with
    | nil => exact fun env' _ _ hleads ↦ hleads
    | cons r done ih =>
      intro env' hext hmem hleads
      apply ih (fill env' r.1 (env' r.2)) (hext.trans (extends_fill env' r.1 _))
      · exact fun r' hr' ↦ hmem r' (List.mem_cons_of_mem r hr')
      · exact leads_fill hext hleads (hmem r List.mem_cons_self)
  exact hrun refs env (.refl env) (fun _ hr ↦ hr) (fun _ _ hv ↦ .here hv) n v h

theorem references_of_direct (hnodup : (refs.map Prod.fst).Nodup) (hmem : (n, s) ∈ refs)
    (hn : env n = none) (hs : env s = some v) : references env refs n = some v := by
  obtain ⟨front, back, rfl⟩ := List.append_of_mem hmem
  rw [List.map_append, List.map_cons] at hnodup
  have hfront : n ∉ front.map Prod.fst := fun h ↦
    List.disjoint_of_nodup_append hnodup h List.mem_cons_self
  have hsplit : references env (front ++ (n, s) :: back) =
      references (fill (references env front) n (references env front s)) back := by
    rw [references, List.foldl_append, List.foldl_cons]
    rfl
  rw [hsplit]
  apply extends_references
  rw [fill_self, references_of_not_mem hfront, hn, Option.none_or]
  exact extends_references env front s v hs

theorem references_of_leads (h : Shallow env refs) (hnodup : (refs.map Prod.fst).Nodup)
    (hleads : Leads env refs n v) : references env refs n = some v := by
  cases hleads with
  | here hv => exact extends_references env refs n v hv
  | ref hnone hmem hs => exact references_of_direct hnodup hmem hnone (h _ _ _ hmem hnone hs)

theorem references_of_early (hnodup : (((n, s) :: refs).map Prod.fst).Nodup)
    (hn : env n = none) (hs : env s = none) : references env ((n, s) :: refs) n = none := by
  have hfirst : references env ((n, s) :: refs) = references env refs := by
    have hnone := fill_none env n
    rw [← hs] at hnone
    exact congrArg (references · refs) hnone
  rw [hfirst, references_of_not_mem (List.nodup_cons.mp hnodup).1, hn]

theorem references_perm (h : Shallow env refs) (hnodup : (refs.map Prod.fst).Nodup)
    (hperm : refs'.Perm refs) : references env refs' = references env refs := by
  have hnodup' := (hperm.map Prod.fst).nodup_iff.mpr hnodup
  funext n
  apply Option.ext
  intro v
  refine ⟨fun hv ↦ references_of_leads h hnodup ?_, fun hv ↦
    references_of_leads (h.perm hperm) hnodup' ?_⟩
  · exact (leads_of_references hv).mono fun _ hr ↦ hperm.mem_iff.mp hr
  · exact (leads_of_references hv).mono fun _ hr ↦ hperm.mem_iff.mpr hr

theorem shallow_of_references (hnodup : (refs.map Prod.fst).Nodup)
    (hfirst : ∀ r ∈ refs, ∃ rest, (r :: rest).Perm refs ∧
      references env (r :: rest) = references env refs)
    (hchains : ∀ n v, Leads env refs n v → references env refs n = some v) : Shallow env refs := by
  intro n s v hmem hn hleads
  cases hs : env s with
  | some w => rw [hleads.of_some hs]
  | none =>
    obtain ⟨rest, hperm, heq⟩ := hfirst _ hmem
    have hearly := references_of_early ((hperm.map Prod.fst).nodup_iff.mpr hnodup) hn hs
    rw [heq, hchains n v (.ref hn hmem hleads)] at hearly
    cases hearly

end Defaults
