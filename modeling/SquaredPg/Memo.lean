import SquaredPg.Lists
import Mathlib.Data.List.Induction

namespace Memo

variable {α κ γ ε : Type} {key : α → κ}

structure Request (α γ ε : Type) where
  asked : α
  produce : α → Except ε γ

/-- No key stands twice, and each answer was produced for a request with its key. -/
structure Coherent (key : α → κ) (requests : List (Request α γ ε)) (table : List (κ × γ)) :
    Prop where
  nodup : (table.map Prod.fst).Nodup
  produced : ∀ entry ∈ table, ∃ request ∈ requests, key request.asked = entry.1 ∧
    request.produce request.asked = .ok entry.2

variable {requests : List (Request α γ ε)} {request : Request α γ ε} {table : List (κ × γ)}
  {produce : α → Except ε γ} {a : α} {c : γ} {e : ε}

theorem Coherent.later (h : Coherent key requests table) (others : List (Request α γ ε)) :
    Coherent key (requests ++ others) table := by
  refine ⟨h.nodup, ?_⟩
  intro entry hentry
  obtain ⟨request, hrequest, hproduced⟩ := h.produced entry hentry
  exact ⟨request, List.mem_append_left _ hrequest, hproduced⟩

theorem coherent_nil : Coherent key ([] : List (Request α γ ε)) [] :=
  ⟨List.nodup_nil, fun _ h ↦ nomatch h⟩

variable [BEq κ]

def fetch (key : α → κ) (produce : α → Except ε γ) (table : List (κ × γ)) (a : α) :
    Except ε γ × List (κ × γ) :=
  match table.lookup (key a) with
  | some found => (.ok found, table)
  | none =>
    match produce a with
    | .error e => (.error e, table)
    | .ok c => (.ok c, table ++ [(key a, c)])

def run (key : α → κ) (table : List (κ × γ)) (requests : List (Request α γ ε)) : List (κ × γ) :=
  requests.foldl (fun table request ↦ (fetch key request.produce table request.asked).2) table

theorem fetch_of_lookup (h : table.lookup (key a) = some c) :
    fetch key produce table a = (.ok c, table) := by
  simp only [fetch, h]

theorem fetch_of_error (h : table.lookup (key a) = none) (hproduce : produce a = .error e) :
    fetch key produce table a = (.error e, table) := by
  simp only [fetch, h, hproduce]

theorem fetch_of_new (h : table.lookup (key a) = none) (hproduce : produce a = .ok c) :
    fetch key produce table a = (.ok c, table ++ [(key a, c)]) := by
  simp only [fetch, h, hproduce]

theorem table_of_error
    (herror : (fetch key request.produce table request.asked).1 = .error e) :
    (fetch key request.produce table request.asked).2 = table := by
  cases hlookup : table.lookup (key request.asked) with
  | some found => rw [fetch_of_lookup hlookup]
  | none =>
    cases hproduce : request.produce request.asked with
    | error e => rw [fetch_of_error hlookup hproduce]
    | ok found =>
      rw [fetch_of_new hlookup hproduce] at herror
      cases herror

variable [LawfulBEq κ]

theorem Coherent.append (h : Coherent key requests table) (hmem : request ∈ requests)
    (hnone : table.lookup (key request.asked) = none)
    (hproduce : request.produce request.asked = .ok c) :
    Coherent key requests (table ++ [(key request.asked, c)]) := by
  constructor
  · have hfresh : key request.asked ∉ table.map Prod.fst := by
      intro hkey
      obtain ⟨entry, hentry, heq⟩ := List.mem_map.mp hkey
      have hne := List.lookup_eq_none_iff.mp hnone entry hentry
      simp [heq] at hne
    rw [List.map_append, List.map_singleton]
    refine List.nodup_append.mpr ⟨h.nodup, List.pairwise_singleton _ _, ?_⟩
    intro k hk k' hk' heq
    rw [heq, List.mem_singleton.mp hk'] at hk
    exact hfresh hk
  · intro entry hentry
    rcases List.mem_append.mp hentry with hold | hnew
    · exact h.produced entry hold
    · rw [List.mem_singleton.mp hnew]
      exact ⟨request, hmem, rfl, hproduce⟩

theorem Coherent.fetch (h : Coherent key requests table) (request : Request α γ ε) :
    Coherent key (requests ++ [request]) (fetch key request.produce table request.asked).2 := by
  have hlater := h.later [request]
  cases hlookup : table.lookup (key request.asked) with
  | some c =>
    rw [fetch_of_lookup hlookup]
    exact hlater
  | none =>
    cases hproduce : request.produce request.asked with
    | error e =>
      rw [fetch_of_error hlookup hproduce]
      exact hlater
    | ok c =>
      rw [fetch_of_new hlookup hproduce]
      exact hlater.append (by simp) hlookup hproduce

theorem coherent_run (requests : List (Request α γ ε)) :
    Coherent key requests (run key [] requests) := by
  induction requests using List.reverseRecOn with
  | nil => exact coherent_nil
  | append_singleton requests request ih =>
    rw [run, List.foldl_append]
    exact ih.fetch request

theorem Coherent.produced_of_fetch (h : Coherent key requests table)
    (hok : (Memo.fetch key request.produce table request.asked).1 = .ok c) :
    ∃ earlier ∈ requests ++ [request], key earlier.asked = key request.asked ∧
      earlier.produce earlier.asked = .ok c := by
  cases hlookup : table.lookup (key request.asked) with
  | some found =>
    rw [fetch_of_lookup hlookup] at hok
    obtain rfl := Except.ok.inj hok
    obtain ⟨earlier, hearlier, hproduced⟩ := h.produced _ (SquaredPg.mem_of_lookup hlookup)
    exact ⟨earlier, List.mem_append_left _ hearlier, hproduced⟩
  | none =>
    cases hproduce : request.produce request.asked with
    | error e =>
      rw [fetch_of_error hlookup hproduce] at hok
      cases hok
    | ok found =>
      rw [fetch_of_new hlookup hproduce] at hok
      obtain rfl := Except.ok.inj hok
      exact ⟨request, by simp, rfl, hproduce⟩

end Memo
