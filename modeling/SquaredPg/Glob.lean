import SquaredPg.Bytes

namespace SquaredPg

open Ascii

theorem mark_self (again rest : Bytes) :
    ∀ m ∈ some (again, rest), again.length ≤ m.1.length := by
  intro m hm
  rw [← Option.mem_some_iff.mp hm]

/-- The loop of `match_here`. The pattern and the path are what is left of them; `mark` is the
pattern behind the last `**`, with the path from where the next attempt starts over. -/
def matchLoop (pattern path : Bytes) (mark : Option (Bytes × Bytes))
    (h : ∀ m ∈ mark, pattern.length ≤ m.1.length) : Bool :=
  match path, pattern, mark with
  | [], pattern, _ => pattern.dropWhile (· = star) = []
  | _ :: _, [], some (again, _ :: rest) =>
    matchLoop again rest (some (again, rest)) (mark_self again rest)
  | _ :: _, [], _ => false
  | c :: path, pc :: pattern, mark =>
    if pc = star then
      if pattern.head? = some star then
        -- `**/` also stands for no directory at all
        (pattern.tail.head? = some slash &&
          matchLoop pattern.tail.tail (c :: path) none (by simp)) ||
        matchLoop pattern.tail (c :: path) (some (pattern.tail, c :: path)) (mark_self _ _)
      else
        matchLoop pattern (c :: path) none (by simp) ||
          (c ≠ slash && matchLoop (pc :: pattern) path mark h)
    else if (pc = question ∧ c ≠ slash) ∨ pc = c then
      matchLoop pattern path mark fun m hm ↦ (Nat.le_succ _).trans (h m hm)
    else
      match mark with
      | some (again, _ :: rest) =>
        matchLoop again rest (some (again, rest)) (mark_self again rest)
      | _ => false
termination_by
  (mark.elim pattern.length (·.1.length), mark.elim 0 (·.2.length), pattern.length + path.length)
decreasing_by
  all_goals
    try rcases mark with _ | ⟨again, rest⟩
    all_goals
      have hle := h
      simp only [Prod.lex_def, Option.elim_some, Option.elim_none, List.length_cons,
        List.length_tail, Option.mem_some_iff, forall_eq', true_and] at hle ⊢
      omega

def matchHere (pattern path : Bytes) : Bool := matchLoop pattern path none (by simp)

def globMatch (pattern path : Bytes) : Bool :=
  if pattern = [] then false
  else if pattern = ascii "**" ∨ pattern = ascii "*" then true
  else if (ascii "/**").isSuffixOf pattern ∧ path = pattern.take (pattern.length - 3) then true
  else matchHere pattern path

end SquaredPg
