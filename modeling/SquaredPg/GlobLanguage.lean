import Mathlib.Data.List.TakeWhile
import Mathlib.Data.Nat.Notation

namespace Glob

/-- `run` may cross separators, `segment` may not. -/
inductive Token (α : Type)
  | run
  | dirs
  | segment
  | one
  | lit (c : α)

variable {α : Type}

def Token.fixed : Token α → Bool
  | .one => true
  | .lit _ => true
  | _ => false

/-- The paths that a pattern stands for. `dirs` is nothing, or a run with the separator behind it. -/
def InLanguage (sep : α) : List (Token α) → List α → Prop
  | [], path => path = []
  | .run :: ts, path => ∃ front rest, path = front ++ rest ∧ InLanguage sep ts rest
  | .dirs :: ts, path =>
    InLanguage sep ts path ∨ ∃ front rest, path = front ++ sep :: rest ∧ InLanguage sep ts rest
  | .segment :: ts, path =>
    ∃ front rest, path = front ++ rest ∧ sep ∉ front ∧ InLanguage sep ts rest
  | .one :: ts, path => ∃ c rest, path = c :: rest ∧ c ≠ sep ∧ InLanguage sep ts rest
  | .lit c :: ts, path => ∃ rest, path = c :: rest ∧ InLanguage sep ts rest

def Fits (sep : α) : List (Token α) → List α → Prop
  | .one :: ts, d :: path => d ≠ sep ∧ Fits sep ts path
  | .lit c :: ts, d :: path => c = d ∧ Fits sep ts path
  | .one :: _, [] => False
  | .lit _ :: _, [] => False
  | _, _ => True

/-- A run with `ts` behind it ends here: the characters behind it fit, and another wildcard follows
them. -/
def Settled (sep : α) (ts : List (Token α)) (path : List α) : Prop :=
  (∃ t ∈ ts, t.fixed = false) ∧ Fits sep ts path

/-- A reading of the path in which no run goes on where it is settled, and in which `dirs` is not
nothing at the end of the path. -/
inductive Leftmost (sep : α) : List (Token α) → List α → Prop
  | nil : Leftmost sep [] []
  | lit {c ts path} : Leftmost sep ts path → Leftmost sep (.lit c :: ts) (c :: path)
  | one {c ts path} : c ≠ sep → Leftmost sep ts path → Leftmost sep (.one :: ts) (c :: path)
  | segmentEnd {ts path} : Leftmost sep ts path → Leftmost sep (.segment :: ts) path
  | segment {c ts path} : c ≠ sep → Leftmost sep (.segment :: ts) path →
      Leftmost sep (.segment :: ts) (c :: path)
  | runEnd {ts path} : Leftmost sep ts path → Leftmost sep (.run :: ts) path
  | run {c ts path} : ¬Settled sep ts (c :: path) → Leftmost sep (.run :: ts) path →
      Leftmost sep (.run :: ts) (c :: path)
  | noDirs {ts path} : path ≠ [] → Leftmost sep ts path → Leftmost sep (.dirs :: ts) path
  | dirs {ts path} : Leftmost sep (.run :: .lit sep :: ts) path → Leftmost sep (.dirs :: ts) path

variable {sep c d : α} {ts : List (Token α)} {path rest : List α}

theorem Leftmost.inLanguage (h : Leftmost sep ts path) : InLanguage sep ts path := by
  induction h with
  | nil => rfl
  | lit _ ih => exact ⟨_, rfl, ih⟩
  | one hc _ ih => exact ⟨_, _, rfl, hc, ih⟩
  | segmentEnd _ ih => exact ⟨[], _, rfl, List.not_mem_nil, ih⟩
  | segment hc _ ih =>
    obtain ⟨front, rest, rfl, hfront, hrest⟩ := ih
    refine ⟨_ :: front, rest, rfl, ?_, hrest⟩
    rw [List.mem_cons, not_or]
    exact ⟨hc.symm, hfront⟩
  | runEnd _ ih => exact ⟨[], _, rfl, ih⟩
  | run _ _ ih =>
    obtain ⟨front, rest, rfl, hrest⟩ := ih
    exact ⟨_ :: front, rest, rfl, hrest⟩
  | noDirs _ _ ih => exact .inl ih
  | dirs _ ih =>
    obtain ⟨front, _, rfl, rest, rfl, hrest⟩ := ih
    exact .inr ⟨front, rest, rfl, hrest⟩

@[simp] theorem leftmost_nil : Leftmost sep [] path ↔ path = [] := by
  constructor
  · intro h
    cases h
    rfl
  · rintro rfl
    exact .nil

@[simp] theorem leftmost_lit_cons :
    Leftmost sep (.lit c :: ts) (d :: path) ↔ c = d ∧ Leftmost sep ts path := by
  constructor
  · intro h
    cases h with
    | lit h => exact ⟨rfl, h⟩
  · rintro ⟨rfl, h⟩
    exact h.lit

@[simp] theorem not_leftmost_lit_nil : ¬Leftmost sep (.lit c :: ts) [] := by
  intro h
  cases h

@[simp] theorem leftmost_one_cons :
    Leftmost sep (.one :: ts) (d :: path) ↔ d ≠ sep ∧ Leftmost sep ts path := by
  constructor
  · intro h
    cases h with
    | one hd h => exact ⟨hd, h⟩
  · intro ⟨hd, h⟩
    exact h.one hd

@[simp] theorem not_leftmost_one_nil : ¬Leftmost sep (.one :: ts) [] := by
  intro h
  cases h

@[simp] theorem leftmost_segment_nil :
    Leftmost sep (.segment :: ts) [] ↔ Leftmost sep ts [] := by
  constructor
  · intro h
    cases h with
    | segmentEnd h => exact h
  · exact .segmentEnd

theorem leftmost_segment_cons : Leftmost sep (.segment :: ts) (d :: path) ↔
    Leftmost sep ts (d :: path) ∨ d ≠ sep ∧ Leftmost sep (.segment :: ts) path := by
  constructor
  · intro h
    cases h with
    | segmentEnd h => exact .inl h
    | segment hd h => exact .inr ⟨hd, h⟩
  · intro h
    rcases h with h | ⟨hd, h⟩
    · exact h.segmentEnd
    · exact h.segment hd

@[simp] theorem leftmost_run_nil : Leftmost sep (.run :: ts) [] ↔ Leftmost sep ts [] := by
  constructor
  · intro h
    cases h with
    | runEnd h => exact h
  · exact .runEnd

theorem leftmost_run_cons : Leftmost sep (.run :: ts) (d :: path) ↔
    Leftmost sep ts (d :: path) ∨
      ¬Settled sep ts (d :: path) ∧ Leftmost sep (.run :: ts) path := by
  constructor
  · intro h
    cases h with
    | runEnd h => exact .inl h
    | run hd h => exact .inr ⟨hd, h⟩
  · intro h
    rcases h with h | ⟨hd, h⟩
    · exact h.runEnd
    · exact h.run hd

@[simp] theorem not_leftmost_dirs_nil : ¬Leftmost sep (.dirs :: ts) [] := by
  intro h
  cases h with
  | noDirs hne _ => exact hne rfl
  | dirs h =>
    rw [leftmost_run_nil] at h
    exact not_leftmost_lit_nil h

theorem leftmost_dirs_cons : Leftmost sep (.dirs :: ts) (d :: path) ↔
    Leftmost sep ts (d :: path) ∨ Leftmost sep (.run :: .lit sep :: ts) (d :: path) := by
  constructor
  · intro h
    cases h with
    | noDirs _ h => exact .inl h
    | dirs h => exact .inr h
  · intro h
    rcases h with h | h
    · exact h.noDirs (List.cons_ne_nil _ _)
    · exact h.dirs

theorem Leftmost.fits (h : Leftmost sep ts path) : Fits sep ts path := by
  induction h with
  | nil => trivial
  | lit _ ih => exact ⟨rfl, ih⟩
  | one hc _ ih => exact ⟨hc, ih⟩
  | _ => trivial

def block (ts : List (Token α)) : ℕ := (ts.takeWhile Token.fixed).length

theorem Fits.block_le (h : Fits sep ts path) : block ts ≤ path.length := by
  induction ts generalizing path with
  | nil => exact Nat.zero_le _
  | cons t ts ih =>
    cases t with
    | run => exact Nat.zero_le _
    | dirs => exact Nat.zero_le _
    | segment => exact Nat.zero_le _
    | one =>
      cases path with
      | nil => exact h.elim
      | cons d path => exact Nat.succ_le_succ (ih h.2)
    | lit c =>
      cases path with
      | nil => exact h.elim
      | cons d path => exact Nat.succ_le_succ (ih h.2)

theorem block_le_of_run (h : Leftmost sep (.run :: ts) path) : block ts ≤ path.length := by
  induction path with
  | nil => exact (leftmost_run_nil.mp h).fits.block_le
  | cons d path ih =>
    rcases leftmost_run_cons.mp h with h | ⟨-, h⟩
    · exact h.fits.block_le
    · exact Nat.le_trans (ih h) (Nat.le_succ _)

theorem settled_cons_fixed {t : Token α} (ht : t.fixed = true)
    (hfits : Fits sep (t :: ts) (d :: path) ↔ Fits sep ts path) :
    Settled sep (t :: ts) (d :: path) ↔ Settled sep ts path := by
  simp [Settled, hfits, ht]

theorem settled_of_wild {t : Token α} (ht : t.fixed = false) : Settled sep (t :: ts) path := by
  refine ⟨⟨t, List.mem_cons_self, ht⟩, ?_⟩
  cases t with
  | one => cases ht
  | lit c => cases ht
  | _ => trivial

/-- Nothing but characters follows a run, and something follows `dirs`. -/
def Tame : List (Token α) → Prop
  | [] => True
  | .run :: ts => ∀ t ∈ ts, t.fixed = true
  | .dirs :: ts => ts ≠ [] ∧ ∀ t ∈ ts, t.fixed = true
  | _ :: ts => Tame ts

theorem not_settled (h : ∀ t ∈ ts, t.fixed = true) : ¬Settled sep ts path := by
  intro ⟨⟨t, ht, hwild⟩, _⟩
  rw [h t ht] at hwild
  cases hwild

theorem leftmost_of_fixed (h : ∀ t ∈ ts, t.fixed = true) (hpath : InLanguage sep ts path) :
    Leftmost sep ts path := by
  induction ts generalizing path with
  | nil => exact leftmost_nil.mpr hpath
  | cons t ts ih =>
    have hts : ∀ t ∈ ts, t.fixed = true := fun u hu ↦ h u (List.mem_cons_of_mem t hu)
    have ht := h t List.mem_cons_self
    cases t with
    | one =>
      obtain ⟨c, rest, rfl, hc, hrest⟩ := hpath
      exact (ih hts hrest).one hc
    | lit c =>
      obtain ⟨rest, rfl, hrest⟩ := hpath
      exact (ih hts hrest).lit
    | _ => cases ht

theorem leftmost_run (h : ∀ t ∈ ts, t.fixed = true) (hrest : Leftmost sep ts rest)
    (front : List α) : Leftmost sep (.run :: ts) (front ++ rest) := by
  induction front with
  | nil => exact hrest.runEnd
  | cons c front ih => exact ih.run (not_settled h)

theorem Tame.leftmost_iff (h : Tame ts) : Leftmost sep ts path ↔ InLanguage sep ts path := by
  refine ⟨Leftmost.inLanguage, fun hpath ↦ ?_⟩
  induction ts generalizing path with
  | nil => exact leftmost_nil.mpr hpath
  | cons t ts ih =>
    cases t with
    | run =>
      obtain ⟨front, rest, rfl, hrest⟩ := hpath
      exact leftmost_run h (leftmost_of_fixed h hrest) front
    | dirs =>
      obtain ⟨hne, hfixed⟩ := h
      rcases hpath with hpath | ⟨front, rest, rfl, hrest⟩
      · refine (leftmost_of_fixed hfixed hpath).noDirs ?_
        rintro rfl
        have hfits := (leftmost_of_fixed hfixed hpath).fits.block_le
        rw [block, List.takeWhile_eq_self_iff.mpr hfixed] at hfits
        exact hne (List.length_eq_zero_iff.mp (Nat.le_zero.mp hfits))
      · have hlit : ∀ t ∈ Token.lit sep :: ts, t.fixed = true := by
          rw [List.forall_mem_cons]
          exact ⟨rfl, hfixed⟩
        exact (leftmost_run hlit (leftmost_of_fixed hfixed hrest).lit front).dirs
    | segment =>
      obtain ⟨front, rest, rfl, hfront, hrest⟩ := hpath
      induction front with
      | nil => exact (ih h hrest).segmentEnd
      | cons c front ihf =>
        rw [List.mem_cons, not_or] at hfront
        exact (ihf hfront.2).segment (Ne.symm hfront.1)
    | one =>
      obtain ⟨c, rest, rfl, hc, hrest⟩ := hpath
      exact (ih h hrest).one hc
    | lit c =>
      obtain ⟨rest, rfl, hrest⟩ := hpath
      exact (ih h hrest).lit

end Glob
