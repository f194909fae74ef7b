import Mathlib.Data.List.Infix

inductive Entry (β : Type)
  | dir
  | file (data : β)
  deriving DecidableEq

def Entry.isDir {β : Type} : Entry β → Bool
  | dir => true
  | file _ => false

def Entry.data {β : Type} : Entry β → Option β
  | dir => none
  | file data => some data

/-- What is at every location. -/
abbrev Layout (ν β : Type) := List ν → Option (Entry β)

namespace Layout

variable {ν β : Type} {f g : Layout ν β} {l m x : List ν}

def fileAt (f : Layout ν β) (l : List ν) : Option β := (f l).bind Entry.data

/-- What is at and below a location. -/
def below (f : Layout ν β) (l : List ν) : Layout ν β := fun x ↦ f (l ++ x)

theorem fileAt_eq_some {data : β} : f.fileAt l = some data ↔ f l = some (.file data) := by
  unfold fileAt
  rcases f l with _ | _ | d <;> simp [Entry.data]

theorem any_isDir : (f l).any Entry.isDir = true ↔ f l = some .dir := by
  rcases f l with _ | _ | d <;> simp [Entry.isDir]

variable [DecidableEq ν]

def bare : Layout ν β := fun x ↦ if x = [] then some .dir else none

def put (f : Layout ν β) (l : List ν) (e : Entry β) : Layout ν β :=
  fun x ↦ if x = l then some e else f x

/-- The directories down to `l`, unless a file is in the way. -/
def makeDirs (f : Layout ν β) (l : List ν) : Option (Layout ν β) :=
  if ∀ x ∈ l.inits, (f.fileAt x).isNone then
    some fun x ↦ if x <+: l then some .dir else f x
  else none

/-- A file at `l` and the directories above it. Its data may depend on the file that was there. -/
def write (f : Layout ν β) (l : List ν) (data : Option β → β) : Option (Layout ν β) :=
  if (f l).any Entry.isDir then none
  else (f.makeDirs l.dropLast).map fun g ↦ g.put l (.file (data (f.fileAt l)))

theorem put_self (e : Entry β) : f.put l e l = some e := if_pos rfl

theorem put_other (e : Entry β) (h : x ≠ l) : f.put l e x = f x := if_neg h

theorem makeDirs_eq_some : f.makeDirs l = some g ↔
    (∀ x, x <+: l → ∀ data, f x ≠ some (.file data)) ∧
      g = fun x ↦ if x <+: l then some .dir else f x := by
  have hway : (∀ x ∈ l.inits, (f.fileAt x).isNone) ↔
      ∀ x, x <+: l → ∀ data, f x ≠ some (.file data) := by
    refine forall_congr' fun x ↦ ?_
    rw [List.mem_inits, Option.isNone_iff_eq_none, Option.eq_none_iff_forall_ne_some]
    exact imp_congr_right fun _ ↦ forall_congr' fun data ↦ not_congr fileAt_eq_some
  unfold makeDirs
  split_ifs with h
  · rw [Option.some.injEq, and_iff_right (hway.mp h), eq_comm]
  · simp [mt hway.mpr h]

theorem write_eq_some {data : Option β → β} : f.write l data = some g ↔
    f l ≠ some .dir ∧ (∀ x, x <+: l.dropLast → ∀ d, f x ≠ some (.file d)) ∧
      g = fun x ↦ if x = l then some (.file (data (f.fileAt l)))
        else if x <+: l.dropLast then some .dir else f x := by
  unfold write
  split_ifs with h
  · simp [any_isDir.mp h]
  · simp only [Option.map_eq_some_iff, makeDirs_eq_some, mt any_isDir.mpr h, ne_eq,
      not_false_eq_true, true_and]
    constructor
    · rintro ⟨g', ⟨hway, rfl⟩, rfl⟩
      exact ⟨hway, rfl⟩
    · rintro ⟨hway, rfl⟩
      exact ⟨_, ⟨hway, rfl⟩, rfl⟩

end Layout

/-- A tree of entries: what has an entry below it is a directory. The keys are the locations
that may be taken, so that what lies below a location can be looked through. -/
structure FileTree (ν β : Type) where
  node : Layout ν β
  keys : List (List ν)
  support : ∀ l, node l ≠ none → l ∈ keys
  root : node [] = some .dir
  closed : ∀ l n, node (l ++ [n]) ≠ none → node l = some .dir

namespace FileTree

variable {ν β : Type} {t t' : FileTree ν β} {l m x : List ν}

def isDir (t : FileTree ν β) (l : List ν) : Bool := (t.node l).any Entry.isDir

theorem isDir_iff : t.isDir l = true ↔ t.node l = some .dir := by
  unfold isDir
  rcases t.node l with _ | _ | data <;> simp [Entry.isDir]

theorem dir_above (h : t.node m ≠ none) (hp : l <+: m) (hne : l ≠ m) :
    t.node l = some .dir := by
  obtain ⟨r, rfl⟩ := hp
  induction r using List.reverseRecOn with
  | nil => exact absurd (by simp) hne
  | append_singleton r n ih =>
    have hr := t.closed (l ++ r) n (by simpa using h)
    by_cases hnil : r = []
    · simpa [hnil] using hr
    · exact ih (by simp [hr]) (by simpa using hnil)

theorem none_below (h : t.node l ≠ some .dir) (hp : l <+: m) (hne : l ≠ m) : t.node m = none := by
  by_contra hm
  exact h (dir_above hm hp hne)

/-- What an interrupted removal leaves: outside nothing differs, inside entries may be gone. -/
def PrunedTo (t : FileTree ν β) (l : List ν) (t' : FileTree ν β) : Prop :=
  ∀ x, t'.node x = t.node x ∨ (l <+: x ∧ t'.node x = none)

theorem PrunedTo.refl (t : FileTree ν β) (l : List ν) : t.PrunedTo l t := fun _ ↦ .inl rfl

variable [DecidableEq ν]

def bare : FileTree ν β where
  node := Layout.bare
  keys := [[]]
  support l h := by
    by_cases hl : l = []
    · simp [hl]
    · simp [Layout.bare, hl] at h
  root := rfl
  closed l n h := by simp [Layout.bare] at h

omit [DecidableEq ν] in
theorem bare_no_file (l : List ν) (data : β) : (bare : FileTree ν β).node l ≠ some (.file data) := by
  simp only [bare, Layout.bare]
  split_ifs <;> simp

def Fits (t : FileTree ν β) (l : List ν) (e : Entry β) : Prop :=
  l ≠ [] ∧ t.isDir l.dropLast = true ∧ (e.isDir = true ∨ t.isDir l = false)

instance (t : FileTree ν β) (l : List ν) (e : Entry β) : Decidable (t.Fits l e) := by
  unfold Fits
  infer_instance

def put (t : FileTree ν β) (l : List ν) (e : Entry β) : FileTree ν β :=
  if h : t.Fits l e then
    { node := t.node.put l e
      keys := l :: t.keys
      support := by
        intro x hx
        by_cases heq : x = l
        · simp [heq]
        · rw [Layout.put_other e heq] at hx
          exact List.mem_cons_of_mem _ (t.support x hx)
      root := by rw [Layout.put_other e h.1.symm, t.root]
      closed := by
        intro x n hx
        by_cases hchild : x ++ [n] = l
        · have hparent : x = l.dropLast := by rw [← hchild, List.dropLast_concat]
          rw [Layout.put_other e (by rw [← hchild]; simp), hparent]
          exact isDir_iff.mp h.2.1
        · rw [Layout.put_other e hchild] at hx
          have hdir := t.closed x n hx
          by_cases heq : x = l
          · subst heq
            rw [Layout.put_self]
            rcases h.2.2 with he | hnot
            · cases e with
              | dir => rfl
              | file data => cases he
            · exact absurd (isDir_iff.mpr hdir) (by simp [hnot])
          · rw [Layout.put_other e heq, hdir] }
  else t

theorem node_put {e : Entry β} (h : t.Fits l e) : (t.put l e).node = t.node.put l e := by
  rw [put, dif_pos h]

theorem node_put_other {e : Entry β} (h : x ≠ l) : (t.put l e).node x = t.node x := by
  by_cases hfits : t.Fits l e
  · rw [node_put hfits, Layout.put_other e h]
  · rw [put, dif_neg hfits]

def prune (t : FileTree ν β) (l : List ν) : FileTree ν β :=
  if h : l = [] then t else
    { node := fun x ↦ if l <+: x then none else t.node x
      keys := t.keys
      support := by
        intro x hx
        split_ifs at hx with hp
        · exact absurd rfl hx
        · exact t.support x hx
      root := by rw [if_neg (by simpa using h), t.root]
      closed := by
        intro x n hx
        split_ifs at hx with hp
        · exact absurd rfl hx
        · rw [if_neg fun hpx ↦ hp (hpx.trans (List.prefix_append x [n])), t.closed x n hx] }

theorem node_prune (h : l ≠ []) :
    (t.prune l).node x = if l <+: x then none else t.node x := by
  rw [prune, dif_neg h]

def emptyBelow (t : FileTree ν β) (l : List ν) : Bool :=
  decide (∀ x ∈ t.keys, l <+: x → x ≠ l → (t.node x).isNone = true)

theorem emptyBelow_iff : t.emptyBelow l = true ↔ ∀ x, l <+: x → x ≠ l → t.node x = none := by
  simp only [emptyBelow, decide_eq_true_eq, Option.isNone_iff_eq_none]
  constructor
  · intro h x hp hne
    by_contra hx
    exact hx (h x (t.support x hx) hp hne)
  · exact fun h x _ ↦ h x

theorem emptyBelow_of_none (h : t.node l = none) : t.emptyBelow l = true := by
  rw [emptyBelow_iff]
  intro x hp hne
  exact none_below (by simp [h]) hp (Ne.symm hne)

def Movable (t : FileTree ν β) (src dst : List ν) : Prop :=
  src ≠ [] ∧ dst ≠ [] ∧ (t.node src).isSome = true ∧ ¬ src <+: dst ∧ t.isDir dst.dropLast = true ∧
    t.emptyBelow dst = true

instance (t : FileTree ν β) (src dst : List ν) : Decidable (t.Movable src dst) := by
  unfold Movable
  infer_instance

/-- Moves a subtree, over what is at the destination. -/
def move (t : FileTree ν β) (src dst : List ν) : FileTree ν β :=
  if h : t.Movable src dst then
    { node := fun x ↦
        if dst <+: x then t.node (src ++ x.drop dst.length)
        else if src <+: x then none else t.node x
      keys := t.keys ++ t.keys.map fun x ↦ dst ++ x.drop src.length
      support := by
        intro x hx
        split_ifs at hx with hd hs
        · obtain ⟨r, rfl⟩ := hd
          rw [List.drop_left] at hx
          exact List.mem_append_right _ (List.mem_map.mpr ⟨_, t.support _ hx, by simp⟩)
        · exact absurd rfl hx
        · exact List.mem_append_left _ (t.support x hx)
      root := by
        rw [if_neg (by simpa using h.2.1), if_neg (by simpa using h.1), t.root]
      closed := by
        intro x n hx
        split_ifs at hx with hd hs
        · by_cases hdst : dst <+: x
          · obtain ⟨r, rfl⟩ := hdst
            rw [if_pos (List.prefix_append _ _), List.drop_left]
            refine t.closed (src ++ r) n ?_
            simpa using hx
          · have heq : dst = x ++ [n] := by
              rcases List.prefix_concat_iff.mp hd with heq | hp
              · exact heq
              · exact absurd hp hdst
            have hsrc : ¬ src <+: x := fun hp ↦
              h.2.2.2.1 (heq ▸ hp.trans (List.prefix_append x [n]))
            have hdir := isDir_iff.mp h.2.2.2.2.1
            rw [heq, List.dropLast_concat] at hdir
            rw [if_neg hdst, if_neg hsrc, hdir]
        · exact absurd rfl hx
        · rw [if_neg fun hp ↦ hd (hp.trans (List.prefix_append x [n])),
            if_neg fun hp ↦ hs (hp.trans (List.prefix_append x [n])), t.closed x n hx] }
  else t

theorem node_move {src dst : List ν} (h : t.Movable src dst) :
    (t.move src dst).node x =
      if dst <+: x then t.node (src ++ x.drop dst.length)
      else if src <+: x then none else t.node x := by
  rw [move, dif_pos h]

/-- There is something at `src`, and nothing yet at `dst` in its directory. -/
def Copyable (t : FileTree ν β) (src dst : List ν) : Prop :=
  (t.node src).isSome = true ∧ dst ≠ [] ∧ t.isDir dst.dropLast = true ∧ (t.node dst).isNone = true

instance (t : FileTree ν β) (src dst : List ν) : Decidable (t.Copyable src dst) := by
  unfold Copyable
  infer_instance

def copy (t : FileTree ν β) (src dst : List ν) : FileTree ν β :=
  if h : t.Copyable src dst then
    { node := fun x ↦ if dst <+: x then t.node (src ++ x.drop dst.length) else t.node x
      keys := t.keys ++ t.keys.map fun x ↦ dst ++ x.drop src.length
      support := by
        intro x hx
        split_ifs at hx with hd
        · obtain ⟨r, rfl⟩ := hd
          rw [List.drop_left] at hx
          exact List.mem_append_right _ (List.mem_map.mpr ⟨_, t.support _ hx, by simp⟩)
        · exact List.mem_append_left _ (t.support x hx)
      root := by rw [if_neg (by simpa using h.2.1), t.root]
      closed := by
        intro x n hx
        split_ifs at hx with hd
        · by_cases hdst : dst <+: x
          · obtain ⟨r, rfl⟩ := hdst
            rw [if_pos (List.prefix_append _ _), List.drop_left]
            refine t.closed (src ++ r) n ?_
            simpa using hx
          · have heq : dst = x ++ [n] := by
              rcases List.prefix_concat_iff.mp hd with heq | hp
              · exact heq
              · exact absurd hp hdst
            have hdir := isDir_iff.mp h.2.2.1
            rw [heq, List.dropLast_concat] at hdir
            rw [if_neg hdst, hdir]
        · rw [if_neg fun hp ↦ hd (hp.trans (List.prefix_append x [n])), t.closed x n hx] }
  else t

theorem prunedTo_prune (h : l ≠ []) : t.PrunedTo l (t.prune l) := by
  intro x
  rw [node_prune h]
  split_ifs with hp
  · exact .inr ⟨hp, rfl⟩
  · exact .inl rfl

end FileTree
