import SquaredPg.Bytes
import Mathlib.Data.List.Infix

namespace SquaredPg

open Ascii

def splitPath (path : Bytes) : List Bytes := (path.splitOn slash).filter fun part ↦ part ≠ []

def joinPath (parts : List Bytes) : Bytes := joinWith [slash] parts

def flattenByte (c : UInt8) : UInt8 := if c = backslash then slash else c

/-- `normalize_relative`: the empty string stands for a text that is refused. -/
def normalizeRelative (path : Bytes) : Bytes :=
  if path = [] then []
  else if path.head? = some slash ∨ path.head? = some backslash then []
  else if path[1]? = some colon then []
  else
    let parts := (splitPath (path.map flattenByte)).filter fun part ↦ part ≠ ascii "."
    if ascii ".." ∈ parts then [] else joinPath parts

def ancestorDirectories (path : Bytes) : List Bytes :=
  ((splitPath path).dropLast.inits.tail).map joinPath

structure Name (c : Bytes) : Prop where
  ne_nil : c ≠ []
  no_slash : slash ∉ c
  ne_dot : c ≠ ascii "."
  ne_dotdot : c ≠ ascii ".."

def Names (cs : List Bytes) : Prop := ∀ c ∈ cs, Name c ∧ backslash ∉ c

/-- What the path of a plan may be: it starts at the workspace and stays below it. -/
structure Confined (path : Bytes) : Prop where
  no_root : path.head? ≠ some slash
  no_backslash : backslash ∉ path
  components : ∀ c ∈ path.splitOn slash, c ≠ [] ∧ c ≠ ascii "." ∧ c ≠ ascii ".."
  no_drive : ∀ letter rest, isLetter letter = true → path ≠ letter :: colon :: rest

def components (path : Bytes) : List Bytes := splitPath (path.map flattenByte)

def kept (path : Bytes) : List Bytes := (components path).filter fun part ↦ part ≠ ascii "."

/-- The texts `normalize_relative` refuses on sight. -/
def Refused (path : Bytes) : Prop :=
  path = [] ∨ path.head? = some slash ∨ path.head? = some backslash ∨ path[1]? = some colon ∨
    ascii ".." ∈ components path

instance : DecidablePred Refused := fun path ↦ by unfold Refused; infer_instance

/-- The first component is a byte of the class `drive`, a colon and more. -/
def StartsWithDrive (drive : UInt8 → Bool) : List Bytes → Bool
  | (letter :: c :: _) :: _ => drive letter && c == colon
  | _ => false

/-- The text shows a drive only once the `.` components in front of it are dropped. -/
def HidesDrive (drive : UInt8 → Bool) (path : Bytes) : Prop :=
  ¬ Refused path ∧ StartsWithDrive drive (kept path) = true

theorem mem_splitPath {path c : Bytes} (h : c ∈ splitPath path) : c ≠ [] ∧ slash ∉ c := by
  obtain ⟨hc, hne⟩ := List.mem_filter.mp h
  refine ⟨by simpa using hne, fun hs ↦ ?_⟩
  have hall : ∀ (s : Bytes), ∀ part ∈ s.splitOn slash, slash ∉ part := by
    intro s
    induction s with
    | nil => simp
    | cons a s ih =>
      intro part hpart
      rw [List.splitOn_cons_eq_if_modifyHead] at hpart
      obtain ⟨first, others, heq⟩ := List.exists_cons_of_ne_nil (List.splitOn_ne_nil slash s)
      rw [heq] at ih hpart
      by_cases ha : a = slash
      · simp only [ha, beq_self_eq_true, ↓reduceIte, List.mem_cons] at hpart
        rcases hpart with rfl | hpart
        · simp
        · exact ih part (by simpa using hpart)
      · simp only [beq_iff_eq, ha, ↓reduceIte, List.modifyHead_cons, List.mem_cons] at hpart
        rcases hpart with rfl | hpart
        · simpa [Ne.symm ha] using ih first (by simp)
        · exact ih part (by simp [hpart])
  exact hall path c hc hs

theorem splitOn_joinPath {cs : List Bytes} (hne : cs ≠ []) (h : ∀ c ∈ cs, slash ∉ c) :
    (joinPath cs).splitOn slash = cs :=
  List.splitOn_intercalate slash h hne

theorem splitPath_joinPath {cs : List Bytes} (h : ∀ c ∈ cs, c ≠ [] ∧ slash ∉ c) :
    splitPath (joinPath cs) = cs := by
  by_cases hne : cs = []
  · subst hne
    rfl
  · rw [splitPath, splitOn_joinPath hne fun c hc ↦ (h c hc).2]
    exact List.filter_eq_self.mpr fun c hc ↦ by simpa using (h c hc).1

theorem splitPath_append (a b : Bytes) : splitPath (a ++ slash :: b) = splitPath a ++ splitPath b := by
  rw [splitPath, List.splitOn_append_cons_self, List.filter_append]
  rfl

theorem joinPath_splitOn (path : Bytes) : joinPath (path.splitOn slash) = path :=
  List.intercalate_splitOn slash

theorem joinPath_cons_cons (a b : Bytes) (cs : List Bytes) :
    joinPath (a :: b :: cs) = a ++ slash :: joinPath (b :: cs) := by
  simp [joinPath, joinWith, List.intercalate_cons_cons]

theorem joinPath_singleton (a : Bytes) : joinPath [a] = a := by
  simp [joinPath, joinWith]

theorem joinPath_append {as bs : List Bytes} (ha : as ≠ []) (hb : bs ≠ []) :
    joinPath (as ++ bs) = joinPath as ++ slash :: joinPath bs := by
  induction as with
  | nil => exact absurd rfl ha
  | cons a as ih =>
    obtain ⟨b, bs, rfl⟩ := List.exists_cons_of_ne_nil hb
    cases as with
    | nil => simp [joinPath_cons_cons, joinPath_singleton]
    | cons a' as =>
      have h := ih (by simp)
      simp only [List.cons_append] at h ⊢
      simp [joinPath_cons_cons, h]

theorem joinPath_eq_nil {cs : List Bytes} (h : ∀ c ∈ cs, c ≠ []) : joinPath cs = [] ↔ cs = [] := by
  constructor
  · intro hnil
    cases cs with
    | nil => rfl
    | cons a cs =>
      have ha := h a (by simp)
      cases cs with
      | nil => exact absurd (by simpa [joinPath_singleton] using hnil) ha
      | cons b cs => simp [joinPath_cons_cons] at hnil
  · rintro rfl
    rfl

namespace Names

variable {cs ds : List Bytes}

theorem slashless (h : Names cs) : ∀ c ∈ cs, c ≠ [] ∧ slash ∉ c :=
  fun c hc ↦ ⟨(h c hc).1.ne_nil, (h c hc).1.no_slash⟩

theorem splitPath_joinPath (h : Names cs) : splitPath (joinPath cs) = cs :=
  SquaredPg.splitPath_joinPath h.slashless

theorem joinPath_eq_nil (h : Names cs) : joinPath cs = [] ↔ cs = [] :=
  SquaredPg.joinPath_eq_nil fun c hc ↦ (h.slashless c hc).1

theorem joinPath_inj (hc : Names cs) (hd : Names ds) : joinPath cs = joinPath ds ↔ cs = ds := by
  refine ⟨fun h ↦ ?_, fun h ↦ h ▸ rfl⟩
  rw [← hc.splitPath_joinPath, h, hd.splitPath_joinPath]

theorem shorten (h : Names cs) (hp : ds <+: cs) : Names ds :=
  fun c hc ↦ h c (hp.subset hc)

theorem no_backslash (h : Names cs) : backslash ∉ joinPath cs := by
  induction cs with
  | nil => simp [joinPath, joinWith]
  | cons a cs ih =>
    have ha := (h a (by simp)).2
    have hrest := ih fun c hc ↦ h c (by simp [hc])
    cases cs with
    | nil => rwa [joinPath_singleton]
    | cons b cs =>
      rw [joinPath_cons_cons]
      simp only [List.mem_append, List.mem_cons, not_or]
      exact ⟨ha, by decide, hrest⟩

theorem startsWith_iff (hd : Names ds) (hc : Names cs) (hne : ds ≠ []) :
    joinPath cs = joinPath ds ∨ (joinPath ds ++ [slash]) <+: joinPath cs ↔ ds <+: cs := by
  constructor
  · rintro (h | ⟨t, ht⟩)
    · rw [(hc.joinPath_inj hd).mp h]
    · have hsplit : splitPath (joinPath cs) = ds ++ splitPath t := by
        rw [← ht, List.append_assoc, List.singleton_append, splitPath_append, hd.splitPath_joinPath]
      rw [hc.splitPath_joinPath] at hsplit
      exact ⟨_, hsplit.symm⟩
  · rintro ⟨es, rfl⟩
    by_cases hes : es = []
    · simp [hes]
    · exact .inr ⟨joinPath es, by simp [joinPath_append hne hes]⟩

end Names

theorem no_backslash_flatten (path : Bytes) : backslash ∉ path.map flattenByte := by
  simp only [List.mem_map, flattenByte, not_exists, not_and]
  intro c _
  split
  · decide
  · assumption

theorem mem_components {path c : Bytes} (h : c ∈ components path) :
    c ≠ [] ∧ slash ∉ c ∧ backslash ∉ c := by
  obtain ⟨hne, hslash⟩ := mem_splitPath h
  refine ⟨hne, hslash, fun hb ↦ no_backslash_flatten path ?_⟩
  have hc := (List.mem_filter.mp h).1
  have hmem : ∀ (parts : List Bytes), c ∈ parts → backslash ∈ joinPath parts := by
    intro parts
    induction parts with
    | nil => simp
    | cons a parts ih =>
      intro hin
      cases parts with
      | nil => simpa [joinPath_singleton, ← List.mem_singleton.mp hin] using hb
      | cons b parts =>
        rw [joinPath_cons_cons]
        rcases List.mem_cons.mp hin with rfl | hin
        · simp [hb]
        · simp [ih hin]
  simpa [joinPath_splitOn] using hmem _ hc

theorem names_kept {path : Bytes} (h : ascii ".." ∉ components path) : Names (kept path) := by
  intro c hc
  obtain ⟨hmem, hdot⟩ := List.mem_filter.mp hc
  obtain ⟨hne, hslash, hback⟩ := mem_components hmem
  exact ⟨⟨hne, hslash, by simpa using hdot, fun heq ↦ h (heq ▸ hmem)⟩, hback⟩

theorem Refused.names {path : Bytes} (h : ¬ Refused path) : Names (kept path) :=
  names_kept fun hin ↦ h (.inr (.inr (.inr (.inr hin))))

theorem mem_inits_tail {α : Type} {l x : List α} : x ∈ l.inits.tail ↔ x <+: l ∧ x ≠ [] := by
  cases l with
  | nil => simp
  | cons a l =>
    rw [List.inits_cons, List.tail_cons, List.mem_map]
    constructor
    · rintro ⟨t, ht, rfl⟩
      exact ⟨List.cons_prefix_cons.mpr ⟨rfl, (List.mem_inits _ _).mp ht⟩, by simp⟩
    · rintro ⟨hx, hne⟩
      obtain ⟨b, t, rfl⟩ := List.exists_cons_of_ne_nil hne
      obtain ⟨rfl, ht⟩ := List.cons_prefix_cons.mp hx
      exact ⟨t, (List.mem_inits _ _).mpr ht, rfl⟩

theorem prefix_dropLast {α : Type} {l x : List α} (hx : x ≠ []) :
    x <+: l.dropLast ↔ x <+: l ∧ x ≠ l := by
  constructor
  · intro h
    refine ⟨h.trans l.dropLast_prefix, ?_⟩
    rintro rfl
    have hlen := h.length_le
    rw [List.length_dropLast] at hlen
    have hpos := List.length_pos_iff.mpr hx
    omega
  · rintro ⟨⟨t, rfl⟩, hne⟩
    have ht : t ≠ [] := fun h ↦ hne (by simp [h])
    rw [List.dropLast_append_of_ne_nil ht]
    exact List.prefix_append x t.dropLast

theorem Names.mem_ancestorDirectories {cs : List Bytes} (h : Names cs) {d : Bytes} :
    d ∈ ancestorDirectories (joinPath cs) ↔
      ∃ ds, ds ≠ [] ∧ ds <+: cs ∧ ds ≠ cs ∧ d = joinPath ds := by
  rw [ancestorDirectories, h.splitPath_joinPath, List.mem_map]
  constructor
  · rintro ⟨ds, hds, rfl⟩
    obtain ⟨hp, hne⟩ := mem_inits_tail.mp hds
    obtain ⟨hp, hproper⟩ := (prefix_dropLast hne).mp hp
    exact ⟨ds, hne, hp, hproper, rfl⟩
  · rintro ⟨ds, hne, hp, hproper, rfl⟩
    exact ⟨ds, mem_inits_tail.mpr ⟨(prefix_dropLast hne).mpr ⟨hp, hproper⟩, hne⟩, rfl⟩

theorem normalizeRelative_of_refused {path : Bytes} (h : Refused path) :
    normalizeRelative path = [] := by
  unfold normalizeRelative
  rcases h with h | h | h | h | h
  · rw [if_pos h]
  · rw [if_pos (Or.inl h), ite_self]
  · rw [if_pos (Or.inr h), ite_self]
  · rw [if_pos h, ite_self, ite_self]
  · have hin : ascii ".." ∈ kept path := List.mem_filter.mpr ⟨h, by decide⟩
    have hlast : (if ascii ".." ∈ kept path then [] else joinPath (kept path)) = [] := if_pos hin
    exact (congrArg _ (congrArg _ (congrArg _ hlast))).trans (by simp)

theorem normalizeRelative_of_not_refused {path : Bytes} (h : ¬ Refused path) :
    normalizeRelative path = joinPath (kept path) := by
  simp only [Refused, not_or] at h
  obtain ⟨hne, hslash, hback, hcolon, hdots⟩ := h
  have hin : ascii ".." ∉ kept path := fun hin ↦ hdots (List.mem_filter.mp hin).1
  simp only [normalizeRelative, hne, hslash, hback, hcolon, or_self, ↓reduceIte]
  exact if_neg hin

theorem normalizeRelative_eq_nil {path : Bytes} :
    normalizeRelative path = [] ↔ Refused path ∨ kept path = [] := by
  by_cases h : Refused path
  · simp [h, normalizeRelative_of_refused]
  · simp [h, normalizeRelative_of_not_refused, (Refused.names h).joinPath_eq_nil]

theorem normalizeRelative_names {path : Bytes} (h : normalizeRelative path ≠ []) :
    ∃ cs, cs ≠ [] ∧ Names cs ∧ normalizeRelative path = joinPath cs := by
  rw [Ne, normalizeRelative_eq_nil, not_or] at h
  exact ⟨_, h.2, Refused.names h.1, normalizeRelative_of_not_refused h.1⟩

theorem joinPath_drive (p : UInt8 → Bool) {cs : List Bytes} (h : Names cs) :
    (∃ letter rest, p letter = true ∧ joinPath cs = letter :: colon :: rest) ↔
      StartsWithDrive p cs = true := by
  match cs with
  | [] => simp [joinPath, joinWith, StartsWithDrive]
  | [] :: _ => exact absurd rfl (h [] (by simp)).1.ne_nil
  | [[a]] => simp [joinPath_singleton, StartsWithDrive]
  | [a] :: b :: cs =>
    simp [joinPath_cons_cons, StartsWithDrive, show slash ≠ colon by decide]
  | [a :: a' :: as] => simp [joinPath_singleton, StartsWithDrive]
  | (a :: a' :: as) :: b :: cs => simp [joinPath_cons_cons, StartsWithDrive]

theorem joinPath_second {cs : List Bytes} (h : Names cs) :
    (joinPath cs)[1]? = some colon ↔ StartsWithDrive (fun _ ↦ true) cs = true := by
  rw [← joinPath_drive _ h]
  rcases joinPath cs with _ | ⟨a, _ | ⟨b, rest⟩⟩
  · simp
  · simp
  · simp

theorem joinPath_head {c : Bytes} {cs : List Bytes} (h : c ≠ []) :
    (joinPath (c :: cs)).head? = c.head? := by
  obtain ⟨a, as, rfl⟩ := List.exists_cons_of_ne_nil h
  cases cs with
  | nil => simp [joinPath_singleton]
  | cons b cs => simp [joinPath_cons_cons]

theorem flatten_eq_self {path : Bytes} (h : backslash ∉ path) : path.map flattenByte = path := by
  refine (List.map_congr_left (g := id) fun c hc ↦ ?_).trans path.map_id
  exact if_neg fun (heq : c = backslash) ↦ h (heq ▸ hc)

theorem Names.components {cs : List Bytes} (h : Names cs) :
    SquaredPg.components (joinPath cs) = cs := by
  rw [SquaredPg.components, flatten_eq_self h.no_backslash, h.splitPath_joinPath]

theorem Names.kept {cs : List Bytes} (h : Names cs) : SquaredPg.kept (joinPath cs) = cs := by
  rw [SquaredPg.kept, h.components]
  exact List.filter_eq_self.mpr fun c hc ↦ by simpa using (h c hc).1.ne_dot

theorem Names.refused_iff {cs : List Bytes} (h : Names cs) (hne : cs ≠ []) :
    Refused (joinPath cs) ↔ StartsWithDrive (fun _ ↦ true) cs = true := by
  obtain ⟨c, cs, rfl⟩ := List.exists_cons_of_ne_nil hne
  have hc := h c (by simp)
  have hhead : ∀ b, c.head? = some b → b ∈ c := fun b hb ↦ List.mem_of_head? hb
  rw [Refused, h.joinPath_eq_nil, joinPath_head hc.1.ne_nil, h.components, joinPath_second h]
  constructor
  · rintro (h₁ | h₁ | h₁ | h₁ | h₁)
    · exact absurd h₁ hne
    · exact absurd (hhead _ h₁) hc.1.no_slash
    · exact absurd (hhead _ h₁) hc.2
    · exact h₁
    · exact absurd rfl (h _ h₁).1.ne_dotdot
  · exact fun h₁ ↦ .inr (.inr (.inr (.inl h₁)))

theorem normalizeRelative_fixpoint {path : Bytes} :
    normalizeRelative (normalizeRelative path) = normalizeRelative path ↔
      ¬ HidesDrive (fun _ ↦ true) path := by
  by_cases hr : Refused path
  · simp [HidesDrive, hr, normalizeRelative_of_refused, show normalizeRelative [] = [] from rfl]
  have hnames := Refused.names hr
  rw [normalizeRelative_of_not_refused hr]
  by_cases hnil : kept path = []
  · simp [HidesDrive, hnil, StartsWithDrive, joinPath, joinWith,
      show normalizeRelative [] = [] from rfl]
  by_cases hdrive : StartsWithDrive (fun _ ↦ true) (kept path) = true
  · have hne := mt hnames.joinPath_eq_nil.mp hnil
    rw [normalizeRelative_of_refused ((hnames.refused_iff hnil).mpr hdrive)]
    simpa [HidesDrive, hr, hdrive] using Ne.symm hne
  · have hnot := mt (hnames.refused_iff hnil).mp hdrive
    simp [normalizeRelative_of_not_refused hnot, hnames.kept, HidesDrive, hdrive]

theorem Names.confined_iff {cs : List Bytes} (h : Names cs) (hne : cs ≠ []) :
    Confined (joinPath cs) ↔ StartsWithDrive isLetter cs = false := by
  rw [← Bool.not_eq_true, ← joinPath_drive isLetter h]
  constructor
  · rintro hc ⟨letter, rest, hl, heq⟩
    exact hc.no_drive letter rest hl heq
  · intro hd
    obtain ⟨c, cs, rfl⟩ := List.exists_cons_of_ne_nil hne
    have hc := h c (by simp)
    refine ⟨?_, h.no_backslash, ?_, fun letter rest hl heq ↦ hd ⟨letter, rest, hl, heq⟩⟩
    · rw [joinPath_head hc.1.ne_nil]
      exact fun hs ↦ hc.1.no_slash (List.mem_of_head? hs)
    · rw [splitOn_joinPath hne fun c hc ↦ (h c hc).1.no_slash]
      exact fun c hc ↦ ⟨(h c hc).1.ne_nil, (h c hc).1.ne_dot, (h c hc).1.ne_dotdot⟩

theorem normalizeRelative_confined {path : Bytes} (h : normalizeRelative path ≠ []) :
    Confined (normalizeRelative path) ↔ ¬ HidesDrive isLetter path := by
  rw [Ne, normalizeRelative_eq_nil, not_or] at h
  rw [normalizeRelative_of_not_refused h.1, (Refused.names h.1).confined_iff h.2]
  simp [HidesDrive, h.1]

end SquaredPg
