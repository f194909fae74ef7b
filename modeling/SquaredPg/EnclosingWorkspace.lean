import SquaredPg.Nested
import SquaredPg.TierSafety

namespace SquaredPg

open Ascii

/-- The first result of `path:match("^(.*)/[^/]+$")`. -/
def Env.parent (path : Bytes) : Option Bytes :=
  let above := path.rdropWhile fun c ↦ c ≠ slash
  if above = [] ∨ above = path then none else some above.dropLast

theorem Env.parent_length {path parent : Bytes} (h : Env.parent path = some parent) :
    parent.length < path.length := by
  unfold Env.parent at h
  dsimp only at h
  split_ifs at h with hnone
  rw [← Option.some.inj h, List.length_dropLast]
  have hle := (List.rdropWhile_prefix (fun c ↦ decide (c ≠ slash)) path).length_le
  have hpos := List.length_pos_iff.mpr (not_or.mp hnone).1
  omega

namespace Machine

variable (m : Machine) (st : HostState)

/-- The loop of `env.find_workspace`. -/
def searchUp (here : Bytes) : Option Bytes :=
  if m.exists_ (here ++ ascii "/.squared/metadata.json") st then some here
  else
    match _h : Env.parent here with
    | none => none
    | some parent => if parent = [] ∨ parent = here then none else searchUp parent
termination_by here.length
decreasing_by exact Env.parent_length _h

def findWorkspace (start : Bytes) : Option Bytes := (m.resolve start st).bind (m.searchUp st)

end Machine

/-- The text of a location. -/
def locationText (cs : Location) : Bytes := slash :: joinPath cs

/-- The names that the entries of a location can have. -/
def EntryName (c : Bytes) : Prop := Plain c ∧ slash ∉ c ∧ (0 : UInt8) ∉ c

instance : DecidablePred EntryName := fun c ↦ by unfold EntryName; infer_instance

variable {m : Machine} {st : HostState} {cs : Location} {c : Bytes}

theorem locationText_concat (cs : Location) (c : Bytes) :
    locationText (cs ++ [c]) = (if cs = [] then [] else locationText cs) ++ slash :: c := by
  unfold locationText
  split_ifs with hnil
  · rw [hnil, List.nil_append, List.nil_append, joinPath_singleton]
  · rw [joinPath_append hnil (by simp), joinPath_singleton]
    simp

theorem rdropWhile_name (hc : slash ∉ c) (base : Bytes) :
    (base ++ slash :: c).rdropWhile (fun d ↦ d ≠ slash) = base ++ [slash] := by
  induction c using List.reverseRecOn with
  | nil => simp
  | append_singleton c d ih =>
    rw [List.mem_append, List.mem_singleton, not_or] at hc
    have hshape : base ++ slash :: (c ++ [d]) = (base ++ slash :: c) ++ [d] := by simp
    rw [hshape, List.rdropWhile_concat, if_pos (by simpa using fun h ↦ hc.2 h.symm), ih hc.1]

theorem parent_locationText (hc : EntryName c) :
    Env.parent (locationText (cs ++ [c])) = some (if cs = [] then [] else locationText cs) := by
  rw [locationText_concat]
  generalize (if cs = [] then [] else locationText cs) = base
  unfold Env.parent
  dsimp only
  rw [rdropWhile_name hc.2.1, if_neg, List.dropLast_concat]
  rintro (hnil | hsame)
  · simp at hnil
  · have hlength := congrArg List.length hsame
    have hpos := List.length_pos_iff.mpr hc.1.1
    simp only [List.length_append, List.length_cons, List.length_nil] at hlength
    omega

theorem splitPath_locationText (hcs : ∀ c ∈ cs, EntryName c) : splitPath (locationText cs) = cs := by
  have hsplit := splitPath_append [] (joinPath cs)
  rw [List.nil_append] at hsplit
  rw [locationText, hsplit, splitPath_joinPath fun c hc ↦ ⟨(hcs c hc).1.1, (hcs c hc).2.1⟩]
  rfl

theorem locationText_no_nul (hcs : ∀ c ∈ cs, EntryName c) : (0 : UInt8) ∉ locationText cs := by
  induction cs using List.reverseRecOn with
  | nil => decide
  | append_singleton cs c ih =>
    have hnone := ih fun d hd ↦ hcs d (by simp [hd])
    have hc : (0 : UInt8) ∉ c := (hcs c (by simp)).2.2
    rw [locationText_concat, List.mem_append, List.mem_cons]
    rintro (h | h | h)
    · split_ifs at h
      · cases h
      · exact hnone h
    · cases h
    · exact hc h

open MetadataService TransactionService in
theorem exists_record (hcs : ∀ c ∈ cs, EntryName c) :
    m.exists_ (locationText cs ++ ascii "/.squared/metadata.json") st = true ↔
      Workspace st.fs cs := by
  have hnul : (0 : UInt8) ∉ locationText cs ++ ascii "/.squared/metadata.json" := by
    rw [List.mem_append, not_or]
    exact ⟨locationText_no_nul hcs, by decide⟩
  have hrecord : ascii "/.squared/metadata.json" = slash :: kMetadataFile := by decide
  have hlast : (locationText cs ++ slash :: kMetadataFile).getLast? ≠ some slash := by
    have hend : (slash :: kMetadataFile).getLast? = some (charByte 'n') := by decide
    rw [List.getLast?_append, hend, Option.some_or]
    decide
  have hstem : HostPath.stem ⟨true, cs⟩ = cs :=
    if_neg fun h ↦ (hcs [] (List.mem_of_getLast? h)).1.1 rfl
  have hparts : HostPath.ofBytes (locationText cs ++ slash :: kMetadataFile) =
      recordOf ⟨true, cs⟩ := by
    have hsplit := splitPath_append (locationText cs) kMetadataFile
    rw [splitPath_locationText hcs] at hsplit
    have hrecordOf : recordOf ⟨true, cs⟩ = ⟨true, cs ++ splitPath kMetadataFile⟩ := by
      simp [recordOf, HostPath.append, inside_kMetadataFile.relative, inside_kMetadataFile.nonempty,
        hstem]
    rw [hrecordOf, HostPath.ofBytes, hsplit, if_neg fun h ↦ hlast h.1, List.append_nil]
    rfl
  have hlocate : ∀ ds, ds <+: cs → locate [] ds = ds := by
    intro ds hds
    rw [locate_plain fun c hc ↦ (hcs c (hds.subset hc)).1, List.nil_append]
  have hmade : Workspace st.fs cs → FileSystem.Made st.fs [] cs := by
    intro hspace ds hds
    rw [hlocate ds hds]
    exact hspace.dir_above hds
  rw [Machine.exists_eq m hnul, Machine.existsAt, hrecord, hparts, decide_eq_true_iff,
    existsAt_recordOf fun h ↦ (hcs [] h).1.1 rfl, hlocate cs List.prefix_rfl]
  exact ⟨fun h ↦ h.2.2, fun h ↦ ⟨by simp [locationText], hmade h, h⟩⟩

namespace Machine

open TransactionService

theorem searchUp_eq (m : Machine) (st : HostState) (hcs : ∀ c ∈ cs, EntryName c) (hc : EntryName c) :
    m.searchUp st (locationText (cs ++ [c])) =
      if Workspace st.fs (cs ++ [c]) then some (locationText (cs ++ [c]))
      else if cs = [] then none else m.searchUp st (locationText cs) := by
  have hall : ∀ d ∈ cs ++ [c], EntryName d := by
    intro d hd
    rcases List.mem_append.mp hd with hd | hd
    · exact hcs d hd
    · rw [List.mem_singleton.mp hd]
      exact hc
  have hparent := @parent_locationText cs c hc
  have hshort := Env.parent_length hparent
  rw [searchUp]
  simp only [exists_record hall]
  split_ifs with hspace hnil
  · rfl
  · rw [if_pos hnil] at hparent
    split
    · rfl
    · rename_i parent heq
      rw [hparent] at heq
      rw [if_pos (.inl (Option.some.inj heq).symm)]
  · rw [if_neg hnil] at hparent hshort
    split
    · rename_i heq
      rw [hparent] at heq
      cases heq
    · rename_i parent heq
      rw [hparent] at heq
      obtain rfl := Option.some.inj heq
      rw [if_neg]
      rintro (h | h)
      · cases h
      · rw [h] at hshort
        omega

/-- The nearest of a directory and those above it that has a record; the root is one of them only
where the search starts from there. -/
def Nearest (fs : FileSystem) (cs ds : Location) : Prop :=
  ds <+: cs ∧ (ds = [] → cs = []) ∧ Workspace fs ds ∧
    ∀ es, es <+: cs → ds.length < es.length → ¬ Workspace fs es

theorem nearest_concat {fs : FileSystem} {ds : Location} (hcs : cs ≠ [])
    (hspace : ¬ Workspace fs (cs ++ [c])) : Nearest fs (cs ++ [c]) ds ↔ Nearest fs cs ds := by
  constructor
  · rintro ⟨hds, hroot, hd, hnone⟩
    have hbelow : ds <+: cs := by
      refine (List.prefix_concat_iff.mp hds).resolve_left ?_
      rintro rfl
      exact hspace hd
    refine ⟨hbelow, fun hnil ↦ ?_, hd, fun es hes ↦ hnone es (hes.trans (List.prefix_append _ _))⟩
    exact absurd (hroot hnil) (by simp)
  · rintro ⟨hds, hroot, hd, hnone⟩
    refine ⟨hds.trans (List.prefix_append _ _), fun hnil ↦ absurd (hroot hnil) hcs, hd,
      fun es hes hlong ↦ ?_⟩
    rcases List.prefix_concat_iff.mp hes with rfl | hes
    · exact hspace
    · exact hnone es hes hlong

theorem nearest_self {fs : FileSystem} {ds : Location} (hspace : Workspace fs cs) :
    Nearest fs cs ds ↔ ds = cs := by
  constructor
  · rintro ⟨hds, -, -, hnone⟩
    by_contra hne
    refine hnone cs List.prefix_rfl ?_ hspace
    exact lt_of_le_of_ne hds.length_le fun heq ↦ hne (hds.eq_of_length heq)
  · rintro rfl
    exact ⟨List.prefix_rfl, id, hspace, fun es hes hlong ↦ absurd hes.length_le (by omega)⟩

theorem searchUp_nearest (m : Machine) (st : HostState) (hcs : ∀ c ∈ cs, EntryName c)
    {found : Bytes} : m.searchUp st (locationText cs) = some found ↔
      ∃ ds, Nearest st.fs cs ds ∧ found = locationText ds := by
  induction cs using List.reverseRecOn with
  | nil =>
    have hparent : Env.parent (locationText []) = none := by decide
    rw [searchUp]
    simp only [exists_record hcs]
    split_ifs with hspace
    · simp [nearest_self hspace, eq_comm]
    · split
      · refine iff_of_false (by simp) ?_
        rintro ⟨ds, ⟨hds, -, hd, -⟩, -⟩
        rw [List.prefix_nil.mp hds] at hd
        exact hspace hd
      · rename_i parent heq
        rw [hparent] at heq
        cases heq
  | append_singleton cs c ih =>
    rw [searchUp_eq m st (fun d hd ↦ hcs d (by simp [hd])) (hcs c (by simp))]
    split_ifs with hspace hnil
    · simp [nearest_self hspace, eq_comm]
    · refine iff_of_false (by simp) ?_
      rintro ⟨ds, ⟨hds, hroot, hd, -⟩, -⟩
      rcases List.prefix_concat_iff.mp hds with rfl | hds
      · exact hspace hd
      · rw [hnil, List.prefix_nil] at hds
        exact absurd (hroot hds) (by simp)
    · simp only [nearest_concat hnil hspace]
      exact ih fun d hd ↦ hcs d (by simp [hd])

/-- `find_workspace` finds the nearest workspace at or above the directory that it starts from. -/
theorem findWorkspace_nearest (m : Machine) (st : HostState) {start found : Bytes}
    (hcs : ∀ c ∈ cs, EntryName c) (hstart : m.resolve start st = some (locationText cs)) :
    m.findWorkspace st start = some found ↔
      ∃ ds, Nearest st.fs cs ds ∧ found = locationText ds := by
  rw [findWorkspace, hstart]
  exact searchUp_nearest m st hcs

/-- A shell in a directory of the workspace. -/
def machineBelow : Machine :=
  { plainMachine with
    cwd := [ascii "a", ascii "b"]
    capture := fun _ _ ↦ ascii "/a/b\n" }

theorem workspace_above_found :
    machineBelow.findWorkspace
      { fs := TransactionService.workspaceDisk.put [ascii "a", ascii "b"] .dir } (ascii ".") =
        some (ascii "/a") := by
  refine (@findWorkspace_nearest [ascii "a", ascii "b"] machineBelow _ _ _ (by decide)
    (by decide)).mpr ⟨[ascii "a"], ⟨by decide, by decide, by decide, fun es hes hlong ↦ ?_⟩, by decide⟩
  have hall : ∀ es ∈ [ascii "a", ascii "b"].inits, 1 < es.length →
      ¬ Workspace (TransactionService.workspaceDisk.put [ascii "a", ascii "b"] .dir) es := by decide
  exact hall es ((List.mem_inits es _).mpr hes) hlong

end Machine

end SquaredPg
