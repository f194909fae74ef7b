import SquaredPg.JsonLiterals
import SquaredPg.Lists
import SquaredPg.Provenance

namespace SquaredPg

open Ascii Fallible

def IsAscii (s : Bytes) : Prop := ∀ c ∈ s, c < 0x80

theorem IsAscii.valid {s : Bytes} (h : IsAscii s) : Utf8.valid s = true := by
  have hbound : ∀ (n : ℕ) (s : Bytes), s.length ≤ n → IsAscii s → Utf8.validUpTo n s = true := by
    intro n
    induction n with
    | zero =>
      intro s hn _
      rw [List.length_eq_zero_iff.mp (Nat.le_zero.mp hn), Utf8.validUpTo]
    | succ n ih =>
      intro s hn hs
      rcases s with _ | ⟨c, s⟩
      · rfl
      · have hone : Utf8.sequenceLength (c :: s) = 1 := by
          simp [Utf8.sequenceLength, hs c (by simp)]
        have hrest := ih s (by simpa using hn) fun d hd ↦ hs d (by simp [hd])
        simp [Utf8.validUpTo, hone, hrest]
  exact hbound s.length s le_rfl h

theorem IsAscii.append {s t : Bytes} (hs : IsAscii s) (ht : IsAscii t) : IsAscii (s ++ t) :=
  fun c hc ↦ (List.mem_append.mp hc).elim (hs c) (ht c)

theorem IsAscii.cons {c : UInt8} {s : Bytes} (hc : c < 0x80) (hs : IsAscii s) : IsAscii (c :: s) :=
  fun d hd ↦ (List.mem_cons.mp hd).elim (fun h ↦ h ▸ hc) (hs d)

theorem IsAscii.nil : IsAscii [] := fun _ h ↦ by cases h

theorem isAscii_of_parts {text : Bytes} (h : ∀ part ∈ text.splitOn dot, IsAscii part) :
    IsAscii text := by
  have hjoin : ∀ parts : List Bytes, (∀ part ∈ parts, IsAscii part) →
      IsAscii ([dot].intercalate parts) := by
    intro parts
    induction parts with
    | nil => exact fun _ ↦ .nil
    | cons part parts ih =>
      intro hparts
      rcases parts with _ | ⟨q, parts⟩
      · simpa using hparts part (by simp)
      · rw [List.intercalate_cons_cons]
        refine ((hparts part (by simp)).append (.cons (by decide) .nil)).append ?_
        exact ih fun r hr ↦ hparts r (by simp [hr])
  have hjoined : [dot].intercalate (text.splitOn dot) = text := List.intercalate_splitOn dot
  exact hjoined ▸ hjoin _ h

theorem digit_lt {c : UInt8} (h : isDigit c = true) : c < 0x80 := by
  have hc := (isDigit_iff.mp h).2
  exact UInt8.lt_iff_toNat_lt.mpr (by simp only [UInt8.reduceToNat]; omega)

theorem lower_lt {c : UInt8} (h : isLower c = true) : c < 0x80 := by
  simp only [isLower, decide_eq_true_eq] at h
  exact UInt8.lt_of_le_of_lt h.2 (by decide)

theorem upper_lt {c : UInt8} (h : isUpper c = true) : c < 0x80 := by
  simp only [isUpper, decide_eq_true_eq] at h
  exact UInt8.lt_of_le_of_lt h.2 (by decide)

theorem isAscii_segmentFrom {text : Bytes} : ∀ {previous : UInt8},
    validSegmentFrom previous text = true → IsAscii text := by
  induction text with
  | nil => exact fun _ ↦ .nil
  | cons c text ih =>
    intro previous h
    rw [validSegmentFrom] at h
    split_ifs at h with hchar
    refine .cons ?_ (ih h)
    simp only [Bool.and_eq_true, Bool.not_eq_true', Bool.or_eq_false_iff, not_and,
      Bool.not_eq_false] at hchar
    by_cases hsep : isSegmentSeparator c = true
    · simp only [isSegmentSeparator, decide_eq_true_eq] at hsep
      rcases hsep with rfl | rfl <;> decide
    · by_cases hl : isLower c = true
      · exact lower_lt hl
      · exact digit_lt (hchar (by simpa using hsep) (by simpa using hl))

theorem ResourceId.isAscii (id : ResourceId) : IsAscii id.str := by
  rcases id.valid with hempty | hvalid
  · rw [hempty]
    exact .nil
  · simp only [validIdentifier, decide_eq_true_eq, List.all_eq_true] at hvalid
    refine isAscii_of_parts fun part hpart ↦ ?_
    have hsegment := hvalid.2.2.1 part hpart
    rcases part with _ | ⟨c, part⟩
    · exact .nil
    · simp only [validSegment, Bool.and_eq_true] at hsegment
      exact .cons (lower_lt hsegment.1) (isAscii_segmentFrom hsegment.2)

theorem isAscii_dotSeparated {text : Bytes} (h : text = [] ∨ validDotSeparated text = true) :
    IsAscii text := by
  rcases h with rfl | h
  · exact .nil
  · simp only [validDotSeparated, decide_eq_true_eq, List.all_eq_true] at h
    refine isAscii_of_parts fun part hpart c hc ↦ ?_
    have hchar := (h.2 part hpart).2 c hc
    simp only [isIdentifierChar, isLetter, Bool.or_eq_true, beq_iff_eq] at hchar
    rcases hchar with ((hl | hu) | hd) | rfl
    · exact lower_lt hl
    · exact upper_lt hu
    · exact digit_lt hd
    · decide

theorem isAscii_decimal (n : ℕ) : IsAscii (decimal n) := fun _ hc ↦ digit_lt (decimal_digits hc)

theorem Version.isAscii (v : Version) : IsAscii v.toString := by
  have hsuffix : ∀ (c : UInt8) (s : Bytes), c < 0x80 → IsAscii s →
      IsAscii (if s = [] then [] else c :: s) := by
    intro c s hc hs
    split_ifs
    · exact .nil
    · exact .cons hc hs
  have hnumber : ∀ n, IsAscii (dot :: decimal n) := fun n ↦ .cons (by decide) (isAscii_decimal n)
  have hcore := ((isAscii_decimal v.major.toNat).append (hnumber v.minor.toNat)).append
    (hnumber v.patch.toNat)
  have hprerelease := hsuffix minus _ (by decide) (isAscii_dotSeparated v.prerelease_valid)
  have hbuild := hsuffix plus _ (by decide) (isAscii_dotSeparated v.build_valid)
  exact (hcore.append hprerelease).append hbuild

variable {set : ResolvedSet} {config : Value} {engineVersion : Version}
  {diagnostics : List Diagnostic} {plan : GenerationPlan}

def Draft.FromContributions (contributions : List Contribution) (draft : Draft) : Prop :=
  ∀ step ∈ draft.steps, step.action = .writeFile → ∃ contribution ∈ contributions,
    step.origin = contribution.resource.id ∧ step.originVersion = contribution.resource.version

theorem Draft.FromContributions.contributeEntry {contributions : List Contribution}
    {contribution : Contribution} {policy : Policy} {parameters : Value} {directory entry : Bytes}
    {draft draft' : Draft} (h : draft.FromContributions contributions)
    (hmem : contribution ∈ contributions)
    (hok : contributeEntry contribution policy parameters directory draft entry = .ok draft') :
    draft'.FromContributions contributions := by
  unfold SquaredPg.contributeEntry at hok
  cases hname : payloadName contribution.resource entry with
  | none =>
    simp only [hname, Except.ok.injEq] at hok
    exact hok ▸ h
  | some relative =>
    simp only [hname, bind_eq_ok, mapError_eq_ok] at hok
    obtain ⟨text, -, hok⟩ := hok
    obtain ⟨diagnostics, ownership, content, -, -, rfl⟩ := contributePath_eq_ok hok
    intro step hstep haction
    rcases mem_addPayload hstep with hstep | ⟨d, rfl⟩ | rfl
    · exact h step hstep haction
    · cases haction
    · exact ⟨contribution, hmem, rfl, rfl⟩

theorem Draft.FromContributions.contribute {contributions : List Contribution}
    {contribution : Contribution} {parameters : Value} {directory : Bytes} {draft draft' : Draft}
    (h : draft.FromContributions contributions) (hmem : contribution ∈ contributions)
    (hok : contribute parameters directory draft contribution = .ok draft') :
    draft'.FromContributions contributions := by
  unfold SquaredPg.contribute at hok
  dsimp only at hok
  split at hok
  · cases hok
  · exact foldlM_induction (fun _ draft ↦ draft.FromContributions contributions)
      (fun _ _ _ _ hs hstep ↦ hs.contributeEntry hmem hstep) h hok

/-- What a plan names beside its paths: the inputs of the configuration, and of the resolved set. -/
structure GenerationPlan.NamesOf (plan : GenerationPlan) (set : ResolvedSet) (config : Value) :
    Prop where
  projectName : plan.projectName = config.stringOr (ascii "name") []
  workspace : plan.workspace = config.stringOr (ascii "output") []
  frameworkVersion : plan.frameworkVersion = config.stringOr (ascii "framework") []
  workingDirectory : plan.workingDirectory = SquaredPg.workingDirectory set.projectTemplate
  platforms : plan.platforms = set.platforms
  versions : ∀ version ∈ plan.templateVersion :: (plan.kitVersions ++ plan.packageVersions),
    ∃ resource : ResolvedResource, version = resource.version
  assets : ∀ ref ∈ plan.assets, ref.range = []
  origins : ∀ step ∈ plan.steps, step.isDirectory = false →
    ∃ resource : ResolvedResource, step.originVersion = resource.version

theorem buildPlan_names (h : buildPlan set config engineVersion diagnostics = .ok plan) :
    plan.NamesOf set config := by
  have hcovers := (buildPlan_covers h).2
  simp only [buildPlan, bind_eq_ok, pure, Except.pure, Except.ok.injEq] at h
  obtain ⟨draft, hdraft, rfl⟩ := h
  have hfrom : draft.FromContributions set.contributions := by
    have hfold := foldlM_induction (fun done draft ↦ (∀ c ∈ done, c ∈ set.contributions) →
      draft.FromContributions set.contributions)
      (fun done c s s' hs hstep hall ↦ (hs fun d hd ↦ hall d (by simp [hd])).contribute
        (hall c (by simp)) hstep) (fun _ step hstep ↦ by cases hstep) hdraft
    exact hfold fun c hc ↦ hc
  constructor
  · rfl
  · rfl
  · rfl
  · rfl
  · rfl
  · intro version hversion
    simp only [List.mem_cons, List.mem_append, List.mem_map] at hversion
    rcases hversion with rfl | ⟨kit, -, rfl⟩ | ⟨package, -, rfl⟩
    · exact ⟨set.projectTemplate, rfl⟩
    · exact ⟨kit, rfl⟩
    · exact ⟨package, rfl⟩
  · intro ref href
    obtain ⟨asset, -, rfl⟩ := List.mem_map.mp href
    rfl
  · intro step hstep hfile
    rcases mem_addWorkingDirectory.mp ((sortSteps_perm _).mem_iff.mp hstep) with hs | ⟨-, rfl⟩
    · have haction := (hcovers.actions step hstep).resolve_right fun h ↦ by
        simp [PlanStep.isDirectory, h] at hfile
      obtain ⟨contribution, -, -, hversion⟩ := hfrom step hs haction
      exact ⟨contribution.resource, hversion⟩
    · cases hfile

namespace TransactionService

open MetadataService

/-- The texts of the record that nothing keeps to ASCII. -/
def quotedTexts (set : ResolvedSet) (config : Value) (engineVersion : Version) : List Bytes :=
  config.stringOr (ascii "name") [] :: config.stringOr (ascii "framework") [] ::
    workingDirectory set.projectTemplate ::
      (set.platforms ++ claimedPaths set config engineVersion)

variable {steps : List PlanStep} {fast : Bool}

theorem committedRecord_eq (plan : GenerationPlan) (engineVersion : Version) (fast : Bool) :
    committedRecord plan engineVersion fast =
      .object
        [(ascii "record_version", .integer kRecordVersion),
          (ascii "generator", .string (ascii "squared-pg")),
          (ascii "generator_version", .string engineVersion.toString),
          (ascii "project", .object
            [(ascii "name", .string plan.projectName),
              (ascii "working_directory", .string plan.workingDirectory),
              (ascii "platforms", .strings plan.platforms),
              (ascii "framework_version", .string plan.frameworkVersion)]),
          (ascii "resources", .object
            [(ascii "template", resourceEntry plan.templateRef.id plan.templateVersion),
              (ascii "kits", resourceEntries plan.kits plan.kitVersions),
              (ascii "packages", resourceEntries plan.packages plan.packageVersions),
              (ascii "assets", .strings (plan.assets.map ResourceRef.toString))]),
          (ascii "layers", .object [(ascii "application", .strings [plan.workingDirectory])]),
          (ascii "provenance", .array (provenance plan.steps (stepHashes plan.steps))),
          (ascii "durability", .string (ascii (if fast then "fast" else "durable")))] := rfl

theorem isAscii_toHex (digest : Digest) : IsAscii (toHex digest) := by
  have hdigit : ∀ n < 16, hexDigit n < 0x80 := by decide
  intro c hc
  simp only [toHex, List.mem_flatMap, List.mem_cons, List.not_mem_nil, or_false] at hc
  obtain ⟨b, -, rfl | rfl⟩ := hc
  · have hb := b.toNat_lt
    exact hdigit _ (by omega)
  · exact hdigit _ (by omega)

theorem quotes_resourceEntry {id : ResourceId} {version : Bytes} (h : Utf8.valid version = true) :
    (resourceEntry id version).texts.all Utf8.valid = true := by
  simp +decide [resourceEntry, Value.texts_object, Value.texts_string, id.isAscii.valid, h]

theorem quotes_resourceEntries {refs : List ResourceRef} {versions : List Bytes}
    (h : ∀ version ∈ versions, Utf8.valid version = true) :
    (resourceEntries refs versions).texts.all Utf8.valid = true := by
  rw [resourceEntries, Value.texts_array, List.all_eq_true]
  intro entry hentry
  obtain ⟨i, hi, rfl⟩ := List.mem_mapIdx.mp hentry
  refine quotes_resourceEntry ?_
  cases hversion : versions[i]? with
  | none => rfl
  | some version => exact h version (List.mem_of_getElem? hversion)

theorem isAscii_hash (steps : List PlanStep) (path : Bytes) :
    IsAscii (((stepHashes steps).lookup path).getD []) := by
  cases hlookup : (stepHashes steps).lookup path with
  | none => exact .nil
  | some hash =>
    obtain ⟨step, -, hstep⟩ := List.mem_map.mp (mem_of_lookup hlookup)
    rw [← (Prod.mk.inj hstep).2]
    exact isAscii_toHex _

theorem quotes_provenanceRow {step : PlanStep} (h : Utf8.valid step.originVersion = true) :
    (provenanceRow (stepHashes steps) step).texts.all Utf8.valid = Utf8.valid step.path := by
  have hownership : Utf8.valid step.ownership.toString = true := by
    cases step.ownership <;> decide
  have hphase : Utf8.valid step.phase.toString = true := by cases step.phase <;> decide
  rw [Bool.eq_iff_iff]
  simp +decide [provenanceRow, Value.texts_object, Value.texts_string, step.origin.isAscii.valid, h,
    (isAscii_hash steps step.path).valid, hownership, hphase]

theorem quotes_provenance (h : ∀ step ∈ steps, step.isDirectory = false →
    Utf8.valid step.originVersion = true) :
    (Value.array (provenance steps (stepHashes steps))).texts.all Utf8.valid =
      (writtenPaths steps).all Utf8.valid := by
  rw [Value.texts_array, provenance, writtenPaths, List.all_map, List.all_map, Bool.eq_iff_iff,
    List.all_eq_true, List.all_eq_true]
  refine forall₂_congr fun step hstep ↦ ?_
  obtain ⟨hmem, hfile⟩ := List.mem_filter.mp hstep
  have hrow : (provenanceRow (stepHashes steps) step).texts.all Utf8.valid = Utf8.valid step.path :=
    quotes_provenanceRow (h step hmem (by simpa using hfile))
  exact Eq.congr_left hrow

theorem committed_texts (h : buildPlan set config engineVersion diagnostics = .ok plan) :
    (committedRecord plan engineVersion fast).texts.all Utf8.valid = true ↔
      ∀ text ∈ quotedTexts set config engineVersion, Utf8.valid text = true := by
  have hnames := buildPlan_names h
  have hversions : ∀ version ∈ plan.templateVersion :: (plan.kitVersions ++ plan.packageVersions),
      Utf8.valid version = true := by
    intro version hversion
    obtain ⟨resource, rfl⟩ := hnames.versions version hversion
    exact resource.record.version.isAscii.valid
  have horigins : ∀ step ∈ plan.steps, step.isDirectory = false →
      Utf8.valid step.originVersion = true := by
    intro step hstep hfile
    obtain ⟨resource, heq⟩ := hnames.origins step hstep hfile
    rw [heq]
    exact resource.record.version.isAscii.valid
  have hassets : (plan.assets.map ResourceRef.toString).all Utf8.valid = true := by
    rw [List.all_eq_true]
    intro text htext
    obtain ⟨ref, href, rfl⟩ := List.mem_map.mp htext
    rw [ResourceRef.toString, if_pos (hnames.assets ref href)]
    exact ref.id.isAscii.valid
  have hpaths : (writtenPaths plan.steps).all Utf8.valid = true ↔
      ∀ path ∈ claimedPaths set config engineVersion, Utf8.valid path = true := by
    rw [List.all_eq_true]
    exact forall_congr' fun path ↦ imp_congr_left (writtenPaths_perm h).mem_iff
  have hdurability : Utf8.valid (ascii (if fast then "fast" else "durable")) = true := by
    cases fast <;> decide
  have hkits : (resourceEntries plan.kits plan.kitVersions).texts.all Utf8.valid = true :=
    quotes_resourceEntries fun version hversion ↦ hversions version (by simp [hversion])
  have hpackages : (resourceEntries plan.packages plan.packageVersions).texts.all Utf8.valid = true :=
    quotes_resourceEntries fun version hversion ↦ hversions version (by simp [hversion])
  have htemplate : (resourceEntry plan.templateRef.id plan.templateVersion).texts.all Utf8.valid =
      true := quotes_resourceEntry (hversions plan.templateVersion (by simp))
  rw [committedRecord_eq, quotedTexts, ← hnames.projectName, ← hnames.frameworkVersion,
    ← hnames.workingDirectory, ← hnames.platforms]
  simp only [List.forall_mem_cons, List.forall_mem_append, ← hpaths]
  simp +decide only [Value.texts_object, Value.texts_string, Value.texts_integer,
    Value.texts_strings, List.all_cons, List.all_nil, htemplate, hkits, hpackages, hassets,
    hdurability, quotes_provenance horigins, engineVersion.isAscii.valid, Bool.and_true,
    Bool.and_eq_true, List.all_eq_true]
  tauto

theorem numberFree_strings (items : List Bytes) : (Value.strings items).NumberFree := by
  refine .array fun v hv ↦ ?_
  obtain ⟨s, -, rfl⟩ := List.mem_map.mp hv
  exact .string s

theorem numberFree_resourceEntry (id : ResourceId) (version : Bytes) :
    (resourceEntry id version).NumberFree :=
  .object (by simp [Value.NumberFree.string])

theorem numberFree_resourceEntries (refs : List ResourceRef) (versions : List Bytes) :
    (resourceEntries refs versions).NumberFree := by
  refine .array fun entry hentry ↦ ?_
  obtain ⟨i, hi, rfl⟩ := List.mem_mapIdx.mp hentry
  exact numberFree_resourceEntry _ _

theorem numberFree_provenance (steps : List PlanStep) (hashes : List (Bytes × Bytes)) :
    (Value.array (provenance steps hashes)).NumberFree := by
  refine .array fun row hrow ↦ ?_
  obtain ⟨step, -, rfl⟩ := List.mem_map.mp hrow
  exact .object (by simp [Value.NumberFree.string])

theorem committed_numberFree (plan : GenerationPlan) (engineVersion : Version) (fast : Bool) :
    (committedRecord plan engineVersion fast).NumberFree := by
  have hproject : (Value.object
      [(ascii "name", .string plan.projectName),
        (ascii "working_directory", .string plan.workingDirectory),
        (ascii "platforms", .strings plan.platforms),
        (ascii "framework_version", .string plan.frameworkVersion)]).NumberFree :=
    .object (by simp [Value.NumberFree.string, numberFree_strings])
  have hresources : (Value.object
      [(ascii "template", resourceEntry plan.templateRef.id plan.templateVersion),
        (ascii "kits", resourceEntries plan.kits plan.kitVersions),
        (ascii "packages", resourceEntries plan.packages plan.packageVersions),
        (ascii "assets", .strings (plan.assets.map ResourceRef.toString))]).NumberFree :=
    .object (by simp [numberFree_strings, numberFree_resourceEntry, numberFree_resourceEntries])
  have hlayers : (Value.object [(ascii "application", .strings [plan.workingDirectory])]).NumberFree :=
    .object (by simp [numberFree_strings])
  rw [committedRecord_eq]
  refine .object ?_
  simp [Value.NumberFree.string, Value.NumberFree.integer, hproject, hresources, hlayers,
    numberFree_provenance]

end TransactionService

end SquaredPg
