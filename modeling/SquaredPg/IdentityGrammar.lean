import SquaredPg.Identity
import SquaredPg.VersionGrammar
import Mathlib.Computability.Language

namespace SquaredPg

open Ascii Computability

def ofClass (p : UInt8 → Bool) : Language UInt8 := {w | ∃ c, p c = true ∧ w = [c]}

theorem cons_mem_ofClass_mul {p : UInt8 → Bool} {l : Language UInt8} {c : UInt8} {rest : Bytes} :
    c :: rest ∈ ofClass p * l ↔ p c = true ∧ rest ∈ l := by
  rw [Language.mem_mul]
  constructor
  · intro ⟨_, ⟨d, hd, rfl⟩, b, hb, heq⟩
    obtain ⟨rfl, rfl⟩ : d = c ∧ b = rest := by simpa using heq
    exact ⟨hd, hb⟩
  · intro ⟨hc, hrest⟩
    exact ⟨[c], ⟨c, hc, rfl⟩, rest, hrest, rfl⟩

theorem nil_not_mem_ofClass_mul {p : UInt8 → Bool} {l : Language UInt8} :
    [] ∉ ofClass p * l := by
  rw [Language.mem_mul]
  intro ⟨_, ⟨d, _, rfl⟩, b, _, heq⟩
  simp at heq

def isAlnum (c : UInt8) : Bool := isLower c || isDigit c

def segmentTail : Language UInt8 :=
  (ofClass isAlnum)∗ * (ofClass isSegmentSeparator * (ofClass isAlnum * (ofClass isAlnum)∗))∗

def segmentGrammar : Language UInt8 := ofClass isLower * segmentTail

theorem segmentTail_unfold : segmentTail = 1 + (ofClass isAlnum * segmentTail +
    ofClass isSegmentSeparator * (ofClass isAlnum * segmentTail)) := by
  have hgroups := Language.one_add_self_mul_kstar_eq_kstar
    (ofClass isSegmentSeparator * (ofClass isAlnum * (ofClass isAlnum)∗))
  have hgroup := Language.one_add_self_mul_kstar_eq_kstar (ofClass isAlnum)
  calc segmentTail
      = (1 + ofClass isAlnum * (ofClass isAlnum)∗) *
          (ofClass isSegmentSeparator * (ofClass isAlnum * (ofClass isAlnum)∗))∗ := by
        rw [hgroup, segmentTail]
    _ = (ofClass isSegmentSeparator * (ofClass isAlnum * (ofClass isAlnum)∗))∗ +
          ofClass isAlnum * segmentTail := by
        rw [add_mul, one_mul, mul_assoc, segmentTail]
    _ = 1 + ofClass isSegmentSeparator * (ofClass isAlnum * segmentTail) +
          ofClass isAlnum * segmentTail := by
        rw [← hgroups, segmentTail]
        simp only [mul_assoc]
    _ = _ := by rw [add_assoc, add_comm (ofClass isSegmentSeparator * _)]

theorem nil_mem_segmentTail : [] ∈ segmentTail := by
  rw [segmentTail_unfold]
  exact .inl rfl

theorem cons_mem_segmentTail {c : UInt8} {rest : Bytes} : c :: rest ∈ segmentTail ↔
    isAlnum c = true ∧ rest ∈ segmentTail ∨
      isSegmentSeparator c = true ∧ rest ∈ ofClass isAlnum * segmentTail := by
  rw [segmentTail_unfold, Language.mem_add, Language.mem_add, ← segmentTail_unfold,
    cons_mem_ofClass_mul, cons_mem_ofClass_mul, Language.mem_one]
  simp

theorem not_alnum_of_separator {c : UInt8} (h : isSegmentSeparator c = true) :
    isAlnum c = false := by
  rw [isSegmentSeparator, decide_eq_true_eq] at h
  obtain rfl | rfl := h
  · decide
  · decide

theorem validSegmentFrom_iff (previous : UInt8) (rest : Bytes) :
    validSegmentFrom previous rest = true ↔
      if isSegmentSeparator previous = true then rest ∈ ofClass isAlnum * segmentTail
      else rest ∈ segmentTail := by
  induction rest generalizing previous with
  | nil =>
    cases hsep : isSegmentSeparator previous with
    | true => simp [validSegmentFrom, hsep, nil_not_mem_ofClass_mul]
    | false => simp [validSegmentFrom, hsep, nil_mem_segmentTail]
  | cons c rest ih =>
    rw [validSegmentFrom, ← isAlnum, cons_mem_ofClass_mul, cons_mem_segmentTail]
    cases hc : isSegmentSeparator c with
    | true =>
      have halnum := not_alnum_of_separator hc
      have hrest := ih c
      rw [if_pos hc] at hrest
      cases hsep : isSegmentSeparator previous with
      | true => simp [halnum]
      | false => simp [halnum, hrest]
    | false =>
      have hrest := ih c
      rw [if_neg (by simp [hc])] at hrest
      cases halnum : isAlnum c with
      | true => simp [hrest]
      | false => simp

theorem validSegment_iff (segment : Bytes) :
    validSegment segment = true ↔ segment ∈ segmentGrammar := by
  cases segment with
  | nil => exact iff_of_false (by simp [validSegment]) nil_not_mem_ofClass_mul
  | cons first rest =>
    rw [validSegment, Bool.and_eq_true, validSegmentFrom_iff, segmentGrammar,
      cons_mem_ofClass_mul]
    refine and_congr_right fun hlower ↦ ?_
    have hsep : ¬ isSegmentSeparator first = true := by
      intro hsep
      have halnum := not_alnum_of_separator hsep
      simp [isAlnum, hlower] at halnum
    rw [if_neg hsep]

theorem mem_validSegment {segment : Bytes} {c : UInt8} (h : validSegment segment = true)
    (hc : c ∈ segment) : isSegmentSeparator c = true ∨ isAlnum c = true := by
  have hrest : ∀ (rest : Bytes) (previous : UInt8), validSegmentFrom previous rest = true →
      c ∈ rest → isSegmentSeparator c = true ∨ isAlnum c = true := by
    intro rest
    induction rest with
    | nil =>
      intro _ _ hc
      cases hc
    | cons d rest ih =>
      intro previous h hc
      rw [validSegmentFrom, ← isAlnum] at h
      split_ifs at h with hbad _
      rcases List.mem_cons.mp hc with rfl | hc
      · by_contra hneither
        exact hbad (by simpa using hneither)
      · exact ih d h hc
  cases segment with
  | nil => cases hc
  | cons first rest =>
    rw [validSegment, Bool.and_eq_true] at h
    rcases List.mem_cons.mp hc with rfl | hc
    · exact .inr (by simp [isAlnum, h.1])
    · exact hrest rest first h.2 hc

/-- Two to eight segments with dots between them, in 128 bytes at most. -/
def IdentifierGrammar (text : Bytes) : Prop :=
  text.length ≤ 128 ∧ ∃ segments : List Bytes, 2 ≤ segments.length ∧ segments.length ≤ 8 ∧
    (∀ segment ∈ segments, segment ∈ segmentGrammar) ∧ text = joinWith [dot] segments

def ResourceId.segments (id : ResourceId) : List Bytes := id.str.splitOn dot

variable {text : Bytes} {id : ResourceId} {kind : ResourceKind} {ref : ResourceRef}

theorem validIdentifier_iff : validIdentifier text = true ↔ IdentifierGrammar text := by
  simp only [validIdentifier, decide_eq_true_eq, List.all_eq_true, maxIdentifierBytes,
    minSegments, maxSegments]
  constructor
  · intro ⟨_, hlength, hvalid, hmin, hmax⟩
    exact ⟨hlength, text.splitOn dot, hmin, hmax,
      fun segment h ↦ (validSegment_iff segment).mp (hvalid segment h),
      (List.intercalate_splitOn dot).symm⟩
  · intro ⟨hlength, segments, hmin, hmax, hgrammar, hjoin⟩
    have hne : segments ≠ [] := by
      intro h
      simp [h] at hmin
    have hvalid : ∀ segment ∈ segments, validSegment segment = true :=
      fun segment h ↦ (validSegment_iff segment).mpr (hgrammar segment h)
    have hsplit : text.splitOn dot = segments := by
      refine (splitOn_eq_iff hne).mpr ⟨hjoin, fun segment h hdot ↦ ?_⟩
      rcases mem_validSegment (hvalid segment h) hdot with hsep | halnum
      · cases hsep
      · cases halnum
    rw [hsplit]
    refine ⟨?_, hlength, hvalid, hmin, hmax⟩
    intro htext
    rw [htext, List.splitOn_nil] at hsplit
    rw [← hsplit] at hmin
    simp at hmin

theorem parse_eq_some : ResourceId.parse text = some id ↔
    IdentifierGrammar text ∧ id.str = text := by
  rw [← validIdentifier_iff, ResourceId.parse]
  split_ifs with h
  · rw [Option.some_inj]
    constructor
    · intro heq
      rw [← heq]
      exact ⟨h, rfl⟩
    · intro ⟨_, heq⟩
      cases id
      cases heq
      rfl
  · simp [h]

theorem segments_joined : joinWith [dot] id.segments = id.str := List.intercalate_splitOn dot

theorem segments_of_parse (h : ResourceId.parse text = some id) :
    2 ≤ id.segments.length := by
  obtain ⟨hgrammar, rfl⟩ := parse_eq_some.mp h
  have hvalid := validIdentifier_iff.mpr hgrammar
  rw [validIdentifier, decide_eq_true_eq] at hvalid
  exact hvalid.2.2.2.1

theorem head_splitOn_iff {word : Bytes} (hword : dot ∉ word)
    (hlength : 2 ≤ (text.splitOn dot).length) :
    (word ++ [dot]).isPrefixOf text = true ↔ (text.splitOn dot).head? = some word := by
  rw [List.isPrefixOf_iff_prefix]
  constructor
  · intro ⟨rest, hrest⟩
    have hsplit : text.splitOn dot = word :: rest.splitOn dot := by
      rw [splitOn_eq_iff (by simp), joinWith, List.intercalate_cons_of_ne_nil
        (List.splitOn_ne_nil dot rest), List.intercalate_splitOn dot]
      refine ⟨hrest.symm, fun part hpart ↦ ?_⟩
      rcases List.mem_cons.mp hpart with rfl | hpart
      · exact hword
      · exact not_mem_of_mem_splitOn hpart
    rw [hsplit, List.head?_cons]
  · intro hhead
    obtain ⟨others, hsplit⟩ := List.head?_eq_some_iff.mp hhead
    have hothers : others ≠ [] := by
      intro h
      simp [hsplit, h] at hlength
    have hjoin : [dot].intercalate (text.splitOn dot) = text := List.intercalate_splitOn dot
    rw [hsplit, List.intercalate_cons_of_ne_nil hothers] at hjoin
    exact ⟨[dot].intercalate others, hjoin⟩

theorem dot_not_mem_kind : dot ∉ kind.toString := by
  cases kind <;> decide

theorem parseAs_cartridge : ResourceId.parseAs text .cartridge = ResourceId.parse text := by
  cases h : ResourceId.parse text with
  | none => simp [ResourceId.parseAs, h]
  | some id => simp [ResourceId.parseAs, h, ResourceKind.identityPrefix]

theorem parseAs_eq_some (hkind : kind ≠ .cartridge) : ResourceId.parseAs text kind = some id ↔
    ResourceId.parse text = some id ∧ id.segments.head? = some kind.toString := by
  have heq : kind.identityPrefix = kind.toString := by
    cases kind <;> first | rfl | exact absurd rfl hkind
  have hne : kind.toString ≠ [] := by
    cases kind <;> decide
  rw [ResourceId.parseAs, Option.filter_eq_some_iff]
  refine and_congr_right fun hparse ↦ ?_
  rw [decide_eq_true_eq, heq, or_iff_right hne,
    head_splitOn_iff dot_not_mem_kind (segments_of_parse hparse), ResourceId.segments]

theorem at_not_mem_identifier (h : validIdentifier text = true) : at_ ∉ text := by
  intro hat
  simp only [validIdentifier, decide_eq_true_eq, List.all_eq_true] at h
  have hjoin : joinWith [dot] (text.splitOn dot) = text := List.intercalate_splitOn dot
  rw [← hjoin] at hat
  rcases mem_joinWith hat with heq | ⟨segment, hsegment, hat⟩
  · cases heq
  · rcases mem_validSegment (h.2.2.1 segment hsegment) hat with hsep | halnum
    · cases hsep
    · cases halnum

theorem parseRef_eq_some : ResourceRef.parse text = some ref ↔
    ResourceId.parse (cutAt at_ text).1 = some ref.id ∧
      ref.range = (cutAt at_ text).2.getD [] := by
  rw [ResourceRef.parse, Option.map_eq_some_iff]
  constructor
  · intro ⟨id, hid, heq⟩
    rw [← heq]
    exact ⟨hid, rfl⟩
  · intro ⟨hid, hrange⟩
    refine ⟨ref.id, hid, ?_⟩
    rw [← hrange]

theorem toString_of_parseRef (h : ResourceRef.parse text = some ref) :
    ref.toString = if text = ref.id.str ++ [at_] then ref.id.str else text := by
  obtain ⟨hid, hrange⟩ := parseRef_eq_some.mp h
  obtain ⟨hgrammar, hstr⟩ := parse_eq_some.mp hid
  rcases hcut : cutAt at_ text with ⟨identity, _ | range⟩
  · rw [hcut] at hrange hstr hgrammar
    simp only [Option.getD_none] at hrange hstr
    obtain rfl := of_cutAt_none hcut
    rw [ResourceRef.toString, if_pos hrange, hstr, if_neg (by simp)]
  · rw [hcut] at hrange hstr
    simp only [Option.getD_some] at hrange hstr
    have htext := of_cutAt_some hcut
    rw [ResourceRef.toString, hrange, htext, hstr]
    by_cases hempty : range = []
    · simp [hempty]
    · simp [hempty]

theorem parseRef_toString (h : ResourceRef.parse text = some ref) :
    ResourceRef.parse ref.toString = some ref := by
  obtain ⟨hgrammar, hstr⟩ := parse_eq_some.mp (parseRef_eq_some.mp h).1
  rw [← hstr] at hgrammar
  have hat := at_not_mem_identifier (validIdentifier_iff.mpr hgrammar)
  rw [parseRef_eq_some, ResourceRef.toString]
  split_ifs with hrange
  · rw [cutAt_of_not_mem hat]
    exact ⟨parse_eq_some.mpr ⟨hgrammar, rfl⟩, hrange⟩
  · rw [cutAt_append hat]
    exact ⟨parse_eq_some.mpr ⟨hgrammar, rfl⟩, rfl⟩

/-- Identifiers and references are read by one grammar and printed back by `str`, `segments` and
`to_string`. -/
theorem identifier_grammar_exact (text : Bytes) :
    ((∃ id, ResourceId.parse text = some id) ↔ IdentifierGrammar text) ∧
    (∀ id, ResourceId.parse text = some id →
      id.str = text ∧ joinWith [dot] id.segments = text) ∧
    (ResourceId.parseAs text .cartridge = ResourceId.parse text) ∧
    (∀ kind ≠ ResourceKind.cartridge, ∀ id, ResourceId.parseAs text kind = some id ↔
      ResourceId.parse text = some id ∧ id.segments.head? = some kind.toString) ∧
    ∀ ref, ResourceRef.parse text = some ref →
      ref.toString = (if text = ref.id.str ++ [at_] then ref.id.str else text) ∧
      ResourceRef.parse ref.toString = some ref := by
  refine ⟨?_, ?_, parseAs_cartridge, fun kind hkind id ↦ parseAs_eq_some hkind,
    fun ref h ↦ ⟨toString_of_parseRef h, parseRef_toString h⟩⟩
  · simp only [parse_eq_some, exists_and_left]
    constructor
    · exact fun h ↦ h.1
    · intro h
      exact ⟨h, ⟨text, .inr (validIdentifier_iff.mpr h)⟩, rfl⟩
  · intro id h
    have hstr := (parse_eq_some.mp h).2
    exact ⟨hstr, segments_joined.trans hstr⟩

end SquaredPg
