import SquaredPg.IdentityGrammar
import SquaredPg.IndexInvariant
import SquaredPg.Memo
import SquaredPg.ResourceService
import SquaredPg.VersionGrammar

namespace SquaredPg

open Ascii Std

def payloadUnreadable (record : ResourceRecord) (message : Bytes) : EngineError :=
  { makeError .resource "resource.payload.unreadable"
      (ascii "could not open resource payload: " ++ message) with
    resource := record.id.str
    path := record.location }

def cacheKey (record : ResourceRecord) : Bytes := idAtVersion record.id record.version

/-- `ResourceService::open`. What `Cartridge::open` answers for a location is the disk's matter. -/
def openCached (openCartridge : Bytes → Except Bytes Cartridge) (cache : List (Bytes × Cartridge))
    (record : ResourceRecord) : Result Cartridge × List (Bytes × Cartridge) :=
  match cache.lookup (cacheKey record) with
  | some found => (.ok found, cache)
  | none =>
    match openCartridge record.location with
    | .error message => (.error (payloadUnreadable record message), cache)
    | .ok opened => (.ok opened, cache ++ [(cacheKey record, opened)])

/-- A call, with what `Cartridge::open` answers at that time. -/
structure OpenCall where
  record : ResourceRecord
  openCartridge : Bytes → Except Bytes Cartridge

def cacheAfter (calls : List OpenCall) : List (Bytes × Cartridge) :=
  calls.foldl (fun cache call ↦ (openCached call.openCartridge cache call.record).2) []

variable {roots : List ResourceRoot} {openEnvelope : Bytes → Except Bytes Envelope}
  {engineVersion : Version} {strictRoots : Bool} {result : ResourceIndex × List Diagnostic}
  {a b record : ResourceRecord} {location : Bytes} {index : ResourceIndex}

theorem id_eq_of_str {id id' : ResourceId} (h : id.str = id'.str) : id = id' := by
  cases id
  cases id'
  cases h
  rfl

theorem at_not_mem_str (id : ResourceId) : at_ ∉ id.str := by
  rcases id.valid with hempty | hvalid
  · simp [hempty]
  · exact at_not_mem_identifier hvalid

theorem idAtVersion_inj {id id' : ResourceId} {v v' : Version}
    (h : idAtVersion id v = idAtVersion id' v') :
    id.str = id'.str ∧ v.toString = v'.toString := by
  have hcut := congrArg (cutAt at_) h
  simp only [idAtVersion, cutAt_append (at_not_mem_str _), Prod.mk.injEq, Option.some.injEq] at hcut
  exact hcut

theorem version_of_recordFrom {envelope : Envelope} (h : recordFrom envelope location = .ok record) :
    Version.parse envelope.version = some record.version := by
  unfold recordFrom at h
  split at h
  · cases h
  · split_ifs at h
    split at h
    · cases h
    · split at h
      · cases h
      · rename_i version hversion
        rw [← Except.ok.inj h]
        exact hversion

theorem version_of_candidate (h : candidateRecord openEnvelope location = some record) :
    ∃ text, Version.parse text = some record.version := by
  obtain ⟨envelope, _, hrecord⟩ := Option.bind_eq_some_iff.mp h
  exact ⟨envelope.version, version_of_recordFrom (Fallible.toOption_eq_some.mp hrecord)⟩

theorem version_of_index (h : buildIndex roots openEnvelope engineVersion strictRoots = .ok result)
    (hrecord : record ∈ result.1.records) : ∃ text, Version.parse text = some record.version := by
  rw [buildIndex_index h] at hrecord
  obtain ⟨location, _, hcandidate⟩ := List.mem_filterMap.mp ((ofRecords_holds _).sound record hrecord)
  exact version_of_candidate hcandidate

instance : Std.Symm fun a b : ResourceRecord ↦ ¬ (a.id = b.id ∧ a.version.cmp b.version = .eq) where
  symm _ _ h h' := h ⟨h'.1.symm, OrientedCmp.eq_symm h'.2⟩

theorem record_eq_of_cacheKey
    (h : buildIndex roots openEnvelope engineVersion strictRoots = .ok result)
    (ha : a ∈ result.1.records) (hb : b ∈ result.1.records) (hkey : cacheKey a = cacheKey b) :
    a = b := by
  by_contra hne
  obtain ⟨hid, htext⟩ := idAtVersion_inj hkey
  obtain ⟨s, hs⟩ := version_of_index h ha
  obtain ⟨t, ht⟩ := version_of_index h hb
  have hversion : a.version = b.version := by
    have hread := Version.parse_toString hs
    rw [htext, Version.parse_toString ht] at hread
    exact (Option.some.inj hread).symm
  apply (@ResourceIndex.distinct_cmp result.1).forall ha hb hne
  refine ⟨id_eq_of_str hid, ?_⟩
  rw [hversion]
  exact ReflCmp.compare_self

def OpenCall.request (call : OpenCall) : Memo.Request ResourceRecord Cartridge EngineError where
  asked := call.record
  produce record := (call.openCartridge record.location).mapError (payloadUnreadable record)

theorem openCached_eq (call : OpenCall) (cache : List (Bytes × Cartridge)) :
    openCached call.openCartridge cache call.record =
      Memo.fetch cacheKey call.request.produce cache call.record := by
  unfold openCached Memo.fetch OpenCall.request
  cases cache.lookup (cacheKey call.record) with
  | some found => rfl
  | none =>
    cases hopen : call.openCartridge call.record.location with
    | error message => simp [hopen, Except.mapError]
    | ok opened => simp [hopen, Except.mapError]

theorem cacheAfter_eq (calls : List OpenCall) :
    cacheAfter calls = Memo.run cacheKey [] (calls.map OpenCall.request) := by
  simp only [cacheAfter, Memo.run, List.foldl_map, openCached_eq]
  rfl

theorem cacheAfter_coherent (calls : List OpenCall) :
    Memo.Coherent cacheKey (calls.map OpenCall.request) (cacheAfter calls) := by
  rw [cacheAfter_eq]
  exact Memo.coherent_run _

variable {calls before after : List OpenCall} {call : OpenCall} {cartridge : Cartridge}
  {error : EngineError}

theorem opened_of_answer
    (hok : (openCached call.openCartridge (cacheAfter before) call.record).1 = .ok cartridge) :
    ∃ earlier ∈ before ++ [call], cacheKey earlier.record = cacheKey call.record ∧
      earlier.openCartridge earlier.record.location = .ok cartridge := by
  rw [openCached_eq] at hok
  obtain ⟨request, hrequest, hkey, hproduce⟩ := (cacheAfter_coherent before).produced_of_fetch hok
  have hmem : request ∈ (before ++ [call]).map OpenCall.request := by
    rw [List.map_append]
    exact hrequest
  obtain ⟨earlier, hearlier, rfl⟩ := List.mem_map.mp hmem
  exact ⟨earlier, hearlier, hkey, Fallible.mapError_eq_ok.mp hproduce⟩

theorem cache_of_error {cache : List (Bytes × Cartridge)}
    (herror : (openCached call.openCartridge cache call.record).1 = .error error) :
    (openCached call.openCartridge cache call.record).2 = cache := by
  rw [openCached_eq] at herror ⊢
  exact Memo.table_of_error herror

/-- While the disk stays as it is, the cache cannot be told from opening each time. -/
theorem openCached_stable (openCartridge : Bytes → Except Bytes Cartridge)
    (h : buildIndex roots openEnvelope engineVersion strictRoots = .ok result)
    (hcalls : ∀ earlier ∈ before ++ [call], earlier.record ∈ result.1.records ∧
      earlier.openCartridge = openCartridge) :
    (openCached openCartridge (cacheAfter before) call.record).1 =
      (openCartridge call.record.location).mapError (payloadUnreadable call.record) := by
  obtain ⟨hrecord, rfl⟩ := hcalls call (by simp)
  cases hanswer : (openCached call.openCartridge (cacheAfter before) call.record).1 with
  | ok cartridge =>
    obtain ⟨earlier, hearlier, hkey, hopen⟩ := opened_of_answer hanswer
    obtain ⟨hearlier, hsame⟩ := hcalls earlier hearlier
    rw [record_eq_of_cacheKey h hearlier hrecord hkey, hsame] at hopen
    rw [hopen]
    rfl
  | error error =>
    have hlookup : (cacheAfter before).lookup (cacheKey call.record) = none := by
      by_contra hsome
      obtain ⟨found, hfound⟩ := Option.ne_none_iff_exists'.mp hsome
      simp only [openCached, hfound] at hanswer
      cases hanswer
    rw [← hanswer, openCached_eq, Memo.fetch]
    simp only [hlookup]
    cases hproduce : call.request.produce call.record with
    | error e => exact hproduce.symm
    | ok c => exact hproduce.symm

theorem cartridge_cache_coherent
    (h : buildIndex roots openEnvelope engineVersion strictRoots = .ok result)
    (hcalls : ∀ call ∈ calls, call.record ∈ result.1.records) :
    (∀ before call after, calls = before ++ call :: after →
      (∀ cartridge, (openCached call.openCartridge (cacheAfter before) call.record).1 =
          .ok cartridge →
        ∃ earlier ∈ before ++ [call], earlier.record = call.record ∧
          earlier.openCartridge call.record.location = .ok cartridge) ∧
      (∀ error, (openCached call.openCartridge (cacheAfter before) call.record).1 = .error error →
        (openCached call.openCartridge (cacheAfter before) call.record).2 = cacheAfter before)) ∧
    (∀ a ∈ result.1.records, ∀ b ∈ result.1.records, a ≠ b → cacheKey a ≠ cacheKey b) ∧
    ((cacheAfter calls).map Prod.fst).Nodup ∧
    (∀ entry ∈ cacheAfter calls, ∃ record ∈ result.1.records, cacheKey record = entry.1 ∧
      ∃ call ∈ calls, call.record = record ∧ call.openCartridge record.location = .ok entry.2) := by
  have hcoherent := cacheAfter_coherent calls
  refine ⟨?_, ?_, hcoherent.nodup, ?_⟩
  · intro before call after hsplit
    constructor
    · intro cartridge hok
      obtain ⟨earlier, hearlier, hkey, hopen⟩ := opened_of_answer hok
      have hall : ∀ c ∈ before ++ [call], c.record ∈ result.1.records := by
        intro c hc
        apply hcalls
        rw [hsplit, List.append_cons]
        exact List.mem_append_left _ hc
      have hsame := record_eq_of_cacheKey h (hall earlier hearlier) (hall call (by simp)) hkey
      exact ⟨earlier, hearlier, hsame, hsame ▸ hopen⟩
    · intro error herror
      exact cache_of_error herror
  · intro a ha b hb hne hkey
    exact hne (record_eq_of_cacheKey h ha hb hkey)
  · intro entry hentry
    obtain ⟨request, hrequest, hkey, hproduce⟩ := hcoherent.produced entry hentry
    obtain ⟨call, hcall, rfl⟩ := List.mem_map.mp hrequest
    exact ⟨call.record, hcalls call hcall, hkey, call, hcall, rfl,
      Fallible.mapError_eq_ok.mp hproduce⟩

/-- Two kits, one a candidate of the other. -/
def kitEnvelope (location : Bytes) : Except Bytes Envelope :=
  .ok
    { kind := ascii "kit"
      id := ascii "kit.can"
      version := if location = ascii "/kits/a" then ascii "1.0.0+b.1" else ascii "1.0.0-rc.1"
      manifest := silentCartridge.manifest }

def kitRoot : ResourceRoot :=
  { path := ascii "/kits", candidates := some [ascii "/kits/a", ascii "/kits/b"] }

def kitCalls (index : ResourceIndex) : List OpenCall :=
  (index.records ++ index.records).map fun record ↦
    { record
      openCartridge := fun location ↦
        if location = ascii "/kits/a" then .ok silentCartridge else .error (ascii "truncated") }

theorem cartridge_cache_coherent_kits : ∃ result,
    buildIndex [kitRoot] kitEnvelope { major := 1 } true = .ok result ∧
    (cacheAfter (kitCalls result.1)).map Prod.fst = [ascii "kit.can@1.0.0+b.1"] ∧
    ∀ a ∈ result.1.records, ∀ b ∈ result.1.records, a ≠ b → cacheKey a ≠ cacheKey b := by
  have hkeys : (buildIndex [kitRoot] kitEnvelope { major := 1 } true).toOption.map
      (fun result ↦ (cacheAfter (kitCalls result.1)).map Prod.fst) =
        some [ascii "kit.can@1.0.0+b.1"] := by
    decide +kernel
  obtain ⟨result, hresult, hcache⟩ := Option.map_eq_some_iff.mp hkeys
  have hok := Fallible.toOption_eq_some.mp hresult
  have hcalls : ∀ call ∈ kitCalls result.1, call.record ∈ result.1.records := by
    intro call hcall
    obtain ⟨record, hrecord, rfl⟩ := List.mem_map.mp hcall
    rcases List.mem_append.mp hrecord with hin | hin
    · exact hin
    · exact hin
  exact ⟨result, hok, hcache, (cartridge_cache_coherent hok hcalls).2.1⟩

end SquaredPg
