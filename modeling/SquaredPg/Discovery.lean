import SquaredPg.Lists
import SquaredPg.Paths
import SquaredPg.ResourceService

namespace SquaredPg

open Ascii Std

/-- What a directory holds, without links; `special` is neither a regular file nor a directory. -/
inductive Node
  | file
  | special
  | directory (entries : List (Bytes × Node))

abbrev Listing := List (Bytes × Node)

/-- Names are names, and one directory has every name once. -/
inductive Node.Valid : Node → Prop
  | file : Valid .file
  | special : Valid .special
  | directory {entries : Listing} (nodup : (entries.map Prod.fst).Nodup)
      (names : ∀ entry ∈ entries, Name entry.1) (below : ∀ entry ∈ entries, entry.2.Valid) :
      Valid (.directory entries)

structure Directory where
  entries : Listing
  valid : (Node.directory entries).Valid

/-- The order in which `directory_iterator` goes through the entries of each directory. -/
structure Enumeration where
  list : Bytes → Listing → Listing
  perm : ∀ path entries, (list path entries).Perm entries

def Node.find : Node → List Bytes → Option Node
  | node, [] => some node
  | .directory entries, name :: names => (entries.lookup name).bind fun node ↦ node.find names
  | _, _ :: _ => none

/-- `path::extension` of a path that ends in `name`. -/
def extension (name : Bytes) : Bytes :=
  let suffix := (name.reverse.takeWhile fun c ↦ c ≠ dot).reverse
  if name = ascii ".." ∨ name.length ≤ suffix.length + 1 then [] else dot :: suffix

def child (path name : Bytes) : Bytes :=
  if path = [] ∨ path.getLast? = some slash then path ++ name else path ++ slash :: name

def Node.isResourceDirectory : Node → Bool
  | .directory entries =>
    ((Node.directory entries).find [ascii "SQ-INF", ascii "manifest.json"]).isSome
  | _ => false

def isArchive (name : Bytes) : Node → Bool
  | .file => extension name = ascii ".sq"
  | _ => false

def isCandidate (name : Bytes) (node : Node) : Bool :=
  isArchive name node || node.isResourceDirectory

def compareNames (a b : Bytes × Node) : Ordering := List.compareLex compare a.1 b.1

def sortedEntries (order : Enumeration) (root : Bytes) (entries : Listing) : Listing :=
  sortBy compareNames (order.list root entries)

theorem sortedEntries_perm (order : Enumeration) (root : Bytes) (entries : Listing) :
    (sortedEntries order root entries).Perm entries :=
  (sortBy_perm compareNames _).trans (order.perm root entries)

theorem mem_sortedEntries {order : Enumeration} {root : Bytes} {entries : Listing}
    {entry : Bytes × Node} : entry ∈ sortedEntries order root entries ↔ entry ∈ entries :=
  (sortedEntries_perm order root entries).mem_iff

theorem sizeOf_below {entries below : Listing} {name : Bytes}
    (h : (name, Node.directory below) ∈ entries) : sizeOf below < sizeOf entries := by
  have hentry := List.sizeOf_lt_of_mem h
  simp only [Prod.mk.sizeOf_spec, Node.directory.sizeOf_spec] at hentry
  omega

def collect (order : Enumeration) (root : Bytes) (entries : Listing) : List Bytes :=
  (sortedEntries order root entries).attach.flatMap fun ⟨(name, node), hentry⟩ ↦
    if isCandidate name node then [child root name]
    else
      match node, hentry with
      | .directory below, _ => collect order (child root name) below
      | _, _ => []
termination_by sizeOf entries
decreasing_by
  rename_i hbelow
  exact sizeOf_below (mem_sortedEntries.mp hbelow)

/-- A resource root: its path and, where that is one, the directory there. -/
structure RootDirectory where
  path : Bytes
  directory : Option Directory

/-- What `build_index` finds below its roots, each root enumerated on its own. -/
def discover (order : ℕ → Enumeration) (roots : List RootDirectory) : List ResourceRoot :=
  roots.mapIdx fun i root ↦
    ⟨root.path, root.directory.map fun directory ↦ collect (order i) root.path directory.entries⟩

variable {order order' : Enumeration} {root name : Bytes} {entries : Listing} {names : List Bytes}
  {node : Node}

/-- What one round of the loop in `collect` lists. -/
def visit (order : Enumeration) (root : Bytes) (entry : Bytes × Node) : List Bytes :=
  if isCandidate entry.1 entry.2 then [child root entry.1]
  else
    match entry.2 with
    | .directory below => collect order (child root entry.1) below
    | _ => []

theorem collect_eq (order : Enumeration) (root : Bytes) (entries : Listing) :
    collect order root entries = (sortedEntries order root entries).flatMap (visit order root) := by
  conv_rhs => rw [← List.attach_map_subtype_val (sortedEntries order root entries)]
  rw [collect, List.flatMap_map]
  refine List.flatMap_congr fun ⟨⟨name, node⟩, hentry⟩ _ ↦ ?_
  cases node <;> rfl

instance : TransCmp compareNames :=
  transCmp_on (List.compareLex (compare : UInt8 → UInt8 → Ordering)) Prod.fst

theorem sortedEntries_eq (order order' : Enumeration) (root : Bytes)
    (h : (entries.map Prod.fst).Nodup) :
    sortedEntries order root entries = sortedEntries order' root entries := by
  have hperm : (order.list root entries).Perm (order'.list root entries) :=
    (order.perm root entries).trans (order'.perm root entries).symm
  refine sortBy_eq_of_perm compareNames hperm fun a ha b hb hab ↦ ?_
  have ha' := (order.perm root entries).mem_iff.mp ha
  have hb' := (order.perm root entries).mem_iff.mp hb
  exact List.inj_on_of_nodup_map h ha' hb' (LawfulEqCmp.eq_of_compare hab)

/-- Neither the order at one level nor that at any level below decides what is listed. -/
theorem visit_eq (h : node.Valid) (order order' : Enumeration) (root name : Bytes) :
    visit order root (name, node) = visit order' root (name, node) := by
  induction h generalizing root name with
  | file => rfl
  | special => rfl
  | directory nodup names below ih =>
    simp only [visit, collect_eq]
    rw [sortedEntries_eq order order' _ nodup]
    congr 1
    refine List.flatMap_congr fun entry hentry ↦ ?_
    exact ih entry (mem_sortedEntries.mp hentry) _ _

theorem collect_eq_of_order (directory : Directory) (order order' : Enumeration) (root : Bytes) :
    collect order root directory.entries = collect order' root directory.entries := by
  obtain ⟨entries, hvalid⟩ := directory
  cases hvalid with
  | directory nodup names below =>
    rw [collect_eq, collect_eq, sortedEntries_eq order order' _ nodup]
    refine List.flatMap_congr fun entry hentry ↦ ?_
    exact visit_eq (below entry (mem_sortedEntries.mp hentry)) order order' root entry.1

theorem discover_eq (order order' : ℕ → Enumeration) (roots : List RootDirectory) :
    discover order roots = discover order' roots := by
  refine List.ext_getElem (by simp [discover]) fun i hi hi' ↦ ?_
  simp only [discover, List.getElem_mapIdx]
  congr 1
  refine Option.map_congr fun directory _ ↦ ?_
  exact collect_eq_of_order directory (order i) (order' i) _

/-- The names on the way to what `collect` lists: a candidate, and none of those above it is one. -/
inductive Listed : Listing → List Bytes → Prop
  | here {entries : Listing} {name : Bytes} {node : Node} (mem : (name, node) ∈ entries)
      (candidate : isCandidate name node = true) : Listed entries [name]
  | deeper {entries inner : Listing} {name : Bytes} {names : List Bytes}
      (mem : (name, .directory inner) ∈ entries)
      (passed : isCandidate name (.directory inner) = false) (listed : Listed inner names) :
      Listed entries (name :: names)

def pathTo (root : Bytes) (names : List Bytes) : Bytes := names.foldl child root

theorem listed_iff : Listed entries names ↔ ∃ entry ∈ entries, Listed [entry] names := by
  constructor
  · intro h
    cases h with
    | here mem candidate => exact ⟨_, mem, .here (by simp) candidate⟩
    | deeper mem passed listed => exact ⟨_, mem, .deeper (by simp) passed listed⟩
  · intro ⟨entry, hmem, h⟩
    cases h with
    | here mem candidate =>
      rw [List.mem_singleton] at mem
      exact .here (mem ▸ hmem) candidate
    | deeper mem passed listed =>
      rw [List.mem_singleton] at mem
      exact .deeper (mem ▸ hmem) passed listed

theorem listed_candidate (h : isCandidate name node = true) :
    Listed [(name, node)] names ↔ names = [name] := by
  constructor
  · intro hl
    cases hl with
    | here mem candidate =>
      rw [(Prod.mk.inj (List.mem_singleton.mp mem)).1]
    | deeper mem passed listed =>
      obtain ⟨rfl, rfl⟩ := Prod.mk.inj (List.mem_singleton.mp mem)
      rw [h] at passed
      cases passed
  · intro heq
    subst heq
    exact .here (by simp) h

theorem listed_passed (h : isCandidate name node = false) :
    Listed [(name, node)] names ↔
      ∃ inner rest, node = .directory inner ∧ names = name :: rest ∧ Listed inner rest := by
  constructor
  · intro hl
    cases hl with
    | here mem candidate =>
      obtain ⟨rfl, rfl⟩ := Prod.mk.inj (List.mem_singleton.mp mem)
      rw [h] at candidate
      cases candidate
    | deeper mem passed listed =>
      obtain ⟨rfl, rfl⟩ := Prod.mk.inj (List.mem_singleton.mp mem)
      exact ⟨_, _, rfl, rfl, listed⟩
  · intro ⟨inner, rest, hnode, hnames, hl⟩
    subst hnode hnames
    exact .deeper (by simp) h hl

theorem mem_collect_of_visit {location : Bytes}
    (h : ∀ entry ∈ entries, location ∈ visit order root entry ↔
      ∃ names, Listed [entry] names ∧ location = pathTo root names) :
    location ∈ collect order root entries ↔
      ∃ names, Listed entries names ∧ location = pathTo root names := by
  rw [collect_eq, List.mem_flatMap]
  constructor
  · intro ⟨entry, hentry, hvisit⟩
    have hmem := mem_sortedEntries.mp hentry
    obtain ⟨names, hl, hlocation⟩ := (h entry hmem).mp hvisit
    exact ⟨names, listed_iff.mpr ⟨entry, hmem, hl⟩, hlocation⟩
  · intro ⟨names, hl, hlocation⟩
    obtain ⟨entry, hmem, hl⟩ := listed_iff.mp hl
    exact ⟨entry, mem_sortedEntries.mpr hmem, (h entry hmem).mpr ⟨names, hl, hlocation⟩⟩

theorem mem_visit (h : node.Valid) {location : Bytes} : location ∈ visit order root (name, node) ↔
    ∃ names, Listed [(name, node)] names ∧ location = pathTo root names := by
  induction h generalizing root name with
  | directory nodup names below ih =>
    rw [visit]
    split_ifs with hcandidate
    · simp [listed_candidate hcandidate, pathTo]
    · simp only [Bool.not_eq_true] at hcandidate
      simp only [mem_collect_of_visit fun entry hentry ↦ ih entry hentry,
        listed_passed hcandidate]
      constructor
      · intro ⟨rest, hl, hlocation⟩
        exact ⟨name :: rest, ⟨_, rest, rfl, rfl, hl⟩, hlocation⟩
      · intro ⟨_, ⟨inner, rest, hinner, hnames, hl⟩, hlocation⟩
        subst hnames
        cases hinner
        exact ⟨rest, hl, hlocation⟩
  | _ =>
    rw [visit]
    split_ifs with hcandidate
    · simp [listed_candidate hcandidate, pathTo]
    · simp only [Bool.not_eq_true] at hcandidate
      simp [listed_passed hcandidate]

theorem mem_collect (h : (Node.directory entries).Valid) {location : Bytes} :
    location ∈ collect order root entries ↔
      ∃ names, Listed entries names ∧ location = pathTo root names := by
  cases h with
  | directory nodup names below =>
    exact mem_collect_of_visit fun entry hentry ↦ mem_visit (below entry hentry)

def base (path : Bytes) : Bytes :=
  if path = [] ∨ path.getLast? = some slash then path else path ++ [slash]

theorem child_eq (path name : Bytes) : child path name = base path ++ name := by
  unfold child base
  split_ifs <;> simp

theorem base_child (h : Name name) : base (child root name) = base root ++ name ++ [slash] := by
  have hne : child root name ≠ [] := by simp [child_eq, h.ne_nil]
  have hlast : (child root name).getLast? ≠ some slash := by
    rw [child_eq, List.getLast?_append_of_ne_nil _ h.ne_nil]
    exact fun heq ↦ h.no_slash (List.mem_of_getLast? heq)
  rw [base, if_neg (by simp [hne, hlast]), child_eq]

theorem pathTo_eq (h : ∀ name ∈ names, Name name) (hne : names ≠ []) :
    pathTo root names = base root ++ joinPath names := by
  induction names generalizing root with
  | nil => exact absurd rfl hne
  | cons name names ih =>
    obtain ⟨hname, hnames⟩ := List.forall_mem_cons.mp h
    cases names with
    | nil => rw [joinPath_singleton, ← child_eq]; rfl
    | cons next names =>
      have hstep : pathTo root (name :: next :: names) =
          pathTo (child root name) (next :: names) := rfl
      rw [hstep, ih hnames (by simp), base_child hname, joinPath_cons_cons]
      simp

theorem pathTo_inj {others : List Bytes} (h : ∀ name ∈ names, Name name) (hne : names ≠ [])
    (h' : ∀ name ∈ others, Name name) (hne' : others ≠ [])
    (heq : pathTo root names = pathTo root others) : names = others := by
  rw [pathTo_eq h hne, pathTo_eq h' hne', List.append_cancel_left_eq] at heq
  rw [← splitPath_joinPath fun name hname ↦ ⟨(h name hname).ne_nil, (h name hname).no_slash⟩, heq,
    splitPath_joinPath fun name hname ↦ ⟨(h' name hname).ne_nil, (h' name hname).no_slash⟩]

theorem Listed.ne_nil (h : Listed entries names) : names ≠ [] := by
  cases h <;> simp

theorem Listed.names_valid (h : Listed entries names) (hvalid : (Node.directory entries).Valid) :
    ∀ name ∈ names, Name name := by
  induction h with
  | here mem candidate =>
    cases hvalid with
    | directory _ hnames _ => simpa using hnames _ mem
  | deeper mem passed listed ih =>
    cases hvalid with
    | directory _ hnames hbelow =>
      exact List.forall_mem_cons.mpr ⟨hnames _ mem, ih (hbelow _ mem)⟩

theorem Listed.head {entry : Bytes × Node} (h : Listed [entry] names) :
    names.head? = some entry.1 := by
  cases h with
  | here mem candidate => rw [← List.mem_singleton.mp mem]; rfl
  | deeper mem passed listed => rw [← List.mem_singleton.mp mem]; rfl

theorem collect_nodup_of_visit (h : (Node.directory entries).Valid)
    (hvisit : ∀ entry ∈ entries, (visit order root entry).Nodup) :
    (collect order root entries).Nodup := by
  cases h with
  | directory nodup names below =>
    rw [collect_eq, List.nodup_flatMap]
    refine ⟨fun entry hentry ↦ hvisit entry (mem_sortedEntries.mp hentry), ?_⟩
    have hsorted : ((sortedEntries order root entries).map Prod.fst).Nodup :=
      ((sortedEntries_perm order root entries).map Prod.fst).nodup_iff.mpr nodup
    rw [List.Nodup, List.pairwise_map] at hsorted
    refine hsorted.imp_of_mem fun {a b} ha hb hne location hla hlb ↦ hne ?_
    have ha := mem_sortedEntries.mp ha
    have hb := mem_sortedEntries.mp hb
    obtain ⟨as, hlisted, rfl⟩ := (mem_visit (below a ha)).mp hla
    obtain ⟨bs, hlisted', heq⟩ := (mem_visit (below b hb)).mp hlb
    have hvalid : ∀ entry ∈ entries, (Node.directory [entry]).Valid := fun entry hentry ↦
      .directory (by simp) (by simpa using names entry hentry) (by simpa using below entry hentry)
    have hsame := pathTo_inj (hlisted.names_valid (hvalid a ha)) hlisted.ne_nil
      (hlisted'.names_valid (hvalid b hb)) hlisted'.ne_nil heq
    have hfirst := hlisted.head
    rw [hsame, hlisted'.head] at hfirst
    exact (Option.some.inj hfirst).symm

theorem visit_nodup (h : node.Valid) (hname : Name name) :
    (visit order root (name, node)).Nodup := by
  induction h generalizing root name with
  | directory nodup names below ih =>
    rw [visit]
    split_ifs
    · simp
    · exact collect_nodup_of_visit (.directory nodup names below) fun entry hentry ↦
        ih entry hentry (names entry hentry)
  | _ =>
    rw [visit]
    split_ifs <;> simp

theorem collect_nodup (h : (Node.directory entries).Valid) :
    (collect order root entries).Nodup := by
  refine collect_nodup_of_visit h ?_
  cases h with
  | directory nodup names below =>
    exact fun entry hentry ↦ visit_nodup (below entry hentry) (names entry hentry)

theorem Listed.eq_of_prefix {outer : List Bytes} (ho : Listed entries outer)
    (h : Listed entries names) (hp : outer <+: names) (hvalid : (Node.directory entries).Valid) :
    outer = names := by
  induction ho generalizing names with
  | @here entries name node mem candidate =>
    cases hvalid with
    | directory nodup _ _ =>
      cases h with
      | here _ _ => simpa using hp
      | @deeper _ inner name' rest mem' passed listed =>
        obtain ⟨rfl, -⟩ := List.cons_prefix_cons.mp hp
        have hsame := List.inj_on_of_nodup_map nodup mem mem' rfl
        rw [(Prod.mk.inj hsame).2, passed] at candidate
        cases candidate
  | @deeper entries inner name outer mem passed listed ih =>
    cases hvalid with
    | directory nodup _ below =>
      cases h with
      | @here _ name' node mem' candidate =>
        obtain ⟨rfl, hnil⟩ := List.cons_prefix_cons.mp hp
        exact absurd (List.prefix_nil.mp hnil) listed.ne_nil
      | @deeper _ inner' name' rest mem' passed' listed' =>
        obtain ⟨rfl, hrest⟩ := List.cons_prefix_cons.mp hp
        have hsame := List.inj_on_of_nodup_map nodup mem mem' rfl
        cases hsame
        rw [ih listed' hrest (below _ mem)]

theorem isResourceDirectory_of_find (hfind : (Node.find node names).isSome = true)
    (hne : names ≠ []) (hcandidate : isCandidate name node = true) :
    node.isResourceDirectory = true := by
  cases node with
  | directory entries => simpa [isCandidate, isArchive] using hcandidate
  | _ =>
    obtain ⟨first, rest, rfl⟩ := List.exists_cons_of_ne_nil hne
    cases hfind

theorem exists_listed (hvalid : (Node.directory entries).Valid) (hne : names ≠ [])
    (hfind : (Node.directory entries).find names = some node)
    (hcandidate : isCandidate (names.getLast hne) node = true) :
    ∃ outer, outer <+: names ∧ Listed entries outer ∧ (outer = names ∨
      ∃ above, (Node.directory entries).find outer = some above ∧
        above.isResourceDirectory = true) := by
  induction names generalizing entries with
  | nil => exact absurd rfl hne
  | cons name names ih =>
    rw [Node.find, Option.bind_eq_some_iff] at hfind
    obtain ⟨first, hlookup, hfind⟩ := hfind
    have hmem := mem_of_lookup hlookup
    by_cases hfirst : isCandidate name first = true
    · refine ⟨[name], by simp, .here hmem hfirst, ?_⟩
      by_cases hnil : names = []
      · exact .inl (by rw [hnil])
      · refine .inr ⟨first, by rw [Node.find, hlookup]; rfl, ?_⟩
        exact isResourceDirectory_of_find (by rw [hfind]; rfl) hnil hfirst
    · have hnil : names ≠ [] := by
        intro hnil
        subst hnil
        rw [Node.find] at hfind
        cases hfind
        exact hfirst hcandidate
      rw [List.getLast_cons hnil] at hcandidate
      cases hvalid with
      | directory _ _ below =>
        cases first with
        | directory inner =>
          obtain ⟨outer, hp, hlisted, hcases⟩ := ih (below _ hmem) hnil hfind hcandidate
          refine ⟨name :: outer, List.cons_prefix_cons.mpr ⟨rfl, hp⟩,
            .deeper hmem (by simpa using hfirst) hlisted, ?_⟩
          rcases hcases with heq | ⟨above, habove, hresource⟩
          · exact .inl (by rw [heq])
          · exact .inr ⟨above, by rw [Node.find, hlookup]; exact habove, hresource⟩
        | _ =>
          obtain ⟨next, rest, rfl⟩ := List.exists_cons_of_ne_nil hnil
          cases hfind

/-- Names lead through a resource directory that `collect` lists to something in it. -/
def InsideListed (order : Enumeration) (root : Bytes) (directory : Directory)
    (names : List Bytes) : Prop :=
  ∃ outer above, outer ≠ [] ∧ outer <+: names ∧ outer ≠ names ∧
    (Node.directory directory.entries).find outer = some above ∧
    above.isResourceDirectory = true ∧ pathTo root outer ∈ collect order root directory.entries

theorem find_names (hvalid : (Node.directory entries).Valid)
    (h : ((Node.directory entries).find names).isSome = true) : ∀ name ∈ names, Name name := by
  induction names generalizing entries with
  | nil => simp
  | cons name names ih =>
    rw [Node.find, Option.isSome_bind, Option.any_eq_true] at h
    obtain ⟨first, hlookup, hfind⟩ := h
    have hmem := mem_of_lookup hlookup
    cases hvalid with
    | directory _ hnames below =>
      refine List.forall_mem_cons.mpr ⟨hnames _ hmem, ?_⟩
      cases first with
      | directory inner => exact ih (below _ hmem) hfind
      | _ =>
        cases names with
        | nil => simp
        | cons next rest => cases hfind

theorem mem_collect_iff (directory : Directory) (hnames : ∀ name ∈ names, Name name)
    (hne : names ≠ []) : pathTo root names ∈ collect order root directory.entries ↔
      Listed directory.entries names := by
  rw [mem_collect directory.valid]
  constructor
  · intro ⟨others, hlisted, heq⟩
    rwa [pathTo_inj hnames hne (hlisted.names_valid directory.valid) hlisted.ne_nil heq]
  · exact fun h ↦ ⟨names, h, rfl⟩

theorem not_mem_collect {directory : Directory} (h : InsideListed order root directory names)
    (hnames : ∀ name ∈ names, Name name) (hne : names ≠ []) :
    pathTo root names ∉ collect order root directory.entries := by
  obtain ⟨outer, above, houter, hp, hproper, -, -, hmem⟩ := h
  intro hlisted
  rw [mem_collect_iff directory hnames hne] at hlisted
  rw [mem_collect_iff directory (fun name hname ↦ hnames name (hp.subset hname)) houter] at hmem
  exact hproper (hmem.eq_of_prefix hlisted hp directory.valid)

theorem mem_collect_of_outside {directory : Directory}
    (h : ¬ InsideListed order root directory names) (hne : names ≠ [])
    (hfind : (Node.directory directory.entries).find names = some node)
    (hcandidate : isCandidate (names.getLast hne) node = true) :
    pathTo root names ∈ collect order root directory.entries := by
  have hnames := find_names directory.valid (by rw [hfind]; rfl)
  obtain ⟨outer, hp, hlisted, hcases⟩ := exists_listed directory.valid hne hfind hcandidate
  rw [mem_collect_iff directory hnames hne]
  rcases hcases with rfl | ⟨above, habove, hresource⟩
  · exact hlisted
  · by_cases heq : outer = names
    · exact heq ▸ hlisted
    · refine absurd ⟨outer, above, hlisted.ne_nil, hp, heq, habove, hresource, ?_⟩ h
      exact (mem_collect directory.valid).mpr ⟨outer, hlisted, rfl⟩

/-- In whatever orders the directories are enumerated, the candidates and the index are the same,
and below one root each archive and each resource directory is a candidate once, or not at all where
it lies inside a resource directory that is one. -/
theorem discovery_order_independent (order order' : ℕ → Enumeration) (roots : List RootDirectory)
    (openEnvelope : Bytes → Except Bytes Envelope) (engineVersion : Version) (strictRoots : Bool) :
    discover order roots = discover order' roots ∧
      buildIndex (discover order roots) openEnvelope engineVersion strictRoots =
        buildIndex (discover order' roots) openEnvelope engineVersion strictRoots ∧
      ∀ (order : Enumeration) (root : Bytes) (directory : Directory) (names : List Bytes)
        (name : Bytes) (node : Node),
        (Node.directory directory.entries).find (names ++ [name]) = some node →
        isCandidate name node = true →
        (collect order root directory.entries).count (pathTo root (names ++ [name])) =
          open Classical in
          if InsideListed order root directory (names ++ [name]) then 0 else 1 := by
  refine ⟨discover_eq order order' roots, by rw [discover_eq order order' roots], ?_⟩
  intro order root directory names name node hfind hcandidate
  have hnames := find_names directory.valid (by rw [hfind]; rfl)
  split_ifs with hinside
  · exact List.count_eq_zero.mpr (not_mem_collect hinside hnames (by simp))
  · refine List.count_eq_one_of_mem (collect_nodup directory.valid) ?_
    exact mem_collect_of_outside hinside (by simp) hfind (by simpa using hcandidate)

end SquaredPg
