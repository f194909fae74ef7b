import SquaredPg.Lists
import SquaredPg.Lua
import Mathlib.Data.List.Nodup
import Mathlib.Data.List.Perm.Subperm

namespace SquaredPg

namespace Value

theorem sameItems_iff {vs ws : List Value} : SameItems vs ws ↔ List.Forall₂ Same vs ws := by
  induction vs generalizing ws with
  | nil => simp [SameItems]
  | cons v vs ih =>
    rw [SameItems]
    constructor
    · intro ⟨w, ws', heq, hvw, hrest⟩
      rw [heq]
      exact .cons hvw (ih.mp hrest)
    · intro h
      cases h with
      | cons hvw hrest => exact ⟨_, _, rfl, hvw, ih.mpr hrest⟩

theorem sameMembers_iff {ms ws : List (Bytes × Value)} : SameMembers ms ws ↔
    List.Forall₂ (fun m n ↦ n.1 = m.1 ∧ m.2.Same n.2) ms ws := by
  induction ms generalizing ws with
  | nil => simp [SameMembers]
  | cons m ms ih =>
    obtain ⟨k, v⟩ := m
    rw [SameMembers]
    constructor
    · intro ⟨w, ws', heq, hvw, hrest⟩
      rw [heq]
      exact .cons ⟨rfl, hvw⟩ (ih.mp hrest)
    · intro h
      cases h with
      | @cons _ n _ ws' hvw hrest =>
        obtain ⟨rfl, hvw⟩ := hvw
        exact ⟨n.2, ws', rfl, hvw, ih.mpr hrest⟩

end Value

namespace LuaValue

theorem sameEntries_iff {es ws : LuaEntries} : SameEntries es ws ↔
    List.Forall₂ (fun e f ↦ f.1 = e.1 ∧ e.2.Same f.2) es ws := by
  induction es generalizing ws with
  | nil => simp [SameEntries]
  | cons e es ih =>
    obtain ⟨k, v⟩ := e
    rw [SameEntries]
    constructor
    · intro ⟨w, ws', heq, hvw, hrest⟩
      rw [heq]
      exact .cons ⟨rfl, hvw⟩ (ih.mp hrest)
    · intro h
      cases h with
      | @cons _ f _ ws' hvw hrest =>
        obtain ⟨rfl, hvw⟩ := hvw
        exact ⟨f.2, ws', rfl, hvw, ih.mpr hrest⟩

mutual

theorem same_refl : (v : LuaValue) → v.Same v
  | .nil => rfl
  | .boolean _ => rfl
  | .integer _ => rfl
  | .float _ => rfl
  | .string _ => rfl
  | .reference _ => rfl
  | .table entries => ⟨entries, entries, rfl, .refl _, sameEntries_refl entries⟩

theorem sameEntries_refl : (entries : LuaEntries) → SameEntries entries entries
  | [] => rfl
  | (_, v) :: entries => ⟨v, entries, rfl, same_refl v, sameEntries_refl entries⟩

end

theorem keys_of_same {entries aligned : LuaEntries} (h : SameEntries entries aligned) :
    LuaEntries.keys aligned = LuaEntries.keys entries := by
  have hforall := sameEntries_iff.mp h
  clear h
  induction hforall with
  | nil => rfl
  | cons hkey _ ih => exact congrArg₂ List.cons hkey.1 ih

end LuaValue

def indices (n : ℕ) : List LuaKey := (List.range n).map fun i : ℕ ↦ LuaKey.integer (i + 1)

theorem mem_indices {n : ℕ} {key : LuaKey} :
    key ∈ indices n ↔ ∃ i : ℤ, key = .integer i ∧ 1 ≤ i ∧ i ≤ n := by
  simp only [indices, List.mem_map, List.mem_range]
  constructor
  · intro ⟨i, hi, heq⟩
    exact ⟨i + 1, heq.symm, by omega, by omega⟩
  · intro ⟨i, heq, hlow, hhigh⟩
    refine ⟨(i - 1).toNat, by omega, ?_⟩
    rw [heq]
    congr 1
    omega

theorem nodup_indices (n : ℕ) : (indices n).Nodup := by
  refine List.nodup_range.map fun i j h ↦ ?_
  simp only [LuaKey.integer.injEq] at h
  omega

theorem length_indices (n : ℕ) : (indices n).length = n := by simp [indices]

variable {entries : LuaEntries} {n m : ℕ}

theorem within_iff {key : LuaKey} : key.within n = true ↔ key ∈ indices n := by
  rw [mem_indices]
  cases key with
  | integer i => simp [LuaKey.within]
  | _ => simp [LuaKey.within]

theorem border_of_perm (hkeys : entries.keys.Perm (indices m)) (h : entries.IsBorder n) : n = m := by
  obtain ⟨hlow, hhigh⟩ := h
  rw [hkeys.mem_iff, mem_indices] at hlow hhigh
  have hm : ¬ ((n : ℤ) + 1 ≤ m) := by
    intro hle
    exact hhigh ⟨n + 1, rfl, by omega, hle⟩
  obtain rfl | ⟨i, heq, _, hi⟩ := hlow
  · omega
  · simp only [LuaKey.integer.injEq] at heq
    omega

theorem isSequence_iff_perm (hnodup : entries.keys.Nodup) :
    isSequence n entries = true ↔ entries.keys.Perm (indices n) := by
  have hlength : entries.keys.length = entries.length := by simp [LuaEntries.keys]
  rw [isSequence, Bool.and_eq_true, List.all_eq_true, decide_eq_true_eq]
  constructor
  · intro ⟨hall, hcount⟩
    have hsub : entries.keys ⊆ indices n := by
      intro key hkey
      obtain ⟨entry, hentry, rfl⟩ := List.mem_map.mp hkey
      exact within_iff.mp (hall entry hentry)
    refine (hnodup.subperm hsub).perm_of_length_le ?_
    rw [length_indices, hlength, hcount]
  · intro hperm
    refine ⟨fun entry hentry ↦ ?_, ?_⟩
    · exact within_iff.mpr (hperm.mem_iff.mp (List.mem_map_of_mem hentry))
    · rw [← hlength, hperm.length_eq, length_indices]

theorem perm_indices_iff (hnodup : entries.keys.Nodup) :
    entries.keys.Perm (indices m) ↔
      ∀ key, key ∈ entries.keys ↔ ∃ i : ℤ, key = .integer i ∧ 1 ≤ i ∧ i ≤ m := by
  simp only [List.perm_ext_iff_of_nodup hnodup (nodup_indices m), mem_indices]

def LuaEntries.Consecutive (entries : LuaEntries) : Prop :=
  ∃ m : ℕ, ∀ key, key ∈ entries.keys ↔ ∃ i : ℤ, key = .integer i ∧ 1 ≤ i ∧ i ≤ m

theorem isSequence_iff_consecutive (hnodup : entries.keys.Nodup) (hborder : entries.IsBorder n) :
    isSequence n entries = true ↔ entries.Consecutive := by
  rw [isSequence_iff_perm hnodup]
  constructor
  · intro hperm
    exact ⟨n, (perm_indices_iff hnodup).mp hperm⟩
  · intro h
    obtain ⟨m, hkeys⟩ := h
    have hperm := (perm_indices_iff hnodup).mpr hkeys
    -- the border that the length operator picks is the only one
    rw [border_of_perm hperm hborder]
    exact hperm

theorem consecutive_of_perm {others : LuaEntries} (hperm : others.Perm entries) :
    others.Consecutive ↔ entries.Consecutive := by
  have hkeys (key : LuaKey) : key ∈ others.keys ↔ key ∈ entries.keys := (hperm.map Prod.fst).mem_iff
  simp only [LuaEntries.Consecutive, hkeys]

theorem LuaEntries.Consecutive.gapless (h : entries.Consecutive) {key : LuaKey}
    (hkey : key ∈ entries.keys) :
    ∃ i : ℤ, key = .integer i ∧ 1 ≤ i ∧ ∀ j, 1 ≤ j ∧ j ≤ i → .integer j ∈ entries.keys := by
  obtain ⟨m, hm⟩ := h
  obtain ⟨i, rfl, hlow, hhigh⟩ := (hm key).mp hkey
  refine ⟨i, rfl, hlow, ?_⟩
  intro j hj
  rw [hm]
  exact ⟨j, rfl, hj.1, by omega⟩

theorem isSequence_correct (hnodup : entries.keys.Nodup) (hborder : entries.IsBorder n) :
    (isSequence n entries = true ↔
      ∃ m : ℕ, ∀ key, key ∈ entries.keys ↔ ∃ i : ℤ, key = .integer i ∧ 1 ≤ i ∧ i ≤ m) ∧
    (∀ (others : LuaEntries) (k : ℕ), others.Perm entries → others.IsBorder k →
      isSequence k others = isSequence n entries) ∧
    (∀ key ∈ entries.keys, (∀ i : ℤ, key = .integer i → i < 1 ∨
      ∃ j, 1 ≤ j ∧ j ≤ i ∧ .integer j ∉ entries.keys) → isSequence n entries = false) := by
  refine ⟨isSequence_iff_consecutive hnodup hborder, ?_, ?_⟩
  · intro others k hperm hk
    have hothers : others.keys.Nodup := (hperm.map Prod.fst).nodup_iff.mpr hnodup
    rw [Bool.eq_iff_iff, isSequence_iff_consecutive hothers hk,
      isSequence_iff_consecutive hnodup hborder]
    exact consecutive_of_perm hperm
  · intro key hkey hbad
    rw [Bool.eq_false_iff, Ne, isSequence_iff_consecutive hnodup hborder]
    intro h
    obtain ⟨i, rfl, hone, hall⟩ := h.gapless hkey
    obtain hneg | ⟨j, hlow, hhigh, hj⟩ := hbad i rfl
    · omega
    · exact hj (hall j ⟨hlow, hhigh⟩)

/-- A table with a hole has more than one border, and the answer is the same at each. -/
def holed : LuaEntries := [(.integer 4, .boolean true), (.integer 1, .boolean true)]

theorem isSequence_correct_holed : holed.keys.Nodup ∧ holed.IsBorder 1 ∧ holed.IsBorder 4 ∧
    isSequence 1 holed = false ∧ isSequence 4 holed = false := by
  have hnodup : holed.keys.Nodup := by decide
  have hone : holed.IsBorder 1 := ⟨by decide, by decide⟩
  have hfour : holed.IsBorder 4 := ⟨by decide, by decide⟩
  obtain ⟨_, hborders, hholes⟩ := isSequence_correct hnodup hone
  have hfalse : isSequence 1 holed = false := by
    refine hholes (.integer 4) (by decide) ?_
    intro i hi
    simp only [LuaKey.integer.injEq] at hi
    exact .inr ⟨2, by omega, by omega, by decide⟩
  refine ⟨hnodup, hone, hfour, hfalse, ?_⟩
  rw [hborders holed 4 (List.Perm.refl holed) hfour]
  exact hfalse

namespace Value

/-- A value without nulls and empty objects, whose objects repeat no key. -/
inductive Portable : Value → Prop
  | boolean (b : Bool) : Portable (boolean b)
  | integer (i : Int64) : Portable (integer i)
  | number (d : Double) : Portable (number d)
  | string (s : Bytes) : Portable (string s)
  | array {items : List Value} (h : ∀ v ∈ items, Portable v) : Portable (array items)
  | object {members : List (Bytes × Value)} (hne : members ≠ [])
    (hnodup : (members.map Prod.fst).Nodup) (h : ∀ m ∈ members, Portable m.2) :
    Portable (object members)

mutual

/-- The keys of all objects in a value. -/
def keys : Value → List Bytes
  | .null => []
  | .boolean _ => []
  | .integer _ => []
  | .number _ => []
  | .string _ => []
  | .array items => keysItems items
  | .object members => keysMembers members

def keysItems : List Value → List Bytes
  | [] => []
  | v :: vs => keys v ++ keysItems vs

def keysMembers : List (Bytes × Value) → List Bytes
  | [] => []
  | (k, v) :: ms => k :: (keys v ++ keysMembers ms)

end

theorem mem_keysItems {items : List Value} {key : Bytes} :
    key ∈ keysItems items ↔ ∃ v ∈ items, key ∈ v.keys := by
  induction items with
  | nil => simp [keysItems]
  | cons v vs ih => simp [keysItems, ih]

theorem mem_keysMembers {members : List (Bytes × Value)} {key : Bytes} :
    key ∈ keysMembers members ↔ ∃ m ∈ members, key = m.1 ∨ key ∈ m.2.keys := by
  induction members with
  | nil => simp [keysMembers]
  | cons m ms ih =>
    obtain ⟨k, v⟩ := m
    simp [keysMembers, ih, or_assoc]

theorem Portable.ne_null {v : Value} (h : v.Portable) : v ≠ .null := by
  cases h <;> exact Value.noConfusion

end Value

theorem pushValue_ne_nil {v : Value} (h : v ≠ .null) : pushValue v ≠ .nil := by
  cases v with
  | null => exact absurd rfl h
  | _ => simp [pushValue]

theorem LuaEntries.set_fresh {key : LuaKey} {value : LuaValue} (hvalue : value ≠ .nil)
    (hkey : key ∉ entries.keys) : entries.set key value = entries ++ [(key, value)] := by
  cases value with
  | nil => exact absurd rfl hvalue
  | _ => exact if_neg hkey

theorem LuaEntries.keys_append (entries others : LuaEntries) :
    LuaEntries.keys (entries ++ others) = entries.keys ++ LuaEntries.keys others :=
  List.map_append

def indexed (i : ℤ) : List Value → LuaEntries
  | [] => []
  | v :: vs => (.integer i, pushValue v) :: indexed (i + 1) vs

theorem pushItems_eq {items : List Value} (hnull : ∀ v ∈ items, v ≠ .null) {i : ℤ}
    (hfresh : ∀ j, i ≤ j → .integer j ∉ entries.keys) :
    pushItems i entries items = entries ++ indexed i items := by
  induction items generalizing i entries with
  | nil => simp [pushItems, indexed]
  | cons v vs ih =>
    have hset := LuaEntries.set_fresh (pushValue_ne_nil (hnull v (by simp))) (hfresh i le_rfl)
    rw [pushItems, hset, ih fun w hw ↦ hnull w (by simp [hw])]
    · simp [indexed]
    · intro j hj
      rw [LuaEntries.keys_append, List.mem_append]
      intro hmem
      obtain hmem | hmem := hmem
      · exact hfresh j (by omega) hmem
      · simp only [LuaEntries.keys, List.map_cons, List.map_nil, List.mem_singleton,
          LuaKey.integer.injEq] at hmem
        omega

def named (members : List (Bytes × Value)) : LuaEntries :=
  members.map fun m ↦ (.string (cString m.1), pushValue m.2)

theorem keys_named (members : List (Bytes × Value)) :
    (named members).keys = (members.map fun m ↦ cString m.1).map LuaKey.string := by
  simp [named, LuaEntries.keys, Function.comp_def]

theorem pushMembers_eq {members : List (Bytes × Value)} (hnull : ∀ m ∈ members, m.2 ≠ .null)
    (hfresh : (entries.keys ++ (named members).keys).Nodup) :
    pushMembers entries members = entries ++ named members := by
  induction members generalizing entries with
  | nil => simp [pushMembers, named]
  | cons m ms ih =>
    obtain ⟨k, v⟩ := m
    have hkeys : (named ((k, v) :: ms)).keys = .string (cString k) :: (named ms).keys := rfl
    rw [hkeys] at hfresh
    have hkey : .string (cString k) ∉ entries.keys := by
      intro hmem
      exact (List.nodup_append.mp hfresh).2.2 _ hmem _ (by simp) rfl
    have hset := LuaEntries.set_fresh (pushValue_ne_nil (hnull (k, v) (by simp))) hkey
    rw [pushMembers, hset, ih fun m hm ↦ hnull m (by simp [hm])]
    · simp [named]
    · rw [LuaEntries.keys_append, List.append_assoc]
      exact hfresh

theorem not_mem_cString (text : Bytes) : (0 : UInt8) ∉ cString text := by
  intro h
  simpa using List.mem_takeWhile_imp h

theorem fromEntries_eq (length : LuaLength) (entries : LuaEntries) :
    fromEntries length entries = entries.map fun e ↦ (e.1, fromLua length e.2) := by
  induction entries with
  | nil => rfl
  | cons e entries ih =>
    obtain ⟨k, v⟩ := e
    rw [fromEntries, ih]
    rfl

theorem keys_indexed (items : List Value) (i : ℤ) : (indexed i items).keys =
    (List.range items.length).map fun j : ℕ ↦ LuaKey.integer (i + j) := by
  induction items generalizing i with
  | nil => rfl
  | cons v vs ih =>
    rw [indexed, List.length_cons, List.range_succ_eq_map, List.map_cons, List.map_map]
    refine congrArg₂ List.cons (by simp) ((ih (i + 1)).trans ?_)
    refine List.map_congr_left fun j _ ↦ ?_
    simp only [Function.comp_apply, LuaKey.integer.injEq, Int.natCast_succ]
    omega

theorem keys_indexed_one (items : List Value) : (indexed 1 items).keys = indices items.length := by
  rw [keys_indexed, indices]
  simp only [Int.add_comm]

theorem mem_indexed {items : List Value} {i : ℤ} {j : ℕ} (hj : j < items.length) :
    (LuaKey.integer (i + j), pushValue items[j]) ∈ indexed i items := by
  induction items generalizing i j with
  | nil => simp at hj
  | cons v vs ih =>
    rw [indexed]
    cases j with
    | zero => simp
    | succ j =>
      have hmem := ih (i := i + 1) (j := j) (by simpa using hj)
      rw [List.getElem_cons_succ, Int.natCast_succ, Int.add_comm (j : ℤ) 1, ← Int.add_assoc]
      exact List.mem_cons_of_mem _ hmem

variable {length : LuaLength} {items : List Value} {members : List (Bytes × Value)}

theorem items_of_same (hnull : ∀ v ∈ items, v ≠ .null) {t : LuaValue}
    (h : (pushValue (.array items)).Same t) : ∃ entries, t = .table entries ∧
      (LuaEntries.keys entries).Perm (indices items.length) ∧ ∀ j, (hj : j < items.length) →
        ∃ value, (LuaKey.integer (j + 1), value) ∈ entries ∧ (pushValue items[j]).Same value := by
  have hpush : pushValue (.array items) = .table (indexed 1 items) := by
    rw [pushValue, pushItems_eq hnull (by simp [LuaEntries.keys]), List.nil_append]
  rw [hpush] at h
  obtain ⟨entries, aligned, rfl, hperm, hsame⟩ := h
  refine ⟨entries, rfl, ?_, fun j hj ↦ ?_⟩
  · rw [← keys_indexed_one, ← LuaValue.keys_of_same hsame]
    exact hperm.map Prod.fst
  · obtain ⟨⟨key, value⟩, hin, hkey, hvalue⟩ :=
      exists_of_forall₂ (LuaValue.sameEntries_iff.mp hsame) (mem_indexed (i := 1) hj)
    refine ⟨value, ?_, hvalue⟩
    rw [Int.add_comm, ← show key = .integer (1 + j) from hkey]
    exact hperm.mem_iff.mpr hin

theorem fromLua_array (hnull : ∀ v ∈ items, v ≠ .null) {t : LuaValue}
    (ih : ∀ v ∈ items, ∀ t, (pushValue v).Same t → v.Same (fromLua length t))
    (h : (pushValue (.array items)).Same t) : (Value.array items).Same (fromLua length t) := by
  obtain ⟨entries, rfl, hkeys, hitems⟩ := items_of_same hnull h
  have hlen : length.len entries = items.length := border_of_perm hkeys (length.border entries)
  have hnodup : (LuaEntries.keys entries).Nodup := hkeys.nodup_iff.mpr (nodup_indices _)
  have hread : ∀ j, (hj : j < items.length) → ∃ w,
      (fromEntries length entries).lookup (.integer (j + 1)) = some w ∧ items[j].Same w := by
    intro j hj
    obtain ⟨value, hin, hvalue⟩ := hitems j hj
    refine ⟨fromLua length value, ?_, ih _ (List.getElem_mem hj) _ hvalue⟩
    rw [fromEntries_eq]
    refine lookup_of_nodup ?_ (List.mem_map_of_mem hin)
    rw [List.map_map]
    exact hnodup
  rw [fromLua, hlen, if_pos ((isSequence_iff_perm hnodup).mpr hkeys)]
  refine ⟨_, rfl, Value.sameItems_iff.mpr (List.forall₂_iff_get.mpr ⟨by simp, ?_⟩)⟩
  intro j hj _
  obtain ⟨w, hw, hsame⟩ := hread j hj
  simpa [hw] using hsame

/-- A member as `from_lua` reads an entry, if its key has a text. -/
def member (length : LuaLength) (entry : LuaKey × LuaValue) : Option (Bytes × Value) :=
  entry.1.text.map fun text ↦ (text, fromLua length entry.2)

theorem fromLua_table (length : LuaLength) (entries : LuaEntries) :
    fromLua length (.table entries) = if isSequence (length.len entries) entries then
        .array ((List.range (length.len entries)).map fun i : ℕ ↦
          ((fromEntries length entries).lookup (.integer (i + 1))).getD .null)
      else .object (entries.filterMap (member length)) := by
  rw [fromLua, fromEntries_eq, List.filterMap_map]
  rfl

theorem isSequence_string {text : Bytes} (h : .string text ∈ LuaEntries.keys entries) :
    isSequence n entries = false := by
  obtain ⟨entry, hentry, hkey⟩ := List.mem_map.mp h
  rw [isSequence, Bool.and_eq_false_iff, List.all_eq_false]
  exact .inl ⟨entry, hentry, by rw [hkey]; exact Bool.false_ne_true⟩

theorem pushValue_object (hnull : ∀ m ∈ members, m.2 ≠ .null)
    (hkeys : (members.map fun m ↦ cString m.1).Nodup) :
    pushValue (.object members) = .table (named members) := by
  rw [pushValue, pushMembers_eq hnull, List.nil_append]
  rw [keys_named]
  exact hkeys.map fun a b h ↦ LuaKey.string.inj h

theorem map_cString (hnul : ∀ m ∈ members, (0 : UInt8) ∉ m.1) :
    (members.map fun m ↦ cString m.1) = members.map Prod.fst :=
  List.map_congr_left fun m hm ↦ cString_of_not_mem (hnul m hm)

theorem members_of_same (hnull : ∀ m ∈ members, m.2 ≠ .null)
    (hnodup : (members.map Prod.fst).Nodup) (hnul : ∀ m ∈ members, (0 : UInt8) ∉ m.1)
    {t : LuaValue} (h : (pushValue (.object members)).Same t) : ∃ entries, t = .table entries ∧
      (LuaEntries.keys entries).Perm (members.map fun m ↦ LuaKey.string m.1) ∧ ∀ m ∈ members,
        ∃ value, (LuaKey.string m.1, value) ∈ entries ∧ (pushValue m.2).Same value := by
  rw [pushValue_object hnull (map_cString hnul ▸ hnodup)] at h
  obtain ⟨entries, aligned, rfl, hperm, hsame⟩ := h
  refine ⟨entries, rfl, ?_, fun m hm ↦ ?_⟩
  · have hkeys : (named members).keys = members.map fun m ↦ LuaKey.string m.1 := by
      rw [keys_named, map_cString hnul, List.map_map]
      rfl
    rw [← hkeys, ← LuaValue.keys_of_same hsame]
    exact hperm.map Prod.fst
  · have hentry : (LuaKey.string (cString m.1), pushValue m.2) ∈ named members :=
      List.mem_map_of_mem (f := fun m : Bytes × Value ↦
        (LuaKey.string (cString m.1), pushValue m.2)) hm
    obtain ⟨⟨key, value⟩, hin, hkey, hvalue⟩ :=
      exists_of_forall₂ (LuaValue.sameEntries_iff.mp hsame) hentry
    refine ⟨value, ?_, hvalue⟩
    rw [← cString_of_not_mem (hnul m hm), ← show key = .string (cString m.1) from hkey]
    exact hperm.mem_iff.mpr hin

theorem fromLua_object (hnull : ∀ m ∈ members, m.2 ≠ .null) (hne : members ≠ [])
    (hnodup : (members.map Prod.fst).Nodup) (hnul : ∀ m ∈ members, (0 : UInt8) ∉ m.1)
    {t : LuaValue} (ih : ∀ m ∈ members, ∀ t, (pushValue m.2).Same t → m.2.Same (fromLua length t))
    (h : (pushValue (.object members)).Same t) : (Value.object members).Same (fromLua length t) := by
  rw [pushValue_object hnull (map_cString hnul ▸ hnodup)] at h
  obtain ⟨entries, aligned, rfl, hperm, hsame⟩ := h
  obtain ⟨first, rest, rfl⟩ := List.exists_cons_of_ne_nil hne
  have hfirst : .string (cString first.1) ∈ LuaEntries.keys entries := by
    have hkeys := hperm.map Prod.fst
    rw [LuaEntries.keys, hkeys.mem_iff]
    rw [show aligned.map Prod.fst = _ from LuaValue.keys_of_same hsame, keys_named]
    simp
  rw [fromLua_table, isSequence_string hfirst, if_neg Bool.false_ne_true]
  refine ⟨_, aligned.filterMap (member length), rfl, hperm.filterMap _, ?_⟩
  rw [Value.sameMembers_iff]
  have hforall := LuaValue.sameEntries_iff.mp hsame
  rw [named, List.forall₂_map_left_iff] at hforall
  generalize first :: rest = members at hforall ih hnul
  clear hsame hperm hfirst
  induction hforall with
  | nil => exact .nil
  | @cons m entry ms aligned hentry _ hrest =>
    obtain ⟨hkey, hvalue⟩ := hentry
    have hmember : member length entry = some (m.1, fromLua length entry.2) := by
      rw [member, hkey, LuaKey.text, cString_of_not_mem (hnul m (by simp))]
      rfl
    rw [List.filterMap_cons_some hmember]
    exact .cons ⟨rfl, ih m (by simp) _ hvalue⟩
      (hrest (fun m hm ↦ ih m (by simp [hm])) fun m hm ↦ hnul m (by simp [hm]))

theorem fromLua_pushValue {v : Value} (h : v.Portable) (hnul : ∀ key ∈ v.keys, (0 : UInt8) ∉ key) :
    ∀ {t}, (pushValue v).Same t → v.Same (fromLua length t) := by
  induction h with
  | boolean b =>
    intro t ht
    rw [show t = .boolean b from ht]
    exact rfl
  | integer i =>
    intro t ht
    rw [show t = .integer i from ht]
    exact rfl
  | number d =>
    intro t ht
    rw [show t = .float d from ht]
    exact rfl
  | string s =>
    intro t ht
    rw [show t = .string s from ht]
    exact rfl
  | array hitems ih =>
    intro t ht
    refine fromLua_array (fun v hv ↦ (hitems v hv).ne_null) (fun v hv t ht ↦ ?_) ht
    refine ih v hv (fun key hkey ↦ hnul key ?_) ht
    rw [Value.keys, Value.mem_keysItems]
    exact ⟨v, hv, hkey⟩
  | object hne hnodup hmembers ih =>
    intro t ht
    refine fromLua_object (fun m hm ↦ (hmembers m hm).ne_null) hne hnodup (fun m hm ↦ ?_)
      (fun m hm t ht ↦ ?_) ht
    · refine hnul m.1 ?_
      rw [Value.keys, Value.mem_keysMembers]
      exact ⟨m, hm, .inl rfl⟩
    · refine ih m hm (fun key hkey ↦ hnul key ?_) ht
      rw [Value.keys, Value.mem_keysMembers]
      exact ⟨m, hm, .inr hkey⟩

theorem mem_set {key : LuaKey} {value : LuaValue} {entry : LuaKey × LuaValue}
    (h : entry ∈ entries.set key value) : entry ∈ entries ∨ entry = (key, value) := by
  unfold LuaEntries.set at h
  split at h
  · exact .inl (List.mem_of_mem_filter h)
  · split_ifs at h
    · obtain ⟨old, hold, heq⟩ := List.mem_map.mp h
      split_ifs at heq
      · exact .inr heq.symm
      · exact .inl (heq ▸ hold)
    · simpa using h

theorem mem_pushItems {items : List Value} {i : ℤ} {entry : LuaKey × LuaValue}
    (h : entry ∈ pushItems i entries items) : entry ∈ entries ∨
      (∃ j, entry.1 = .integer j) ∧ ∃ v ∈ items, entry.2 = pushValue v := by
  induction items generalizing i entries with
  | nil => exact .inl h
  | cons v vs ih =>
    obtain hin | ⟨hkey, w, hw, hvalue⟩ := ih h
    · obtain hin | rfl := mem_set hin
      · exact .inl hin
      · exact .inr ⟨⟨i, rfl⟩, v, by simp, rfl⟩
    · exact .inr ⟨hkey, w, by simp [hw], hvalue⟩

theorem mem_pushMembers {members : List (Bytes × Value)} {entry : LuaKey × LuaValue}
    (h : entry ∈ pushMembers entries members) : entry ∈ entries ∨
      ∃ m ∈ members, entry = (.string (cString m.1), pushValue m.2) := by
  induction members generalizing entries with
  | nil => exact .inl h
  | cons m ms ih =>
    obtain hin | ⟨other, hother, hvalue⟩ := ih h
    · obtain hin | rfl := mem_set hin
      · exact .inl hin
      · exact .inr ⟨m, by simp, rfl⟩
    · exact .inr ⟨other, by simp [hother], hvalue⟩

theorem keys_fromLua {key : Bytes} (h : key ∈ (fromLua length (.table entries)).keys) :
    ∃ entry ∈ entries, entry.1.text = some key ∨ key ∈ (fromLua length entry.2).keys := by
  rw [fromLua_table] at h
  split_ifs at h
  · rw [Value.keys, Value.mem_keysItems] at h
    obtain ⟨v, hv, hkey⟩ := h
    obtain ⟨i, _, rfl⟩ := List.mem_map.mp hv
    cases hlookup : (fromEntries length entries).lookup (.integer (i + 1)) with
    | none => simp [hlookup, Value.keys] at hkey
    | some w =>
      have hin := mem_of_lookup hlookup
      rw [fromEntries_eq] at hin
      obtain ⟨entry, hentry, hpair⟩ := List.mem_map.mp hin
      rw [hlookup, Option.getD_some, ← (Prod.mk.inj hpair).2] at hkey
      exact ⟨entry, hentry, .inr hkey⟩
  · rw [Value.keys, Value.mem_keysMembers] at h
    obtain ⟨m, hm, hkey⟩ := h
    obtain ⟨entry, hentry, hmember⟩ := List.mem_filterMap.mp hm
    obtain ⟨text, htext, rfl⟩ := Option.map_eq_some_iff.mp hmember
    refine ⟨entry, hentry, hkey.imp_left fun heq ↦ ?_⟩
    rw [htext, heq]

theorem not_mem_integer_text {i : ℤ} {text : Bytes} (h : (LuaKey.integer i).text = some text) :
    (0 : UInt8) ∉ text := by
  have hdigits : ∀ n : ℕ, (0 : UInt8) ∉ decimal n := by
    intro n hmem
    exact absurd (decimal_digits hmem) (by decide)
  rw [LuaKey.text, Option.some_inj] at h
  rw [← h]
  split_ifs
  · rw [List.mem_cons, not_or]
    exact ⟨by decide, hdigits _⟩
  · exact hdigits _

theorem keys_fromLua_pushValue {v : Value} (h : v.Portable) :
    ∀ key ∈ (fromLua length (pushValue v)).keys, (0 : UInt8) ∉ key := by
  induction h with
  | boolean b => exact fun key hkey ↦ nomatch hkey
  | integer i => exact fun key hkey ↦ nomatch hkey
  | number d => exact fun key hkey ↦ nomatch hkey
  | string s => exact fun key hkey ↦ nomatch hkey
  | array hitems ih =>
    intro key hkey
    obtain ⟨entry, hentry, htext⟩ := keys_fromLua hkey
    obtain hentry | ⟨⟨j, hj⟩, v, hv, hvalue⟩ := mem_pushItems hentry
    · cases hentry
    · obtain htext | hkey := htext
      · rw [hj] at htext
        exact not_mem_integer_text htext
      · rw [hvalue] at hkey
        exact ih v hv key hkey
  | object hne hnodup hmembers ih =>
    intro key hkey
    obtain ⟨entry, hentry, htext⟩ := keys_fromLua hkey
    obtain hentry | ⟨m, hm, rfl⟩ := mem_pushMembers hentry
    · cases hentry
    · obtain htext | hkey := htext
      · rw [LuaKey.text, Option.some_inj] at htext
        rw [← htext]
        exact not_mem_cString m.1
      · exact ih m hm key hkey

theorem Value.keys_of_same {v : Value} (h : v.Portable) {key : Bytes} :
    ∀ {w}, v.Same w → key ∈ v.keys → key ∈ w.keys := by
  induction h with
  | boolean b => exact fun _ hkey ↦ nomatch hkey
  | integer i => exact fun _ hkey ↦ nomatch hkey
  | number d => exact fun _ hkey ↦ nomatch hkey
  | string s => exact fun _ hkey ↦ nomatch hkey
  | array hitems ih =>
    intro w hsame hkey
    obtain ⟨items', rfl, hsame⟩ := hsame
    rw [Value.keys, Value.mem_keysItems] at hkey ⊢
    obtain ⟨v, hv, hkey⟩ := hkey
    obtain ⟨w, hw, hvw⟩ := exists_of_forall₂ (Value.sameItems_iff.mp hsame) hv
    exact ⟨w, hw, ih v hv hvw hkey⟩
  | object hne hnodup hmembers ih =>
    intro w hsame hkey
    obtain ⟨members', aligned, rfl, hperm, hsame⟩ := hsame
    rw [Value.keys, Value.mem_keysMembers] at hkey ⊢
    obtain ⟨m, hm, hkey⟩ := hkey
    obtain ⟨n, hn, hname, hmn⟩ := exists_of_forall₂ (Value.sameMembers_iff.mp hsame) hm
    refine ⟨n, hperm.mem_iff.mpr hn, ?_⟩
    exact hkey.imp (fun heq ↦ heq.trans hname.symm) (ih m hm hmn)

def LuaKey.index : LuaKey → ℕ
  | integer i => i.toNat
  | _ => 0

def lastIndex (entries : LuaEntries) : ℕ := (entries.keys.map LuaKey.index).foldr max 0

theorem le_foldr_max {ns : List ℕ} {n : ℕ} (h : n ∈ ns) : n ≤ ns.foldr max 0 := by
  induction ns with
  | nil => cases h
  | cons m ns ih =>
    rw [List.foldr_cons]
    rcases List.mem_cons.mp h with rfl | h
    · exact Nat.le_max_left _ _
    · exact (ih h).trans (Nat.le_max_right _ _)

theorem foldr_max_mem (ns : List ℕ) : ns.foldr max 0 = 0 ∨ ns.foldr max 0 ∈ ns := by
  induction ns with
  | nil => exact .inl rfl
  | cons m ns ih =>
    rw [List.foldr_cons]
    rcases Nat.le_total m (ns.foldr max 0) with hle | hle
    · rw [Nat.max_eq_right hle]
      exact ih.imp_right fun h ↦ List.mem_cons_of_mem _ h
    · rw [Nat.max_eq_left hle]
      exact .inr List.mem_cons_self

/-- The length that is the last index of a table. -/
def LuaLength.last : LuaLength where
  len := lastIndex
  border := by
    intro entries
    constructor
    · obtain hzero | hmem := foldr_max_mem (entries.keys.map LuaKey.index)
      · exact .inl hzero
      · obtain ⟨key, hkey, hindex⟩ := List.mem_map.mp hmem
        cases key with
        | integer i =>
          by_cases hi : 0 < i
          · right
            have hlast : (lastIndex entries : ℤ) = i := by
              rw [lastIndex, ← hindex, LuaKey.index]
              omega
            rwa [hlast]
          · left
            rw [lastIndex, ← hindex, LuaKey.index]
            omega
        | _ => exact .inl hindex.symm
    · intro hmem
      have hle := le_foldr_max (List.mem_map_of_mem (f := LuaKey.index) hmem)
      rw [← lastIndex, LuaKey.index] at hle
      omega

/-- A value comes back from Lua, in whatever order the tables keep their entries, exactly when its
keys have no NUL. -/
theorem lua_roundTrip_iff {v : Value} (h : v.Portable) :
    (∀ length t, (pushValue v).Same t → v.Same (fromLua length t)) ↔
      ∀ key ∈ v.keys, (0 : UInt8) ∉ key := by
  constructor
  · intro hall key hkey
    have hsame := hall .last (pushValue v) (LuaValue.same_refl _)
    exact keys_fromLua_pushValue h key (Value.keys_of_same h hsame hkey)
  · exact fun hnul length t ht ↦ fromLua_pushValue h hnul ht

/-- Two members whose keys differ behind a NUL. -/
def nulKeys : Value :=
  .object [([97, 0, 49], .integer 1), ([97, 0, 50], .array [.string [0, 255]])]

theorem nulKeys_portable : nulKeys.Portable := by
  refine .object (by simp) (by decide) fun m hm ↦ ?_
  rcases List.mem_cons.mp hm with rfl | hm
  · exact .integer 1
  · rw [List.mem_singleton.mp hm]
    refine .array fun v hv ↦ ?_
    rw [List.mem_singleton.mp hv]
    exact .string _

theorem lua_roundTrip_nulKeys :
    (∀ length t, (pushValue nulKeys).Same t → nulKeys.Same (fromLua length t)) ↔
      ∀ key ∈ nulKeys.keys, (0 : UInt8) ∉ key := lua_roundTrip_iff nulKeys_portable

/-- Both keys are cut to one, and the second member takes the place of the first. -/
theorem lua_roundTrip_fails : nulKeys.Portable ∧
    ¬ nulKeys.Same (fromLua .last (pushValue nulKeys)) := by
  refine ⟨nulKeys_portable, fun hsame ↦ ?_⟩
  have hin : [97, 0, 49] ∈ nulKeys.keys := by decide
  have hkey := Value.keys_of_same nulKeys_portable hsame hin
  exact keys_fromLua_pushValue nulKeys_portable _ hkey (by decide)

end SquaredPg
