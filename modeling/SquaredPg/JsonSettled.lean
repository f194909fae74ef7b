import SquaredPg.JsonRoundTrip
import SquaredPg.JsonReader

namespace SquaredPg

open Ascii

namespace Utf8

variable {l s t : Bytes} {m n : ℕ}

def Sequence (l : Bytes) : Prop := l ≠ [] ∧ ∀ t, sequenceLength (l ++ t) = l.length

theorem sequence_one {a : UInt8} (ha : a < 0x80) : Sequence [a] :=
  ⟨List.cons_ne_nil _ _, fun t ↦ by simp [sequenceLength, ha]⟩

theorem sequence_two {a b : UInt8} (ha : ¬a < 0x80) (hlead : 0xC2 ≤ a ∧ a ≤ 0xDF)
    (hb : isContinuation b = true) : Sequence [a, b] :=
  ⟨List.cons_ne_nil _ _, fun t ↦ by simp [sequenceLength, ha, hlead, hb]⟩

theorem sequence_three {a b c : UInt8} (ha : ¬a < 0x80) (htwo : ¬(0xC2 ≤ a ∧ a ≤ 0xDF))
    (hlead : 0xE0 ≤ a ∧ a ≤ 0xEF) (hb : secondAllowed a b = true) (hc : isContinuation c = true) :
    Sequence [a, b, c] :=
  ⟨List.cons_ne_nil _ _, fun t ↦ by
    simp only [List.cons_append, sequenceLength, if_neg ha, if_neg htwo, if_pos hlead,
      if_pos (And.intro hb hc)]
    rfl⟩

theorem sequence_four {a b c d : UInt8} (ha : ¬a < 0x80) (htwo : ¬(0xC2 ≤ a ∧ a ≤ 0xDF))
    (hthree : ¬(0xE0 ≤ a ∧ a ≤ 0xEF)) (hlead : 0xF0 ≤ a ∧ a ≤ 0xF4)
    (hb : secondAllowed a b = true) (hc : isContinuation c = true) (hd : isContinuation d = true) :
    Sequence [a, b, c, d] :=
  ⟨List.cons_ne_nil _ _, fun t ↦ by
    simp only [List.cons_append, sequenceLength, if_neg ha, if_neg htwo, if_neg hthree, if_pos hlead,
      if_pos (And.intro hb (And.intro hc hd))]
    rfl⟩

theorem exists_sequence (h : sequenceLength s ≠ 0) :
    ∃ l rest, s = l ++ rest ∧ Sequence l ∧ sequenceLength s = l.length := by
  suffices hsuffices : ∃ l rest, s = l ++ rest ∧ Sequence l by
    obtain ⟨l, rest, rfl, hl⟩ := hsuffices
    exact ⟨l, rest, rfl, hl, hl.2 rest⟩
  rcases s with _ | ⟨a, s⟩
  · exact absurd rfl h
  by_cases ha : a < 0x80
  · exact ⟨[a], s, rfl, sequence_one ha⟩
  by_cases htwo : 0xC2 ≤ a ∧ a ≤ 0xDF
  · rcases s with _ | ⟨b, s⟩
    · simp [sequenceLength, ha, htwo] at h
    · have hb : isContinuation b = true := by
        by_contra hb
        simp [sequenceLength, ha, htwo, hb] at h
      exact ⟨[a, b], s, rfl, sequence_two ha htwo hb⟩
  by_cases hthree : 0xE0 ≤ a ∧ a ≤ 0xEF
  · rcases s with _ | ⟨b, _ | ⟨c, s⟩⟩
    · simp [sequenceLength, ha, htwo] at h
    · simp [sequenceLength, ha, htwo] at h
    · have hbc : secondAllowed a b = true ∧ isContinuation c = true := by
        by_contra hbc
        simp only [sequenceLength, if_neg ha, if_neg htwo, if_pos hthree, if_neg hbc] at h
        exact h rfl
      exact ⟨[a, b, c], s, rfl, sequence_three ha htwo hthree hbc.1 hbc.2⟩
  by_cases hfour : 0xF0 ≤ a ∧ a ≤ 0xF4
  · rcases s with _ | ⟨b, _ | ⟨c, _ | ⟨d, s⟩⟩⟩
    · simp [sequenceLength, ha, htwo, hthree] at h
    · simp [sequenceLength, ha, htwo, hthree] at h
    · simp [sequenceLength, ha, htwo, hthree] at h
    · have hbcd : secondAllowed a b = true ∧ isContinuation c = true ∧ isContinuation d = true := by
        by_contra hbcd
        simp only [sequenceLength, if_neg ha, if_neg htwo, if_neg hthree, if_pos hfour,
          if_neg hbcd] at h
        exact h rfl
      exact ⟨[a, b, c, d], s, rfl, sequence_four ha htwo hthree hfour hbcd.1 hbcd.2.1 hbcd.2.2⟩
  · simp only [sequenceLength, if_neg ha, if_neg htwo, if_neg hthree, if_neg hfour] at h
    exact absurd rfl h

theorem validUpTo_sequence (hl : Sequence l) (t : Bytes) (n : ℕ) :
    validUpTo (n + 1) (l ++ t) = validUpTo n t := by
  obtain ⟨a, l', rfl⟩ := List.exists_cons_of_ne_nil hl.1
  have hlength := hl.2 t
  rw [List.cons_append] at hlength ⊢
  simp [validUpTo, hlength]

theorem validUpTo_mono (h : validUpTo m s = true) (hmn : m ≤ n) : validUpTo n s = true := by
  induction m generalizing n s with
  | zero =>
    rcases s with _ | ⟨a, s⟩
    · cases n <;> rfl
    · cases h
  | succ m ih =>
    obtain ⟨n, rfl⟩ : ∃ k, n = k + 1 := ⟨n - 1, by omega⟩
    rcases s with _ | ⟨a, s⟩
    · rfl
    · simp only [validUpTo, Bool.decide_and, decide_not, Bool.decide_eq_true, Bool.and_eq_true] at h ⊢
      exact ⟨h.1, ih h.2 (by omega)⟩

theorem validUpTo_append (h : validUpTo m s = true) (ht : validUpTo n t = true) :
    validUpTo (m + n) (s ++ t) = true := by
  induction m generalizing s with
  | zero =>
    rcases s with _ | ⟨a, s⟩
    · rw [Nat.zero_add]
      exact ht
    · cases h
  | succ m ih =>
    rcases s with _ | ⟨a, s⟩
    · exact validUpTo_mono ht (by omega)
    · have hlength : sequenceLength (a :: s) ≠ 0 := by
        intro hzero
        simp [validUpTo, hzero] at h
      obtain ⟨l, rest, hsplit, hl, -⟩ := exists_sequence hlength
      rw [hsplit, validUpTo_sequence hl] at h
      rw [hsplit, List.append_assoc, Nat.succ_add, validUpTo_sequence hl]
      exact ih h

theorem valid_of_validUpTo (h : validUpTo n s = true) : valid s = true := by
  suffices hsuffices : ∀ m, s.length ≤ m → validUpTo m s = true from hsuffices _ le_rfl
  intro m hm
  induction n generalizing s m with
  | zero =>
    rcases s with _ | ⟨a, s⟩
    · cases m <;> rfl
    · cases h
  | succ n ih =>
    rcases s with _ | ⟨a, s⟩
    · cases m <;> rfl
    · have hlength : sequenceLength (a :: s) ≠ 0 := by
        intro hzero
        simp [validUpTo, hzero] at h
      obtain ⟨l, rest, hsplit, hl, -⟩ := exists_sequence hlength
      have hpos := List.length_pos_of_ne_nil hl.1
      rw [hsplit, List.length_append] at hm
      obtain ⟨m, rfl⟩ : ∃ k, m = k + 1 := ⟨m - 1, by omega⟩
      rw [hsplit, validUpTo_sequence hl] at h ⊢
      exact ih h m (by omega)

theorem valid_append (hs : valid s = true) (ht : valid t = true) : valid (s ++ t) = true :=
  valid_of_validUpTo (validUpTo_append hs ht)

theorem valid_sequence (hl : Sequence l) : valid l = true := by
  have h := validUpTo_sequence hl [] 0
  rw [List.append_nil] at h
  exact valid_of_validUpTo h

end Utf8

namespace Yyjson

variable {s rest t : Bytes} {n : ℕ}

theorem isContinuation_ofNat {k : ℕ} (hk : k < 64) :
    Utf8.isContinuation (UInt8.ofNat (0x80 + k)) = true := by
  have hbyte : (UInt8.ofNat (0x80 + k)).toNat = 0x80 + k :=
    UInt8.toNat_ofNat_of_lt (show 0x80 + k < 256 by omega)
  simp only [Utf8.isContinuation, UInt8.le_iff_toNat_le, hbyte, decide_eq_true_eq]
  constructor
  · exact Nat.le_add_right _ _
  · exact Nat.le_of_lt_succ (by simp; omega)

theorem secondAllowed_ofNat {lead k : ℕ} (hlead : lead < 256) (hk : k < 64)
    (hthree : lead = 0xE0 → 32 ≤ k) (hsurrogate : lead = 0xED → k < 32)
    (hfour : lead = 0xF0 → 16 ≤ k) (hlast : lead = 0xF4 → k < 16) :
    Utf8.secondAllowed (UInt8.ofNat lead) (UInt8.ofNat (0x80 + k)) = true := by
  have hbyte : (UInt8.ofNat (0x80 + k)).toNat = 0x80 + k :=
    UInt8.toNat_ofNat_of_lt (show 0x80 + k < 256 by omega)
  have hfirst : (UInt8.ofNat lead).toNat = lead := UInt8.toNat_ofNat_of_lt hlead
  simp only [Utf8.secondAllowed, isContinuation_ofNat hk, UInt8.le_iff_toNat_le, hbyte,
    ← UInt8.toNat_inj, hfirst, decide_eq_true_eq, true_and]
  refine ⟨fun h ↦ ?_, fun h ↦ ?_, fun h ↦ ?_, fun h ↦ ?_⟩
  · have hle := hthree h
    simp
    omega
  · have hlt := hsurrogate h
    simp
    omega
  · have hle := hfour h
    simp
    omega
  · have hlt := hlast h
    simp
    omega

theorem valid_encodeUtf8 (hn : n < 0x110000) (hsurrogate : ¬(0xD800 ≤ n ∧ n < 0xE000)) :
    Utf8.valid (encodeUtf8 n) = true := by
  have hbyte : ∀ k < 256, (UInt8.ofNat k).toNat = k := fun k hk ↦ UInt8.toNat_ofNat_of_lt hk
  apply Utf8.valid_sequence
  unfold encodeUtf8
  split_ifs with h1 h2 h3
  · apply Utf8.sequence_one
    rw [UInt8.lt_iff_toNat_lt, hbyte n (by omega)]
    exact h1
  · have hlead : (UInt8.ofNat (0xC0 + n / 64)).toNat = 0xC0 + n / 64 := hbyte _ (by omega)
    refine Utf8.sequence_two ?_ ?_ (isContinuation_ofNat (by omega))
    · rw [UInt8.lt_iff_toNat_lt, hlead]
      simp
      omega
    · simp only [UInt8.le_iff_toNat_le, hlead]
      simp
      omega
  · have hlead : (UInt8.ofNat (0xE0 + n / 4096)).toNat = 0xE0 + n / 4096 := hbyte _ (by omega)
    refine Utf8.sequence_three ?_ ?_ ?_ (secondAllowed_ofNat (by omega) (by omega) (by omega)
      (by omega) (by omega) (by omega)) (isContinuation_ofNat (by omega))
    · rw [UInt8.lt_iff_toNat_lt, hlead]
      simp
      omega
    · simp only [UInt8.le_iff_toNat_le, hlead]
      simp
      omega
    · simp only [UInt8.le_iff_toNat_le, hlead]
      simp
      omega
  · have hlead : (UInt8.ofNat (0xF0 + n / 262144)).toNat = 0xF0 + n / 262144 := hbyte _ (by omega)
    refine Utf8.sequence_four ?_ ?_ ?_ ?_ (secondAllowed_ofNat (by omega) (by omega) (by omega)
      (by omega) (by omega) (by omega)) (isContinuation_ofNat (by omega))
      (isContinuation_ofNat (by omega))
    · rw [UInt8.lt_iff_toNat_lt, hlead]
      simp
      omega
    · simp only [UInt8.le_iff_toNat_le, hlead]
      simp
      omega
    · simp only [UInt8.le_iff_toNat_le, hlead]
      simp
      omega
    · simp only [UInt8.le_iff_toNat_le, hlead]
      simp
      omega

theorem hexValue_lt {c : UInt8} (h : hexValue c = some n) : n < 16 := by
  unfold hexValue at h
  split_ifs at h with hdigit hlower hupper
  · cases h
    have hc := isDigit_iff.mp hdigit
    omega
  · cases h
    simp only [UInt8.le_iff_toNat_le] at hlower
    simp at hlower
    omega
  · cases h
    simp only [UInt8.le_iff_toNat_le] at hupper
    simp at hupper
    omega

theorem hexCode_lt {a b c d : UInt8} (h : hexCode a b c d = some n) : n < 0x10000 := by
  simp only [hexCode, Option.bind_eq_bind, Option.bind_eq_some_iff] at h
  obtain ⟨m₁, h₁, m₂, h₂, m₃, h₃, m₄, h₄, heq⟩ := h
  have hn := Option.some.inj heq
  have hlt₁ := hexValue_lt h₁
  have hlt₂ := hexValue_lt h₂
  have hlt₃ := hexValue_lt h₃
  have hlt₄ := hexValue_lt h₄
  omega

theorem valid_unicode (h : scanUnicode s = some (t, rest)) : Utf8.valid t = true := by
  rcases s with _ | ⟨a, _ | ⟨b, _ | ⟨c, _ | ⟨d, s⟩⟩⟩⟩
  · cases h
  · cases h
  · cases h
  · cases h
  · simp only [scanUnicode, Option.bind_eq_bind, Option.bind_eq_some_iff] at h
    obtain ⟨high, hhigh, h⟩ := h
    have hbound := hexCode_lt hhigh
    split_ifs at h with hsurrogate hlow
    · rcases s with _ | ⟨e, _ | ⟨f, _ | ⟨g, _ | ⟨h', _ | ⟨i, _ | ⟨j, s⟩⟩⟩⟩⟩⟩
      · cases h
      · cases h
      · cases h
      · cases h
      · cases h
      · cases h
      · simp only [Option.bind_eq_some_iff] at h
        obtain ⟨low, hlow, h⟩ := h
        split_ifs at h with hpair
        obtain ⟨rfl, rfl⟩ := Prod.mk.inj (Option.some.inj h)
        exact valid_encodeUtf8 (by omega) (by omega)
    · obtain ⟨rfl, rfl⟩ := Prod.mk.inj (Option.some.inj h)
      exact valid_encodeUtf8 (by omega) (by omega)

theorem valid_escape (h : scanEscape s = some (t, rest)) : Utf8.valid t = true := by
  rcases s with _ | ⟨c, s⟩
  · cases h
  · rw [scanEscape] at h
    split_ifs at h with hself
    · obtain ⟨rfl, rfl⟩ := Prod.mk.inj (Option.some.inj h)
      rcases hself with rfl | rfl | rfl <;> decide
    all_goals first
      | obtain ⟨rfl, rfl⟩ := Prod.mk.inj (Option.some.inj h)
        decide
      | exact valid_unicode h

theorem valid_char (h : scanChar s = some (t, rest)) : Utf8.valid t = true := by
  rcases s with _ | ⟨c, s⟩
  · cases h
  · rw [scanChar] at h
    split_ifs at h with hback hcontrol
    · exact valid_escape h
    · dsimp only at h
      split_ifs at h with hzero
      obtain ⟨rfl, rfl⟩ := Prod.mk.inj (Option.some.inj h)
      obtain ⟨l, more, hsplit, hl, hlength⟩ := Utf8.exists_sequence hzero
      rw [hlength, hsplit, List.take_left]
      exact Utf8.valid_sequence hl

theorem valid_string (h : scanString n s = some (t, rest)) : Utf8.valid t = true := by
  induction n generalizing s t with
  | zero => cases h
  | succ n ih =>
    obtain ⟨-, rfl⟩ | ⟨first, middle, others, -, hfirst, hothers, rfl⟩ := scanString_cases h
    · rfl
    · exact Utf8.valid_append (valid_char hfirst) (ih hothers)

theorem finite_bits {sign E f : ℕ} (hsign : sign = 0 ∨ sign = 2 ^ 63) (hE : E < 2047)
    (hf : f < 2 ^ 52) : (⟨UInt64.ofNat (sign + E * 2 ^ 52 + f)⟩ : Double).Finite := by
  have hbits : (UInt64.ofNat (sign + E * 2 ^ 52 + f)).toNat = sign + E * 2 ^ 52 + f := by
    rw [UInt64.toNat_ofNat', Nat.mod_eq_of_lt]
    omega
  rw [Double.Finite, Double.biasedExponent, hbits]
  omega

theorem scaled_le {m : ℕ} (hn : 0 < n) (hm : 0 < m) {e : ℤ}
    (he : Double.exponentOf 2 n m - 52 ≤ e) : Double.scaled 2 n m e ≤ 2 ^ 53 := by
  have hlt := Int.lt_zpow_succ_log_self (b := 2) (by decide) ((n : ℚ) / m)
  rw [← Double.exponentOf_eq hn hm] at hlt
  refine (Double.scaled_nearest Nat.two_pos n hm e).ge_of_ge ?_
  rw [div_le_iff₀ (by positivity)]
  refine hlt.le.trans ?_
  have hsplit : ((2 ^ 53 : ℕ) : ℚ) * (2 : ℕ) ^ e = 2 ^ (53 + e) := by
    rw [zpow_add₀ (by norm_num)]
    norm_num
  rw [hsplit]
  exact zpow_le_zpow_right₀ (by norm_num) (by omega)

theorem finite_nearest {negative : Bool} {m : ℕ} {d : Double} (hm : 0 < m)
    (h : Double.nearest negative n m = some d) : d.Finite := by
  have hsign : (if negative then 2 ^ 63 else 0) = 0 ∨ (if negative then 2 ^ 63 else 0) = 2 ^ 63 := by
    cases negative
    · exact .inl rfl
    · exact .inr rfl
  unfold Double.nearest at h
  dsimp only at h
  generalize (if negative then 2 ^ 63 else 0) = sign at h hsign
  rcases Nat.eq_zero_or_pos n with rfl | hn
  · rw [if_pos rfl] at h
    cases h
    exact finite_bits (E := 0) (f := 0) hsign (by norm_num) (by norm_num)
  rw [if_neg hn.ne'] at h
  have hscaled := scaled_le hn hm (le_max_left (Double.exponentOf 2 n m - 52) (-1074))
  have hleast := le_max_right (Double.exponentOf 2 n m - 52) (-1074)
  generalize max (Double.exponentOf 2 n m - 52) (-1074) = e at h hscaled hleast
  generalize Double.scaled 2 n m e = M at h hscaled
  obtain ⟨e', M', hpair, hM, hleast'⟩ : ∃ e' M', (if M = 2 ^ 53 then (2 ^ 52, e + 1) else (M, e)) =
      (M', e') ∧ M' < 2 ^ 53 ∧ -1074 ≤ e' := by
    split_ifs with hcarry
    · exact ⟨_, _, rfl, by norm_num, by omega⟩
    · exact ⟨_, _, rfl, by omega, hleast⟩
  rw [hpair] at h
  dsimp only at h
  split_ifs at h with hlarge hsmall
  · have hbits := finite_bits (E := 0) hsign (by norm_num) hsmall
    rw [Nat.zero_mul, Nat.add_zero, Option.some.inj h] at hbits
    exact hbits
  · have hbits := finite_bits (E := (e' + 1075).toNat) (f := M' - 2 ^ 52) hsign (by omega) (by omega)
    rw [Option.some.inj h] at hbits
    exact hbits

theorem legible_integerVal {negative : Bool} {v : YyjsonVal} (h : integerVal negative n = some v) :
    (fromYyjson v).legible = true := by
  unfold integerVal at h
  split_ifs at h
  · cases h
    rfl
  · obtain ⟨d, hd, rfl⟩ := Option.map_eq_some_iff.mp h
    exact decide_eq_true (finite_nearest one_pos hd)
  · cases h
    rfl
  · obtain ⟨d, hd, rfl⟩ := Option.map_eq_some_iff.mp h
    exact decide_eq_true (finite_nearest one_pos hd)

theorem legible_realVal {negative : Bool} {whole fraction : Bytes} {x : ℤ} {v : YyjsonVal}
    (h : realVal negative whole fraction x = some v) : (fromYyjson v).legible = true := by
  unfold realVal at h
  dsimp only at h
  obtain ⟨d, hd, rfl⟩ := Option.map_eq_some_iff.mp h
  refine decide_eq_true ?_
  split_ifs at hd
  · exact finite_nearest one_pos hd
  · exact finite_nearest (by positivity) hd

theorem legible_number {s : Bytes} {v : YyjsonVal} (h : parseNumber s = some (v, rest)) :
    (fromYyjson v).legible = true := by
  unfold parseNumber at h
  generalize (decide (s.head? = some minus)) = negative at h
  dsimp only at h
  generalize (if negative = true then s.tail else s) = s at h
  split_ifs at h with hwhole
  simp only [Option.bind_eq_bind, Option.bind_eq_some_iff] at h
  obtain ⟨p, -, q, -, h⟩ := h
  split_ifs at h
  · obtain ⟨w, hw, heq⟩ := Option.bind_eq_some_iff.mp h
    obtain ⟨rfl, -⟩ := Prod.mk.inj (Option.some.inj heq)
    exact legible_integerVal hw
  · obtain ⟨w, hw, heq⟩ := Option.bind_eq_some_iff.mp h
    obtain ⟨rfl, -⟩ := Prod.mk.inj (Option.some.inj heq)
    exact legible_realVal hw

theorem legible_parse (n : ℕ) :
    (∀ {s v rest}, parseValue n s = some (v, rest) → (fromYyjson v).legible = true) ∧
    (∀ {s vs rest}, parseItems n s = some (vs, rest) →
      Value.legibleItems (fromItems vs) = true) ∧
    (∀ {s ms rest}, parseMembers n s = some (ms, rest) →
      Value.legibleMembers (fromMembers ms) = true) := by
  induction n with
  | zero =>
    refine ⟨fun h ↦ ?_, fun h ↦ ?_, fun h ↦ ?_⟩
    · cases h
    · cases h
    · cases h
  | succ n ih =>
    obtain ⟨ihvalue, ihitems, ihmembers⟩ := ih
    refine ⟨?_, ?_, ?_⟩
    · intro s v rest h
      cases parseValue_cases h with
      | str h => exact valid_string h
      | noItems h => rfl
      | arr h => exact ihitems h
      | noMembers h => rfl
      | obj h => exact ihmembers h
      | null => rfl
      | true => rfl
      | false => rfl
      | number h => exact legible_number h
    · intro s vs rest h
      obtain ⟨v, middle, hv, ⟨-, -, rfl⟩ | ⟨-, others, hothers, rfl⟩⟩ := parseItems_cases h
      · rw [fromItems, Value.legibleItems, ihvalue hv]
        rfl
      · rw [fromItems, Value.legibleItems, ihvalue hv, ihitems hothers]
        rfl
    · intro s ms rest h
      obtain ⟨key, behindKey, v, behindValue, -, hkey, -, hv, hends⟩ := parseMembers_cases h
      obtain ⟨-, -, rfl⟩ | ⟨-, others, hothers, rfl⟩ := hends
      · rw [fromMembers, Value.legibleMembers, ihvalue hv, valid_string hkey]
        rfl
      · rw [fromMembers, Value.legibleMembers, ihvalue hv, valid_string hkey, ihmembers hothers]
        rfl

end Yyjson

namespace Value

theorem legible_settledNumber {d : Double} (h : d.Finite) : (settledNumber d).legible = true := by
  unfold settledNumber
  cases d.integer? with
  | none => exact decide_eq_true h
  | some k => rfl

theorem settled_settledNumber (d : Double) : (settledNumber d).settled = settledNumber d := by
  cases hinteger : d.integer? with
  | none => simp only [settledNumber, hinteger, settled]
  | some k => simp only [settledNumber, hinteger, settled]

theorem settled_settled (v : Value) : v.settled.settled = v.settled := by
  induction v using nested with
  | null => rfl
  | boolean b => rfl
  | integer i => rfl
  | number d => exact settled_settledNumber d
  | string s => rfl
  | array items ih =>
    rw [settled, settled]
    congr 1
    induction items with
    | nil => rfl
    | cons v items ihitems =>
      rw [settledItems, settledItems, ih v List.mem_cons_self,
        ihitems fun w hw ↦ ih w (.tail v hw)]
  | object members ih =>
    rw [settled, settled]
    congr 1
    induction members with
    | nil => rfl
    | cons m members ihmembers =>
      obtain ⟨k, v⟩ := m
      rw [settledMembers, settledMembers, ih (k, v) List.mem_cons_self,
        ihmembers fun n hn ↦ ih n (.tail (k, v) hn)]

theorem legible_settled (v : Value) (h : v.legible = true) : v.settled.legible = true := by
  induction v using nested with
  | null => rfl
  | boolean b => rfl
  | integer i => rfl
  | number d => exact legible_settledNumber (of_decide_eq_true h)
  | string s => exact h
  | array items ih =>
    rw [settled, legible] at *
    induction items with
    | nil => rfl
    | cons v items ihitems =>
      rw [legibleItems, Bool.and_eq_true] at h
      rw [settledItems, legibleItems, ih v List.mem_cons_self h.1,
        ihitems (fun w hw ↦ ih w (.tail v hw)) h.2]
      rfl
  | object members ih =>
    rw [settled, legible] at *
    induction members with
    | nil => rfl
    | cons m members ihmembers =>
      obtain ⟨k, v⟩ := m
      rw [legibleMembers, Bool.and_eq_true, Bool.and_eq_true] at h
      rw [settledMembers, legibleMembers, ih (k, v) List.mem_cons_self h.1.2, h.1.1,
        ihmembers (fun n hn ↦ ih n (.tail (k, v) hn)) h.2]
      rfl

end Value

theorem legible_of_jsonParse {text : Bytes} {v : Value} (h : jsonParse text = .ok v) :
    v.legible = true := by
  obtain ⟨w, rest, hparse, -, rfl⟩ := jsonParse_cases h
  exact (Yyjson.legible_parse _).1 hparse

/-- What was read can be written and read again, and from then on it stays as it is. -/
theorem jsonParse_settles {text : Bytes} {v : Value} (h : jsonParse text = .ok v) (pretty : Bool) :
    jsonParse (jsonWrite v pretty) = .ok v.settled ∧
      ∀ again, jsonParse (jsonWrite v.settled again) = .ok v.settled := by
  have hlegible := legible_of_jsonParse h
  refine ⟨?_, fun again ↦ ?_⟩
  · exact jsonParse_of_legible hlegible pretty
  · rw [jsonParse_of_legible (v.legible_settled hlegible), v.settled_settled]

/-- A number that is no integer, and one that is. -/
theorem jsonParse_settles_number :
    jsonParse (jsonWrite (.array [.number ⟨0x3FF8000000000000⟩, .integer 2]) true) =
        .ok (.array [.number ⟨0x3FF8000000000000⟩, .integer 2]) ∧
      ∀ again, jsonParse (jsonWrite (.array [.number ⟨0x3FF8000000000000⟩, .integer 2]) again) =
        .ok (.array [.number ⟨0x3FF8000000000000⟩, .integer 2]) :=
  jsonParse_settles (jsonParse_of_legible (v := .array [.number ⟨0x3FF8000000000000⟩,
    .number ⟨0x4000000000000000⟩]) rfl false) true

end SquaredPg
