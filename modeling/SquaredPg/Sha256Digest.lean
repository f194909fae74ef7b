import SquaredPg.IteratedHash
import SquaredPg.Sha256
import Mathlib.Data.Nat.Digits.Defs

namespace SquaredPg

open IteratedHash

namespace Sha256

namespace Standard

def rotr (n : ℕ) (x : UInt32) : UInt32 := ⟨x.toBitVec.rotateRight n⟩

def sigma0 (x : UInt32) : UInt32 := rotr 7 x ^^^ rotr 18 x ^^^ (x >>> 3)

def sigma1 (x : UInt32) : UInt32 := rotr 17 x ^^^ rotr 19 x ^^^ (x >>> 10)

def bigSigma0 (x : UInt32) : UInt32 := rotr 2 x ^^^ rotr 13 x ^^^ rotr 22 x

def bigSigma1 (x : UInt32) : UInt32 := rotr 6 x ^^^ rotr 11 x ^^^ rotr 25 x

def bigEndianValue (bytes : Bytes) : ℕ := Nat.ofDigits 256 (bytes.reverse.map UInt8.toNat)

def messageWord (block : Bytes) (t : ℕ) : UInt32 :=
  UInt32.ofNat (bigEndianValue ((block.drop (4 * t)).take 4))

def expanded (block : Bytes) (t : ℕ) : UInt32 :=
  if t < 16 then messageWord block t
  else sigma1 (expanded block (t - 2)) + expanded block (t - 7) +
    sigma0 (expanded block (t - 15)) + expanded block (t - 16)

def step (block : Bytes) (s : State) (t : ℕ) : State :=
  let t1 := s.h + bigSigma1 s.e + ((s.e &&& s.f) ^^^ (~~~s.e &&& s.g)) + k.getD t 0 +
    expanded block t
  let t2 := bigSigma0 s.a + ((s.a &&& s.b) ^^^ (s.a &&& s.c) ^^^ (s.b &&& s.c))
  ⟨t1 + t2, s.a, s.b, s.c, s.d + t1, s.e, s.f, s.g⟩

def compress (s : State) (block : Bytes) : State :=
  let r := (List.range 64).foldl (step block) s
  ⟨s.a + r.a, s.b + r.b, s.c + r.c, s.d + r.d, s.e + r.e, s.f + r.f, s.g + r.g, s.h + r.h⟩

/-- The `k` bytes that spell a number, the most significant first. -/
def spelled (k n : ℕ) : Bytes := (List.range k).map fun i ↦ UInt8.ofNat (n / 256 ^ (k - 1 - i))

/-- A single one bit, the fewest zeros that fill up the last block, and the length in bits. -/
def pad (message : Bytes) : Bytes :=
  message ++ 0x80 :: List.replicate ((119 - message.length % 64) % 64) 0 ++
    spelled 8 (8 * message.length)

def digest (message : Bytes) : Bytes :=
  let s := chain compress 64 init.state (pad message)
  [s.a, s.b, s.c, s.d, s.e, s.f, s.g, s.h].flatMap fun w ↦ spelled 4 w.toNat

end Standard

theorem rotright_eq (x : UInt32) {n : UInt32} (h : 0 < n.toNat ∧ n.toNat < 32) :
    rotright x n = Standard.rotr n.toNat x := by
  have hright : (n.toBitVec % 32).toNat = n.toNat := Nat.mod_eq_of_lt h.2
  have hleft : ((32 - n).toBitVec % 32).toNat = 32 - n.toNat := by
    have hsub : (32 - n).toNat = 32 - n.toNat :=
      UInt32.toNat_sub_of_le _ _ (UInt32.le_iff_toNat_le.mpr h.2.le)
    rw [BitVec.toNat_umod, UInt32.toNat_toBitVec, hsub]
    exact Nat.mod_eq_of_lt (Nat.sub_lt (by decide) h.1)
  apply UInt32.toBitVec_inj.mp
  rw [rotright, Standard.rotr, UInt32.toBitVec_or, UInt32.toBitVec_shiftRight,
    UInt32.toBitVec_shiftLeft, BitVec.ushiftRight_eq', BitVec.shiftLeft_eq', hright, hleft,
    BitVec.rotateRight_def, Nat.mod_eq_of_lt h.2]

theorem sig0_eq (x : UInt32) : sig0 x = Standard.sigma0 x := by
  rw [sig0, Standard.sigma0, rotright_eq x ⟨by decide, by decide⟩,
    rotright_eq x ⟨by decide, by decide⟩]
  rfl

theorem sig1_eq (x : UInt32) : sig1 x = Standard.sigma1 x := by
  rw [sig1, Standard.sigma1, rotright_eq x ⟨by decide, by decide⟩,
    rotright_eq x ⟨by decide, by decide⟩]
  rfl

theorem ep0_eq (x : UInt32) : ep0 x = Standard.bigSigma0 x := by
  rw [ep0, Standard.bigSigma0, rotright_eq x ⟨by decide, by decide⟩,
    rotright_eq x ⟨by decide, by decide⟩, rotright_eq x ⟨by decide, by decide⟩]
  rfl

theorem ep1_eq (x : UInt32) : ep1 x = Standard.bigSigma1 x := by
  rw [ep1, Standard.bigSigma1, rotright_eq x ⟨by decide, by decide⟩,
    rotright_eq x ⟨by decide, by decide⟩, rotright_eq x ⟨by decide, by decide⟩]
  rfl

theorem toNat_shift_or {w : UInt32} {b : UInt8} (h : w.toNat < 2 ^ 24) :
    ((w <<< 8) ||| b.toUInt32).toNat = w.toNat * 256 + b.toNat := by
  have hshift : (w <<< 8).toNat = w.toNat <<< 8 := by
    rw [UInt32.toNat_shiftLeft, Nat.mod_eq_of_lt]
    · rfl
    · rw [Nat.shiftLeft_eq]
      change w.toNat * 2 ^ 8 < 2 ^ 32
      omega
  rw [UInt32.toNat_or, hshift, UInt8.toNat_toUInt32, ← Nat.shiftLeft_add_eq_or_of_lt b.toNat_lt,
    Nat.shiftLeft_eq]

theorem bigEndianValue_concat (bytes : Bytes) (b : UInt8) :
    Standard.bigEndianValue (bytes ++ [b]) = Standard.bigEndianValue bytes * 256 + b.toNat := by
  simp only [Standard.bigEndianValue, List.reverse_append, List.reverse_singleton,
    List.singleton_append, List.map_cons, Nat.ofDigits_cons]
  omega

theorem bigEndianValue_lt (bytes : Bytes) :
    Standard.bigEndianValue bytes < 256 ^ bytes.length := by
  induction bytes using List.reverseRecOn with
  | nil => exact Nat.one_pos
  | append_singleton bytes b ih =>
    have hb := b.toNat_lt
    rw [bigEndianValue_concat, List.length_append, List.length_singleton, Nat.pow_succ]
    omega

theorem toNat_word {data : Bytes} (h : data.length ≤ 4) :
    (word data).toNat = Standard.bigEndianValue data := by
  induction data using List.reverseRecOn with
  | nil => rfl
  | append_singleton data b ih =>
    rw [List.length_append, List.length_singleton] at h
    have hvalue := ih (by omega)
    have hlt : (word data).toNat < 2 ^ 24 := by
      rw [hvalue]
      calc Standard.bigEndianValue data < 256 ^ data.length := bigEndianValue_lt data
        _ ≤ 256 ^ 3 := Nat.pow_le_pow_right (by decide) (by omega)
        _ = 2 ^ 24 := by decide
    have hfold : word (data ++ [b]) = (word data <<< 8) ||| b.toUInt32 := by
      rw [word, List.foldl_concat, word]
    rw [hfold, toNat_shift_or hlt, hvalue, bigEndianValue_concat]

theorem word_eq (block : Bytes) (t : ℕ) :
    word ((block.drop (4 * t)).take 4) = Standard.messageWord block t := by
  rw [Standard.messageWord, ← toNat_word (List.length_take_le _ _), UInt32.ofNat_toNat]

theorem words_eq (n : ℕ) (block : Bytes) :
    words n block = (List.range n).map (Standard.messageWord block) := by
  have hshift : ∀ (n start : ℕ), words n (block.drop (4 * start)) =
      (List.range' start n).map (Standard.messageWord block) := by
    intro n
    induction n with
    | zero => intro start; rfl
    | succ n ih =>
      intro start
      rw [words, word_eq, List.drop_drop, List.range'_succ, List.map_cons, ← ih (start + 1)]
      rfl
  rw [List.range_eq_range', ← hshift n 0]
  rfl

theorem getD_newest (f : ℕ → UInt32) {t i : ℕ} (h : i < t) :
    ((List.range t).reverse.map f).getD i 0 = f (t - 1 - i) := by
  simp [List.getD_eq_getElem?_getD, h]

theorem schedule_eq (block : Bytes) (n : ℕ) {t : ℕ} (h : 16 ≤ t) :
    schedule n ((List.range t).reverse.map (Standard.expanded block)) =
      (List.range (t + n)).reverse.map (Standard.expanded block) := by
  induction n generalizing t with
  | zero => rfl
  | succ n ih =>
    have hnext : Standard.expanded block t =
        sig1 (Standard.expanded block (t - 2)) + Standard.expanded block (t - 7) +
          sig0 (Standard.expanded block (t - 15)) + Standard.expanded block (t - 16) := by
      rw [Standard.expanded, if_neg (by omega), sig1_eq, sig0_eq]
    rw [schedule, getD_newest _ (by omega), getD_newest _ (by omega), getD_newest _ (by omega),
      getD_newest _ (by omega), Nat.sub_sub, Nat.sub_sub, Nat.sub_sub, Nat.sub_sub]
    norm_num only
    have hgrown : Standard.expanded block t :: (List.range t).reverse.map (Standard.expanded block) =
        (List.range (t + 1)).reverse.map (Standard.expanded block) := by
      rw [List.range_succ, List.reverse_append, List.map_append]
      rfl
    rw [← hnext, hgrown, ih (by omega), Nat.add_right_comm, Nat.add_assoc]

theorem k_eq : k = (List.range 64).map fun t ↦ k.getD t 0 := by decide

theorem round_eq (block : Bytes) (s : State) (t : ℕ) :
    round s (k.getD t 0, Standard.expanded block t) = Standard.step block s t := by
  rw [round, ep0_eq, ep1_eq]
  rfl

theorem transform_eq (s : State) (block : Bytes) : transform s block = Standard.compress s block := by
  have hwords : (words 16 block).reverse =
      (List.range 16).reverse.map (Standard.expanded block) := by
    rw [words_eq, List.map_reverse]
    congr 1
    apply List.map_congr_left
    intro t ht
    rw [Standard.expanded, if_pos (List.mem_range.mp ht)]
  have hrounds : (k.zip (schedule 48 (words 16 block).reverse).reverse).foldl round s =
      (List.range 64).foldl (Standard.step block) s := by
    rw [hwords, schedule_eq block 48 le_rfl, List.map_reverse, List.reverse_reverse]
    conv_lhs => rw [k_eq]
    rw [List.zip_map', List.foldl_map]
    exact List.foldl_ext _ _ _ fun s t _ ↦ round_eq block s t
  rw [transform, hrounds]
  rfl

def Context.absorber (ctx : Context) : Absorber UInt8 State := ⟨ctx.state, ctx.data.reverse⟩

/-- What the context says of the message it has taken. -/
structure Context.Took (ctx : Context) (message : Bytes) : Prop where
  absorber : ctx.absorber.Took transform 64 init.state message
  datalen : ctx.datalen = ctx.data.length
  bitlen : ctx.bitlen = UInt64.ofNat (8 * (message.length - ctx.data.length))

theorem took_init : init.Took [] := ⟨Absorber.took_nil (by decide), rfl, rfl⟩

theorem Context.Took.length_le {ctx : Context} {message : Bytes} (h : ctx.Took message) :
    ctx.data.length ≤ message.length := by
  obtain ⟨-, whole, hmessage, -⟩ := h.absorber
  rw [hmessage, List.length_append]
  simp [Context.absorber]

theorem absorber_updateByte {ctx : Context} (h : ctx.datalen = ctx.data.length) (b : UInt8) :
    (updateByte ctx b).absorber = ctx.absorber.push transform 64 b := by
  simp only [updateByte, Absorber.push, Context.absorber, List.length_reverse, h]
  split_ifs
  · simp
  · simp

theorem Context.Took.updateByte {ctx : Context} {message : Bytes} (h : ctx.Took message)
    (b : UInt8) : (updateByte ctx b).Took (message ++ [b]) := by
  have hle := h.length_le
  refine ⟨?_, ?_, ?_⟩
  · rw [absorber_updateByte h.datalen]
    exact h.absorber.push b
  · unfold Sha256.updateByte
    split_ifs
    · rfl
    · simp [h.datalen]
  · unfold Sha256.updateByte
    rw [h.datalen, List.length_append, List.length_singleton]
    split_ifs with hfull
    · have hsum : 8 * (message.length + 1 - 0) = 8 * (message.length - ctx.data.length) + 512 := by
        omega
      rw [List.length_nil, hsum, UInt64.ofNat_add, ← h.bitlen]
      rfl
    · rw [List.length_cons, Nat.add_sub_add_right]
      exact h.bitlen

theorem took_update {ctx : Context} {message : Bytes} (h : ctx.Took message) (bytes : Bytes) :
    (update ctx bytes).Took (message ++ bytes) := by
  induction bytes generalizing ctx message with
  | nil => rwa [List.append_nil]
  | cons b bytes ih =>
    rw [List.append_cons]
    exact ih (h.updateByte b)

theorem ofNat_congr {a b : ℕ} (h : a % 256 = b % 256) : UInt8.ofNat a = UInt8.ofNat b := by
  apply UInt8.toNat_inj.mp
  rwa [UInt8.toNat_ofNat', UInt8.toNat_ofNat']

theorem bigEndian_eq (w : UInt32) : bigEndian w = Standard.spelled 4 w.toNat := by
  have hbyte : ∀ i, i < 4 →
      (w >>> UInt32.ofNat (8 * i)).toUInt8 = UInt8.ofNat (w.toNat / 256 ^ i) := by
    intro i hi
    have hshift : (UInt32.ofNat (8 * i)).toNat % 32 = 8 * i := by
      rw [UInt32.toNat_ofNat']
      omega
    apply UInt8.toNat_inj.mp
    rw [UInt32.toNat_toUInt8, UInt32.toNat_shiftRight, hshift, Nat.shiftRight_eq_div_pow,
      Nat.pow_mul, UInt8.toNat_ofNat']
  have hlast : w.toUInt8 = UInt8.ofNat (w.toNat / 256 ^ 0) := hbyte 0 (by decide) ▸ by simp
  exact congrArg₂ List.cons (hbyte 3 (by decide)) (congrArg₂ List.cons (hbyte 2 (by decide))
    (congrArg₂ List.cons (hbyte 1 (by decide)) (congrArg₂ List.cons hlast rfl)))

theorem bigEndian64_eq (n : ℕ) : bigEndian64 (UInt64.ofNat n) = Standard.spelled 8 n := by
  have hhigh : (UInt64.ofNat n >>> 32).toUInt32.toNat = n / 2 ^ 32 % 2 ^ 32 := by
    rw [UInt64.toNat_toUInt32, UInt64.toNat_shiftRight, UInt64.toNat_ofNat']
    change (n % 2 ^ 64) >>> 32 % 2 ^ 32 = _
    rw [Nat.shiftRight_eq_div_pow]
    omega
  have hlow : (UInt64.ofNat n).toUInt32.toNat = n % 2 ^ 32 := by
    rw [UInt64.toNat_toUInt32, UInt64.toNat_ofNat']
    omega
  rw [bigEndian64, bigEndian_eq, bigEndian_eq, hhigh, hlow]
  simp only [Standard.spelled, List.range_succ, List.range_zero, List.nil_append,
    List.cons_append, List.map_cons, List.map_nil]
  norm_num only
  simp only [List.cons.injEq, and_true]
  refine ⟨?_, ?_, ?_, ?_, ?_, ?_, ?_, ?_⟩
  all_goals
    apply ofNat_congr
    omega

theorem finalState_eq {ctx : Context} {message : Bytes} (h : ctx.Took message) :
    finalState ctx = chain transform 64 init.state (Standard.pad message) := by
  obtain ⟨hlt, whole, hmessage, hdvd, hstate⟩ := h.absorber
  simp only [Context.absorber, List.length_reverse] at hlt hmessage hstate
  obtain ⟨count, hcount⟩ := hdvd
  have hlength : message.length = whole.length + ctx.data.length := by
    rw [hmessage, List.length_append, List.length_reverse]
  have hbits : ctx.bitlen + UInt64.ofNat ctx.datalen * 8 = UInt64.ofNat (8 * message.length) := by
    have hsum : 8 * message.length = 8 * (message.length - ctx.data.length) + ctx.data.length * 8 := by
      omega
    rw [hsum, UInt64.ofNat_add, ← h.bitlen, UInt64.ofNat_mul, h.datalen]
    rfl
  have hspelled : (Standard.spelled 8 (8 * message.length)).length = 8 := by
    simp [Standard.spelled]
  have hrest : ctx.data.length = message.length % 64 := by omega
  have hpad : Standard.pad message = whole ++ (ctx.data.reverse ++ [0x80] ++
      List.replicate ((119 - ctx.data.length) % 64) 0 ++
        Standard.spelled 8 (8 * message.length)) := by
    rw [Standard.pad, ← hrest]
    nth_rewrite 1 [hmessage]
    simp
  rw [hpad, chain_append ⟨count, hcount⟩, ← hstate, finalState, hbits, bigEndian64_eq, h.datalen]
  split_ifs with hshort
  · have hzeros : (119 - ctx.data.length) % 64 = 55 - ctx.data.length := by omega
    rw [hzeros, chain_block (by decide)]
    simp only [List.length_append, List.length_reverse, List.length_singleton,
      List.length_replicate, hspelled]
    omega
  · have hzeros : (119 - ctx.data.length) % 64 = (63 - ctx.data.length) + 56 := by omega
    have hfirst : (ctx.data.reverse ++ [0x80] ++
        List.replicate (63 - ctx.data.length) 0).length = 64 := by
      simp only [List.length_append, List.length_reverse, List.length_singleton,
        List.length_replicate]
      omega
    rw [hzeros, List.replicate_add, ← List.append_assoc, List.append_assoc _ (List.replicate 56 0),
      chain_append ⟨1, hfirst⟩, chain_block (by decide) hfirst, chain_block (by decide)]
    simp only [List.length_append, List.length_replicate, hspelled]

theorem final_eq {ctx : Context} {message : Bytes} (h : ctx.Took message) :
    final ctx = Standard.digest message := by
  have hcompress : transform = Standard.compress := funext fun s ↦ funext (transform_eq s)
  have hstate : finalState ctx = chain Standard.compress 64 init.state (Standard.pad message) := by
    rw [finalState_eq h, hcompress]
  simp only [final, hstate, bigEndian_eq, Standard.digest, List.flatMap_cons, List.flatMap_nil,
    List.append_nil, List.append_assoc]

/-- The loop of `sha256_update`: its counter is a word of 32 bits, whatever the length is. -/
inductive UpdateLoop (data : Bytes) : UInt32 → Context → Context → Prop
  | leave {i : UInt32} {ctx : Context} (h : data.length ≤ i.toNat) : UpdateLoop data i ctx ctx
  | iterate {i : UInt32} {ctx ctx' : Context} (h : i.toNat < data.length)
      (rest : UpdateLoop data (i + 1) (updateByte ctx data[i.toNat]) ctx') :
      UpdateLoop data i ctx ctx'

/-- `support::sha256` returns a digest for a text. -/
def Digests (text digest : Bytes) : Prop := ∃ ctx, UpdateLoop text 0 init ctx ∧ digest = final ctx

variable {data text digest a b : Bytes} {i : UInt32} {ctx ctx' : Context}

theorem UpdateLoop.ends (h : UpdateLoop data i ctx ctx') : data.length < 2 ^ 32 := by
  induction h with
  | @leave i _ hle => exact lt_of_le_of_lt hle i.toNat_lt
  | iterate _ _ ih => exact ih

theorem UpdateLoop.eq_update (h : UpdateLoop data i ctx ctx') :
    ctx' = update ctx (data.drop i.toNat) := by
  have hshort := h.ends
  induction h with
  | leave hle => rw [List.drop_of_length_le hle, update, List.foldl_nil]
  | @iterate i ctx ctx' hlt _ ih =>
    have hnext : (i + 1).toNat = i.toNat + 1 := by
      rw [UInt32.toNat_add]
      exact Nat.mod_eq_of_lt (by change i.toNat + 1 < 2 ^ 32; omega)
    rw [ih, hnext, List.drop_eq_getElem_cons hlt, update, update, List.foldl_cons]

theorem updateLoop_of_short (h : data.length < 2 ^ 32) (i : UInt32) (ctx : Context) :
    ∃ ctx', UpdateLoop data i ctx ctx' := by
  by_cases hlt : i.toNat < data.length
  · obtain ⟨ctx', hrest⟩ := updateLoop_of_short h (i + 1) (updateByte ctx data[i.toNat])
    exact ⟨ctx', .iterate hlt hrest⟩
  · exact ⟨ctx, .leave (by omega)⟩
termination_by data.length - i.toNat
decreasing_by
  have hnext : (i + 1).toNat = i.toNat + 1 := by
    rw [UInt32.toNat_add]
    exact Nat.mod_eq_of_lt (by change i.toNat + 1 < 2 ^ 32; omega)
  omega

theorem sha256_eq (text : Bytes) : (sha256 text).val = Standard.digest text :=
  final_eq (took_update took_init text)

theorem Digests.standard {text digest : Bytes} (h : Digests text digest) :
    text.length < 2 ^ 32 ∧ digest = Standard.digest text := by
  obtain ⟨ctx, hloop, rfl⟩ := h
  have hctx := hloop.eq_update
  refine ⟨hloop.ends, ?_⟩
  rw [hctx]
  exact sha256_eq text

/-- The digest of the standard is returned for a text that is shorter than 4 GiB, and nothing for
any other. -/
theorem digests_iff (text digest : Bytes) :
    Digests text digest ↔ text.length < 2 ^ 32 ∧ digest = Standard.digest text := by
  constructor
  · exact Digests.standard
  · rintro ⟨hshort, rfl⟩
    obtain ⟨ctx, hloop⟩ := updateLoop_of_short hshort 0 init
    refine ⟨ctx, hloop, ?_⟩
    rw [hloop.eq_update]
    exact (sha256_eq text).symm

theorem spelled_succ (k n : ℕ) :
    Standard.spelled (k + 1) n = Standard.spelled k (n / 256) ++ [UInt8.ofNat n] := by
  have hfront : ∀ i ∈ List.range k, UInt8.ofNat (n / 256 ^ (k + 1 - 1 - i)) =
      UInt8.ofNat (n / 256 / 256 ^ (k - 1 - i)) := by
    intro i hi
    have hlt := List.mem_range.mp hi
    have hexponent : k + 1 - 1 - i = (k - 1 - i) + 1 := by omega
    rw [Nat.div_div_eq_div_mul, hexponent, Nat.pow_succ, Nat.mul_comm]
  rw [Standard.spelled, Standard.spelled, List.range_succ, List.map_append,
    List.map_congr_left hfront]
  simp

theorem bigEndianValue_spelled (k n : ℕ) :
    Standard.bigEndianValue (Standard.spelled k n) = n % 256 ^ k := by
  induction k generalizing n with
  | zero => simp [Standard.spelled, Standard.bigEndianValue, Nat.mod_one]
  | succ k ih =>
    have hsplit : n % 256 ^ (k + 1) = n % 256 + 256 * (n / 256 % 256 ^ k) := by
      rw [Nat.pow_succ', Nat.mod_mul]
    rw [spelled_succ, bigEndianValue_concat, ih, UInt8.toNat_ofNat', hsplit]
    omega

theorem spelled_inj {k n m : ℕ} (hn : n < 256 ^ k) (hm : m < 256 ^ k)
    (h : Standard.spelled k n = Standard.spelled k m) : n = m := by
  have hvalue := congrArg Standard.bigEndianValue h
  rwa [bigEndianValue_spelled, bigEndianValue_spelled, Nat.mod_eq_of_lt hn,
    Nat.mod_eq_of_lt hm] at hvalue

theorem length_spelled (k n : ℕ) : (Standard.spelled k n).length = k := by simp [Standard.spelled]

theorem length_pad (message : Bytes) : (Standard.pad message).length =
    message.length + 1 + (119 - message.length % 64) % 64 + 8 := by
  simp only [Standard.pad, List.length_append, List.length_cons, List.length_replicate,
    length_spelled]
  omega

theorem dvd_length_pad (message : Bytes) : 64 ∣ (Standard.pad message).length := by
  rw [length_pad]
  omega

theorem pad_suffix_free (ha : a.length < 2 ^ 32) (hb : b.length < 2 ^ 32)
    (h : Standard.pad a <:+ Standard.pad b) : a = b := by
  obtain ⟨front, hfront⟩ := h
  have hspelled : Standard.spelled 8 (8 * a.length) = Standard.spelled 8 (8 * b.length) := by
    rw [Standard.pad, Standard.pad, ← List.append_assoc] at hfront
    exact (List.append_inj' hfront (by rw [length_spelled, length_spelled])).2
  have hlength : a.length = b.length := by
    have h8 := spelled_inj (by omega) (by omega) hspelled
    omega
  have hpad : front.length = 0 := by
    have hsum := congrArg List.length hfront
    rw [List.length_append, length_pad, length_pad, hlength] at hsum
    omega
  rw [List.length_eq_zero_iff.mp hpad, List.nil_append, Standard.pad, Standard.pad,
    List.append_assoc, List.append_assoc] at hfront
  exact (List.append_inj hfront hlength).1

theorem state_ext {s t : State}
    (h : [s.a, s.b, s.c, s.d, s.e, s.f, s.g, s.h].flatMap (fun w ↦ Standard.spelled 4 w.toNat) =
      [t.a, t.b, t.c, t.d, t.e, t.f, t.g, t.h].flatMap fun w ↦ Standard.spelled 4 w.toNat) :
    s = t := by
  have hword : ∀ (v w : UInt32) (x y : Bytes),
      Standard.spelled 4 v.toNat ++ x = Standard.spelled 4 w.toNat ++ y → v = w ∧ x = y := by
    intro v w x y hvw
    obtain ⟨hspelled, hrest⟩ := List.append_inj hvw (by rw [length_spelled, length_spelled])
    exact ⟨UInt32.toNat_inj.mp (spelled_inj v.toNat_lt w.toNat_lt hspelled), hrest⟩
  obtain ⟨ha, h⟩ := hword _ _ _ _ h
  obtain ⟨hb, h⟩ := hword _ _ _ _ h
  obtain ⟨hc, h⟩ := hword _ _ _ _ h
  obtain ⟨hd, h⟩ := hword _ _ _ _ h
  obtain ⟨he, h⟩ := hword _ _ _ _ h
  obtain ⟨hf, h⟩ := hword _ _ _ _ h
  obtain ⟨hg, h⟩ := hword _ _ _ _ h
  obtain ⟨hh, -⟩ := hword _ _ _ _ h
  change State.mk s.a s.b s.c s.d s.e s.f s.g s.h = State.mk t.a t.b t.c t.d t.e t.f t.g t.h
  rw [ha, hb, hc, hd, he, hf, hg, hh]

/-- What `sha256_transform` is called with while the digest of a text is made. -/
def calls (text : Bytes) : List (State × Bytes) :=
  inputs transform init.state (blocks 64 (Standard.pad text))

theorem collision_of_digests (ha : Digests a digest) (hb : Digests b digest) (hne : a ≠ b) :
    ∃ p ∈ calls a, ∃ q ∈ calls b, p ≠ q ∧ transform p.1 p.2 = transform q.1 q.2 := by
  obtain ⟨hshort, hdigest⟩ := ha.standard
  obtain ⟨hshort', hdigest'⟩ := hb.standard
  have hchain : (blocks 64 (Standard.pad a)).foldl transform init.state =
      (blocks 64 (Standard.pad b)).foldl transform init.state := by
    have hcompress : transform = Standard.compress := funext fun s ↦ funext (transform_eq s)
    rw [hcompress]
    exact state_ext (hdigest.symm.trans hdigest')
  have hfree : ∀ {v w : Bytes}, v.length < 2 ^ 32 → w.length < 2 ^ 32 → v ≠ w →
      ¬ blocks 64 (Standard.pad v) <:+ blocks 64 (Standard.pad w) := by
    intro v w hv hw hvw hsuffix
    obtain ⟨front, hfront⟩ := hsuffix
    refine hvw (pad_suffix_free hv hw ⟨front.flatten, ?_⟩)
    rw [← flatten_blocks (dvd_length_pad v), ← List.flatten_append, hfront,
      flatten_blocks (dvd_length_pad w)]
  exact exists_collision hchain (hfree hshort hshort' hne) (hfree hshort' hshort hne.symm)

/-- Different texts have different digests, unless two of the calls made for them collide, each on
a block of 64 bytes. -/
theorem digests_apart (a b digest : Bytes) :
    a = b ∨ ¬(Digests a digest ∧ Digests b digest) ∨
      ∃ p ∈ calls a, ∃ q ∈ calls b, p.2.length = 64 ∧ q.2.length = 64 ∧ p ≠ q ∧
        transform p.1 p.2 = transform q.1 q.2 := by
  by_cases hne : a = b
  · exact .inl hne
  by_cases hboth : Digests a digest ∧ Digests b digest
  · obtain ⟨p, hp, q, hq, hpq⟩ := collision_of_digests hboth.1 hboth.2 hne
    exact .inr (.inr ⟨p, hp, q, hq, length_of_mem_blocks (mem_of_inputs hp),
      length_of_mem_blocks (mem_of_inputs hq), hpq⟩)
  · exact .inr (.inl hboth)

end Sha256

end SquaredPg
