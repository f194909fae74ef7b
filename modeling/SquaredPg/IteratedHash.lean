import Mathlib.Algebra.Group.Nat.Defs
import Mathlib.Data.List.Basic
import Mathlib.Data.List.Induction

namespace IteratedHash

variable {α β σ : Type}

def cut (n : ℕ) : ℕ → List α → List (List α)
  | 0, _ => []
  | count + 1, message => message.take n :: cut n count (message.drop n)

def blocks (n : ℕ) (message : List α) : List (List α) := cut n (message.length / n) message

def chain (compress : σ → List α → σ) (n : ℕ) (s : σ) (message : List α) : σ :=
  (blocks n message).foldl compress s

variable {n : ℕ} {compress : σ → List α → σ} {s : σ} {message block : List α}

theorem length_of_mem_cut {count : ℕ} (h : count * n ≤ message.length)
    (hblock : block ∈ cut n count message) : block.length = n := by
  induction count generalizing message with
  | zero => cases hblock
  | succ count ih =>
    rw [Nat.add_mul, Nat.one_mul] at h
    rcases List.mem_cons.mp hblock with rfl | hblock
    · rw [List.length_take]
      omega
    · apply ih _ hblock
      rw [List.length_drop]
      omega

theorem length_of_mem_blocks (hblock : block ∈ blocks n message) : block.length = n :=
  length_of_mem_cut (Nat.div_mul_le_self _ _) hblock

theorem flatten_cut {count : ℕ} (h : count * n = message.length) :
    (cut n count message).flatten = message := by
  induction count generalizing message with
  | zero =>
    rw [Nat.zero_mul] at h
    exact (List.length_eq_zero_iff.mp h.symm).symm
  | succ count ih =>
    rw [Nat.add_mul, Nat.one_mul] at h
    rw [cut, List.flatten_cons, ih (by rw [List.length_drop]; omega), List.take_append_drop]

theorem flatten_blocks (h : n ∣ message.length) : (blocks n message).flatten = message :=
  flatten_cut (Nat.div_mul_cancel h)

theorem cut_append {count more : ℕ} {front back : List α} (h : front.length = count * n) :
    cut n (count + more) (front ++ back) = cut n count front ++ cut n more back := by
  induction count generalizing front with
  | zero =>
    rw [Nat.zero_mul] at h
    rw [List.length_eq_zero_iff.mp h, Nat.zero_add]
    rfl
  | succ count ih =>
    rw [Nat.add_mul, Nat.one_mul] at h
    have hle : n ≤ front.length := by omega
    rw [Nat.add_right_comm, cut, cut, List.take_append_of_le_length hle,
      List.drop_append_of_le_length hle, ih (by rw [List.length_drop]; omega), List.cons_append]

theorem chain_append {front back : List α} (h : n ∣ front.length) :
    chain compress n s (front ++ back) = chain compress n (chain compress n s front) back := by
  rcases Nat.eq_zero_or_pos n with rfl | hpos
  · simp [chain, blocks, cut]
  · obtain ⟨count, hcount⟩ := h
    have hdiv : (front ++ back).length / n = count + back.length / n := by
      rw [List.length_append, hcount, Nat.mul_add_div hpos]
    have hfront : front.length / n = count := by
      rw [hcount, Nat.mul_div_cancel_left _ hpos]
    rw [chain, blocks, hdiv, cut_append (by rw [hcount, Nat.mul_comm]), List.foldl_append, chain,
      chain, blocks, blocks, hfront]

theorem chain_block (hpos : 0 < n) (h : block.length = n) :
    chain compress n s block = compress s block := by
  rw [chain, blocks, h, Nat.div_self hpos, cut, cut, List.take_of_length_le (Nat.le_of_eq h)]
  rfl

/-- What was compressed, and the bytes that fill no block yet. -/
structure Absorber (α σ : Type) where
  state : σ
  buffer : List α

def Absorber.push (compress : σ → List α → σ) (n : ℕ) (stream : Absorber α σ) (a : α) : Absorber α σ :=
  if stream.buffer.length + 1 = n then ⟨compress stream.state (stream.buffer ++ [a]), []⟩
  else { stream with buffer := stream.buffer ++ [a] }

def Absorber.Took (compress : σ → List α → σ) (n : ℕ) (s : σ) (message : List α)
    (stream : Absorber α σ) : Prop :=
  stream.buffer.length < n ∧ ∃ whole, message = whole ++ stream.buffer ∧ n ∣ whole.length ∧
    stream.state = chain compress n s whole

theorem Absorber.took_nil (hpos : 0 < n) : Absorber.Took compress n s [] ⟨s, []⟩ :=
  ⟨hpos, [], rfl, ⟨0, rfl⟩, by simp [chain, blocks, cut]⟩

theorem Absorber.Took.push {stream : Absorber α σ} (h : stream.Took compress n s message) (a : α) :
    (stream.push compress n a).Took compress n s (message ++ [a]) := by
  obtain ⟨hlt, whole, rfl, hdvd, hstate⟩ := h
  unfold Absorber.push
  split_ifs with hfull
  · have hblock : (stream.buffer ++ [a]).length = n := by
      rw [List.length_append, List.length_singleton, hfull]
    refine ⟨by rw [List.length_nil]; omega, whole ++ (stream.buffer ++ [a]), ?_, ?_, ?_⟩
    · rw [List.append_nil, List.append_assoc]
    · rw [List.length_append, hblock]
      exact Nat.dvd_add hdvd (Nat.dvd_refl n)
    · rw [chain_append hdvd, chain_block (by omega) hblock, hstate]
  · refine ⟨?_, whole, List.append_assoc _ _ _, hdvd, hstate⟩
    rw [List.length_append, List.length_singleton]
    omega

theorem Absorber.Took.foldl {stream : Absorber α σ} (h : stream.Took compress n s message)
    (piece : List α) :
    (piece.foldl (Absorber.push compress n) stream).Took compress n s (message ++ piece) := by
  induction piece generalizing stream message with
  | nil => rwa [List.append_nil]
  | cons a piece ih =>
    rw [List.append_cons]
    exact ih (h.push a)

def inputs (f : σ → β → σ) : σ → List β → List (σ × β)
  | _, [] => []
  | s, b :: bs => (s, b) :: inputs f (f s b) bs

theorem inputs_concat (f : σ → β → σ) (s : σ) (bs : List β) (b : β) :
    inputs f s (bs ++ [b]) = inputs f s bs ++ [(bs.foldl f s, b)] := by
  induction bs generalizing s with
  | nil => rfl
  | cons c bs ih => exact congrArg _ (ih (f s c))

theorem mem_of_inputs {f : σ → β → σ} {s : σ} {bs : List β} {p : σ × β} (h : p ∈ inputs f s bs) :
    p.2 ∈ bs := by
  induction bs generalizing s with
  | nil => cases h
  | cons b bs ih =>
    rcases List.mem_cons.mp h with rfl | h
    · exact List.mem_cons_self
    · exact List.mem_cons_of_mem b (ih h)

theorem suffix_concat {xs ys : List β} (h : xs <:+ ys) (a : β) : xs ++ [a] <:+ ys ++ [a] := by
  obtain ⟨front, rfl⟩ := h
  exact ⟨front, (List.append_assoc _ _ _).symm⟩

/-- Two lists of blocks that are folded to one state, neither at the end of the other, have two
calls that differ and agree in their result. -/
theorem exists_collision {f : σ → β → σ} {s : σ} {xs ys : List β}
    (h : xs.foldl f s = ys.foldl f s) (hx : ¬ xs <:+ ys) (hy : ¬ ys <:+ xs) :
    ∃ p ∈ inputs f s xs, ∃ q ∈ inputs f s ys, p ≠ q ∧ f p.1 p.2 = f q.1 q.2 := by
  induction xs using List.reverseRecOn generalizing ys with
  | nil => exact absurd List.nil_suffix hx
  | append_singleton xs a ih =>
    rcases List.eq_nil_or_concat' ys with rfl | ⟨ys, b, rfl⟩
    · exact absurd List.nil_suffix hy
    · rw [List.foldl_concat, List.foldl_concat] at h
      rw [inputs_concat, inputs_concat]
      by_cases hsame : (xs.foldl f s, a) = (ys.foldl f s, b)
      · -- The last calls are the same, so the difference lies in front of them.
        obtain ⟨hfold, rfl⟩ := Prod.mk.inj hsame
        obtain ⟨p, hp, q, hq, hpq⟩ := ih hfold (fun hs ↦ hx (suffix_concat hs a))
          (fun hs ↦ hy (suffix_concat hs a))
        exact ⟨p, List.mem_append_left _ hp, q, List.mem_append_left _ hq, hpq⟩
      · exact ⟨_, List.mem_append_right _ (List.mem_singleton_self _), _,
          List.mem_append_right _ (List.mem_singleton_self _), hsame, h⟩

end IteratedHash
