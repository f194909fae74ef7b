import SquaredPg.Bytes

namespace SquaredPg

variable {text t t' b b' x : Bytes}

def Blank (text : Bytes) : Prop := ∀ c ∈ text, isBlank c = true

structure Tight (t : Bytes) : Prop where
  head : ∃ c rest, t = c :: rest ∧ isBlank c = false
  last : ∃ front c, t = front ++ [c] ∧ isBlank c = false

theorem Blank.append (h : Blank b) (h' : Blank b') : Blank (b ++ b') := by
  intro c hc
  rcases List.mem_append.mp hc with hc | hc
  · exact h c hc
  · exact h' c hc

theorem Tight.ne_nil (h : Tight t) : t ≠ [] := by
  obtain ⟨c, rest, rfl, -⟩ := h.head
  exact List.cons_ne_nil c rest

theorem Tight.not_blank (h : Tight t) : ¬Blank t := by
  obtain ⟨c, rest, rfl, hc⟩ := h.head
  intro hblank
  rw [hblank c (by simp)] at hc
  cases hc

theorem Tight.eq_nil_of_append (h : Tight (x ++ b)) (hb : Blank b) : b = [] := by
  obtain ⟨front, c, hlast, hc⟩ := h.last
  rcases List.eq_nil_or_concat b with rfl | ⟨b, d, rfl⟩
  · rfl
  · rw [List.concat_eq_append, ← List.append_assoc] at hlast
    obtain rfl : d = c := by simpa using (List.append_inj' hlast rfl).2
    rw [hb d (by simp)] at hc
    cases hc

theorem Tight.append (h : Tight t) (h' : Tight t') (x : Bytes) : Tight (t ++ x ++ t') := by
  obtain ⟨c, rest, rfl, hc⟩ := h.head
  obtain ⟨front, d, rfl, hd⟩ := h'.last
  exact ⟨⟨c, rest ++ x ++ (front ++ [d]), by simp, hc⟩, ⟨c :: rest ++ x ++ front, d, by simp, hd⟩⟩

theorem exists_first {p : UInt8 → Bool} (h : ¬∀ c ∈ text, p c = true) :
    ∃ front c rest, text = front ++ c :: rest ∧ (∀ d ∈ front, p d = true) ∧ p c = false := by
  induction text with
  | nil => exact absurd (by simp) h
  | cons c text ih =>
    by_cases hc : p c = true
    · have htext : ¬∀ d ∈ text, p d = true := by
        intro hall
        refine h fun d hd ↦ ?_
        rcases List.mem_cons.mp hd with rfl | hd
        · exact hc
        · exact hall d hd
      obtain ⟨front, d, rest, rfl, hfront, hd⟩ := ih htext
      exact ⟨c :: front, d, rest, rfl, by simpa [hc] using hfront, hd⟩
    · exact ⟨[], c, text, rfl, by simp, by simpa using hc⟩

theorem takeWhile_first {p : UInt8 → Bool} {front rest : Bytes} {c : UInt8}
    (hfront : ∀ d ∈ front, p d = true) (hc : p c = false) :
    (front ++ c :: rest).takeWhile p = front ∧ (front ++ c :: rest).dropWhile p = c :: rest := by
  rw [List.takeWhile_append_of_pos hfront, List.dropWhile_append_of_pos hfront]
  simp [hc]

theorem Tight.reverse (h : Tight t) : Tight t.reverse := by
  obtain ⟨c, rest, hhead, hc⟩ := h.head
  obtain ⟨front, d, hlast, hd⟩ := h.last
  exact ⟨⟨d, front.reverse, by simp [hlast], hd⟩, ⟨rest.reverse, c, by simp [hhead], hc⟩⟩

theorem Blank.reverse (h : Blank b) : Blank b.reverse := fun c hc ↦ h c (List.mem_reverse.mp hc)

theorem trim_tight (hb : Blank b) (h : Tight t) (hb' : Blank b') : trim (b ++ t ++ b') = t := by
  obtain ⟨c, rest, hhead, hc⟩ := h.head
  obtain ⟨d, front, hlast, hd⟩ := h.reverse.head
  have hleft : (b ++ t ++ b').dropWhile isBlank = t ++ b' := by
    rw [hhead, List.append_assoc, List.cons_append]
    exact (takeWhile_first hb hc).2
  rw [trim, hleft, List.rdropWhile, List.reverse_append, hlast, (takeWhile_first hb'.reverse hd).2,
    ← hlast, List.reverse_reverse]

theorem trim_blank (hb : Blank b) : trim b = [] := by
  rw [trim, List.dropWhile_eq_nil_iff.mpr hb]
  rfl

theorem rtakeWhile_tight (h : Tight t) (hb' : Blank b') :
    (b ++ t ++ b').rtakeWhile isBlank = b' := by
  obtain ⟨front, c, rfl, hc⟩ := h.last
  rw [List.rtakeWhile, List.reverse_append, List.takeWhile_append_of_pos hb'.reverse]
  simp [hc]

theorem exists_trailing (h : ¬Blank text) :
    ∃ front c b', text = front ++ c :: b' ∧ isBlank c = false ∧ Blank b' := by
  have hreverse : ¬Blank text.reverse := fun hblank ↦ h (by simpa using hblank.reverse)
  obtain ⟨b, c, rest, heq, hb, hc⟩ := exists_first hreverse
  refine ⟨rest.reverse, c, b.reverse, ?_, hc, Blank.reverse hb⟩
  rw [← List.reverse_reverse text, heq]
  simp

theorem exists_tight (h : ¬Blank text) :
    ∃ b t b', text = b ++ t ++ b' ∧ Blank b ∧ Tight t ∧ Blank b' := by
  obtain ⟨b, c, rest, rfl, hb, hc⟩ := exists_first h
  have hrest : ¬Blank (c :: rest) := by
    intro hblank
    rw [hblank c (by simp)] at hc
    cases hc
  obtain ⟨front, d, b', heq, hd, hb'⟩ := exists_trailing hrest
  refine ⟨b, front ++ [d], b', by simp [heq], hb, ⟨?_, ⟨front, d, rfl, hd⟩⟩, hb'⟩
  rcases front with _ | ⟨e, front⟩
  · exact ⟨d, [], rfl, hd⟩
  · obtain ⟨rfl, -⟩ := List.cons.inj heq
    exact ⟨c, front ++ [d], rfl, hc⟩

theorem tight_trim (h : trim text ≠ []) : Tight (trim text) := by
  have hblank : ¬Blank text := fun hblank ↦ h (trim_blank hblank)
  obtain ⟨b, t, b', rfl, hb, ht, hb'⟩ := exists_tight hblank
  rwa [trim_tight hb ht hb']

theorem trim_append_blank (hb' : Blank b') : trim (text ++ b') = trim text := by
  by_cases htext : Blank text
  · rw [trim_blank htext, trim_blank (htext.append hb')]
  · obtain ⟨b, t, c, rfl, hb, ht, hc⟩ := exists_tight htext
    rw [List.append_assoc (b ++ t), trim_tight hb ht (hc.append hb'), trim_tight hb ht hc]

end SquaredPg
