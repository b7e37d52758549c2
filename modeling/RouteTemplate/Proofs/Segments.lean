import RouteTemplate.Proofs.FirstWay
import RouteTemplate.Proofs.Lexemes
import RouteTemplate.Proofs.Separators

namespace RouteTemplate

open Grammar

theorem isSegment_iff {text : String} :
    isSegment text = true ↔ text.toList ≠ [] ∧ ∀ c ∈ text.toList, isBoundary c = false := by
  simp [isSegment]

theorem slash_notMem_of_isSegment {text : String} (h : isSegment text = true) :
    '/' ∉ text.toList := by
  intro hmem
  exact absurd ((isSegment_iff.1 h).2 _ hmem) (by decide)

theorem countP_of_isSegment {text : String} (h : isSegment text = true) :
    text.toList.countP isBoundary = 0 := by
  rw [List.countP_eq_zero]
  intro c hc
  simp [(isSegment_iff.1 h).2 c hc]

def joinSegments (texts : List String) : List Char := ['/'].intercalate (texts.map String.toList)

theorem Value.toList_render_many (texts : List String) :
    (Value.many texts).render.toList = joinSegments texts := by
  rw [Value.render, String.toList_intercalate]
  rfl

theorem joinSegments_nil : joinSegments [] = [] := List.intercalate_nil

theorem joinSegments_singleton (x : String) : joinSegments [x] = x.toList :=
  List.intercalate_singleton

theorem joinSegments_cons_cons (x y : String) (texts : List String) :
    joinSegments (x :: y :: texts) = x.toList ++ '/' :: joinSegments (y :: texts) := by
  simp [joinSegments, List.intercalate_cons_cons]

theorem mem_joinSegments {c : Char} {texts : List String} (h : c ∈ joinSegments texts) :
    c = '/' ∨ ∃ x ∈ texts, c ∈ x.toList := by
  cases texts with
  | nil => simp [joinSegments_nil] at h
  | cons x texts =>
    induction texts generalizing x with
    | nil =>
      rw [joinSegments_singleton] at h
      exact .inr ⟨x, List.mem_cons_self, h⟩
    | cons y texts ih =>
      rw [joinSegments_cons_cons, List.mem_append, List.mem_cons] at h
      rcases h with h | rfl | h
      · exact .inr ⟨x, List.mem_cons_self, h⟩
      · exact .inl rfl
      · obtain heq | ⟨z, hz, hc⟩ := ih y h
        · exact .inl heq
        · exact .inr ⟨z, List.mem_cons_of_mem _ hz, hc⟩

theorem exists_joinSegments_eq_cons {x : String} (hx : isSegment x = true) (texts : List String) :
    ∃ c rest, joinSegments (x :: texts) = c :: rest ∧ isBoundary c = false := by
  obtain ⟨hne, hall⟩ := isSegment_iff.1 hx
  obtain ⟨c, cs, hcs⟩ := List.exists_cons_of_ne_nil hne
  have hc : isBoundary c = false := hall c (by rw [hcs]; exact List.mem_cons_self)
  cases texts with
  | nil => exact ⟨c, cs, by rw [joinSegments_singleton, hcs], hc⟩
  | cons y texts =>
    exact ⟨c, _, by rw [joinSegments_cons_cons, hcs, List.cons_append], hc⟩

theorem exists_joinSegments_eq_concat {x : String} {texts : List String}
    (h : ∀ y ∈ x :: texts, isSegment y = true) :
    ∃ front c, joinSegments (x :: texts) = front ++ [c] ∧ isBoundary c = false := by
  induction texts generalizing x with
  | nil =>
    obtain ⟨hne, hall⟩ := isSegment_iff.1 (h x List.mem_cons_self)
    obtain ⟨front, c, hconcat⟩ := (List.eq_nil_or_concat _).resolve_left hne
    rw [List.concat_eq_append] at hconcat
    exact ⟨front, c, by rw [joinSegments_singleton, hconcat], hall c (by simp [hconcat])⟩
  | cons y texts ih =>
    obtain ⟨front, c, hconcat, hc⟩ := ih fun z hz => h z (List.mem_cons_of_mem _ hz)
    exact ⟨x.toList ++ '/' :: front, c, by simp [joinSegments_cons_cons, hconcat], hc⟩

theorem countP_joinSegments {x : String} {texts : List String}
    (h : ∀ y ∈ x :: texts, isSegment y = true) :
    (joinSegments (x :: texts)).countP isBoundary = texts.length := by
  induction texts generalizing x with
  | nil =>
    rw [joinSegments_singleton]
    exact countP_of_isSegment (h x List.mem_cons_self)
  | cons y texts ih =>
    have hx := countP_of_isSegment (h x List.mem_cons_self)
    have htexts := ih fun z hz => h z (List.mem_cons_of_mem _ hz)
    have hslash : isBoundary '/' = true := rfl
    rw [joinSegments_cons_cons, List.countP_append, List.countP_cons, hx, htexts, hslash,
      List.length_cons]
    simp

theorem squeeze_joinSegments_append {x : String} {texts : List String}
    (h : ∀ y ∈ x :: texts, isSegment y = true) (flag : Bool) (rest : List Char) :
    squeeze flag (joinSegments (x :: texts) ++ rest) =
      joinSegments (x :: texts) ++ squeeze false rest := by
  induction texts generalizing x flag with
  | nil =>
    have hx := h x List.mem_cons_self
    rw [joinSegments_singleton,
      squeeze_append_of_notMem (isSegment_iff.1 hx).1 (slash_notMem_of_isSegment hx)]
  | cons y texts ih =>
    have hx := h x List.mem_cons_self
    have htexts := ih fun z hz => h z (List.mem_cons_of_mem _ hz)
    rw [joinSegments_cons_cons, List.append_assoc,
      squeeze_append_of_notMem (isSegment_iff.1 hx).1 (slash_notMem_of_isSegment hx),
      List.cons_append, squeeze_false_slash, htexts, List.append_assoc, List.cons_append]

/-- Where a segment ends shows in the path. -/
theorem segment_append_inj {x y : String} {rest other : List Char} (hx : isSegment x = true)
    (hy : isSegment y = true) (hrest : rest.head?.all isBoundary = true)
    (hother : other.head?.all isBoundary = true)
    (h : x.toList ++ rest = y.toList ++ other) : x = y ∧ rest = other := by
  have hstop : ∀ {cs : List Char}, cs.head?.all isBoundary = true →
      cs.head?.any (!isBoundary ·) = false := by
    intro cs hcs
    cases hc : cs.head? <;> simp_all
  have hall : ∀ {z : String}, isSegment z = true → z.toList.all (!isBoundary ·) = true := by
    intro z hz
    exact (Bool.and_eq_true_iff.1 hz).2
  have hxrest := takeWhile_append_stop (hall hx) (hstop hrest)
  have hyother := takeWhile_append_stop (hall hy) (hstop hother)
  rw [h] at hxrest
  exact ⟨String.toList_inj.1 (hxrest.1.symm.trans hyother.1), hxrest.2.symm.trans hyother.2⟩

theorem joinSegments_append_inj {x y : String} {xs ys : List String} {rest other : List Char}
    (hxs : ∀ z ∈ x :: xs, isSegment z = true) (hys : ∀ z ∈ y :: ys, isSegment z = true)
    (hrest : rest.head?.all isBoundary = true) (hother : other.head?.all isBoundary = true)
    (hlength : xs.length = ys.length)
    (h : joinSegments (x :: xs) ++ rest = joinSegments (y :: ys) ++ other) :
    x :: xs = y :: ys ∧ rest = other := by
  have hx := hxs x List.mem_cons_self
  have hy := hys y List.mem_cons_self
  induction xs generalizing x y ys with
  | nil =>
    obtain rfl : ys = [] := List.length_eq_zero_iff.1 hlength.symm
    rw [joinSegments_singleton, joinSegments_singleton] at h
    obtain ⟨rfl, hrest⟩ := segment_append_inj hx hy hrest hother h
    exact ⟨rfl, hrest⟩
  | cons u xs ih =>
    obtain ⟨v, ys, rfl⟩ := List.exists_cons_of_length_pos (l := ys) (by simp at hlength; omega)
    rw [joinSegments_cons_cons, joinSegments_cons_cons, List.append_assoc, List.append_assoc] at h
    obtain ⟨rfl, htail⟩ := segment_append_inj hx hy rfl rfl h
    have hxs := fun z hz => hxs z (List.mem_cons_of_mem _ hz)
    have hys := fun z hz => hys z (List.mem_cons_of_mem _ hz)
    obtain ⟨hsame, hrest⟩ := ih hxs hys (by simpa using hlength) (List.cons.inj htail).2
      (hxs u List.mem_cons_self) (hys v List.mem_cons_self)
    exact ⟨by rw [hsame], hrest⟩

end RouteTemplate
