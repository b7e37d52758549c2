import RouteTemplate.Proofs.Segments

namespace RouteTemplate

open Grammar

theorem isPrefix_takeWhile {α : Type} {p : α → Bool} {xs ys : List α} (h : xs <+: ys)
    (hp : ∀ x ∈ xs, p x = true) : xs <+: ys.takeWhile p := by
  obtain ⟨zs, rfl⟩ := h
  rw [List.takeWhile_append_of_pos hp]
  exact List.prefix_append _ _

theorem intercalate_append (sep : List Char) {xs ys : List (List Char)} (hxs : xs ≠ [])
    (hys : ys ≠ []) :
    sep.intercalate (xs ++ ys) = sep.intercalate xs ++ (sep ++ sep.intercalate ys) := by
  induction xs with
  | nil => contradiction
  | cons x xs ih =>
    by_cases hnil : xs = []
    · subst hnil
      rw [List.singleton_append, List.intercalate_cons_of_ne_nil hys, List.intercalate_singleton,
        List.append_assoc]
    · have happend : xs ++ ys ≠ [] := by simp [hnil]
      rw [List.cons_append, List.intercalate_cons_of_ne_nil happend, ih hnil,
        List.intercalate_cons_of_ne_nil hnil]
      simp only [List.append_assoc]

theorem skip?_eq_some_iff_advance {text : List Char} {c d : Cursor} :
    c.skip? text = some d ↔ text <+: c.after ∧ c.advance text.length = d := by
  rw [skip?_eq_ite]
  simp

theorem skip?_append {text rest : List Char} {c : Cursor} (h : c.after = text ++ rest) :
    c.skip? text = some ⟨text.reverse ++ c.before, rest⟩ :=
  Cursor.skip?_eq_some_iff.2 ⟨h, rfl⟩

theorem pastSeparator_of_head? {c : Cursor} (h : c.after.head? ≠ some '/') :
    c.pastSeparator = c := by
  obtain ⟨before, _ | ⟨x, after⟩⟩ := c
  · rfl
  · have hx : '/' ≠ x := by simpa [eq_comm] using h
    simp [Cursor.pastSeparator, Cursor.skip?, hx]

theorem after_pastSeparator (c : Cursor) :
    c.pastSeparator = c ∨ c.after = '/' :: c.pastSeparator.after := by
  by_cases h : c.after.head? = some '/'
  · obtain ⟨after, hafter⟩ := List.head?_eq_some_iff.1 h
    have hskip : c.skip? ['/'] = some ⟨'/' :: c.before, after⟩ := skip?_append hafter
    right
    rw [Cursor.pastSeparator, hskip]
    exact hafter
  · exact .inl (pastSeparator_of_head? h)

theorem pastSeparator_of_joinSegments {c : Cursor} {x : String} {xs : List String}
    {rest : List Char} (hx : isSegment x = true) (h : c.after = joinSegments (x :: xs) ++ rest) :
    c.pastSeparator = c := by
  apply pastSeparator_of_head?
  obtain ⟨d, _, hjoin, hd⟩ := exists_joinSegments_eq_cons hx xs
  rw [h, hjoin]
  rintro ⟨⟩
  exact absurd hd (by decide)

theorem mem_ways_literal {text : String} {c : Cursor} {w : Way} :
    w ∈ (Token.literal text).ways c ↔ ∃ d, c.skip? text.toList = some d ∧ ⟨[], d⟩ = w := by
  simp [Token.ways_literal]

theorem mem_varWays {name : Option String} {c : Cursor} {w : Way} :
    w ∈ c.varWays name ↔ ∃ text d, isSegment text = true ∧ c.skip? text.toList = some d ∧
      .taking name (.one text) d = w := by
  simp only [Cursor.varWays, List.mem_map, List.mem_reverse, List.mem_range]
  constructor
  · rintro ⟨k, hk, rfl⟩
    have hlength : (c.run.take (k + 1)).length = k + 1 := by
      rw [List.length_take]
      omega
    refine ⟨String.ofList (c.run.take (k + 1)), _, ?_, ?_, rfl⟩
    · rw [isSegment_iff, String.toList_ofList]
      refine ⟨List.ne_nil_of_length_eq_add_one hlength, ?_⟩
      intro x hx
      exact Cursor.isBoundary_of_mem_run (List.mem_of_mem_take hx)
    · rw [skip?_eq_some_iff_advance, String.toList_ofList, hlength]
      exact ⟨(List.take_prefix _ _).trans (List.takeWhile_prefix _), rfl⟩
  · rintro ⟨text, d, htext, hskip, rfl⟩
    obtain ⟨hstart, rfl⟩ := skip?_eq_some_iff_advance.1 hskip
    obtain ⟨hne, hall⟩ := isSegment_iff.1 htext
    have hrun : text.toList <+: c.run :=
      isPrefix_takeWhile hstart fun x hx => by simp [hall x hx]
    have hpos : 0 < text.toList.length := List.length_pos_iff.2 hne
    have hle : text.toList.length ≤ c.run.length := hrun.length_le
    refine ⟨text.toList.length - 1, by omega, ?_⟩
    rw [Nat.sub_add_cancel hpos, ← List.prefix_iff_eq_take.1 hrun, String.ofList_toList]

theorem isSegment_of_mem_segmentTexts {c : Cursor} {text : List Char}
    (h : text ∈ c.segmentTexts) : isSegment (String.ofList text) = true := by
  rw [Cursor.segmentTexts_eq] at h
  fun_induction Cursor.segments c with
  | case1 c first hrun => simp at h
  | case2 c first hrun ih =>
    rw [List.map_cons] at h
    rcases List.mem_cons.1 h with rfl | h
    · rw [isSegment_iff, String.toList_ofList]
      exact ⟨hrun, fun _ => Cursor.isBoundary_of_mem_run⟩
    · exact ih h

theorem exists_after_of_prefix_segmentTexts {c : Cursor} {texts : List (List Char)}
    (hne : texts ≠ []) (h : texts <+: c.segmentTexts) :
    ∃ rest, c.pastSeparator.after = ['/'].intercalate texts ++ rest ∧
      rest.head?.all isBoundary = true := by
  obtain ⟨more, hmore⟩ := h.trans (List.takeWhile_prefix _)
  have hdot : ∀ cs : List Char, (cs.dropWhile (· != '.')).head?.all isBoundary = true := by
    intro cs
    have hhead := List.head?_dropWhile_not (· != '.') cs
    cases hd : (cs.dropWhile (· != '.')).head? <;> simp_all [isBoundary]
  have hafter := List.takeWhile_append_dropWhile (p := (· != '.')) (l := c.pastSeparator.after)
  have hjoin : ['/'].intercalate ((c.pastSeparator.after.takeWhile (· != '.')).splitOn '/') =
      c.pastSeparator.after.takeWhile (· != '.') := List.intercalate_splitOn '/'
  rw [← hmore] at hjoin
  -- What follows is a dot or the end of the path, or the slash in front of the next segment.
  by_cases hnil : more = []
  · rw [hnil, List.append_nil] at hjoin
    exact ⟨_, by rw [hjoin, hafter], hdot _⟩
  · rw [intercalate_append _ hne hnil] at hjoin
    refine ⟨['/'] ++ ['/'].intercalate more ++ c.pastSeparator.after.dropWhile (· != '.'), ?_, rfl⟩
    rw [← List.append_assoc, hjoin, hafter]

/-- Segments joined ahead, up to a boundary or the end of the path, are the first of the segments
ahead. -/
theorem prefix_segmentTexts {c : Cursor} {x : String} {xs : List String} {rest : List Char}
    (hseg : ∀ y ∈ x :: xs, isSegment y = true)
    (hafter : c.pastSeparator.after = joinSegments (x :: xs) ++ rest)
    (hrest : rest.head?.all isBoundary = true) :
    (x :: xs).map String.toList <+: c.segmentTexts := by
  apply isPrefix_takeWhile
  · have hdot : ∀ d ∈ joinSegments (x :: xs), (d != '.') = true := by
      intro d hd
      rcases mem_joinSegments hd with rfl | ⟨y, hy, hd⟩
      · decide
      · have hb := (isSegment_iff.1 (hseg y hy)).2 d hd
        simp_all [isBoundary]
    rw [hafter, List.takeWhile_append_of_pos hdot]
    have hsplit : (joinSegments (x :: xs)).splitOn '/' = (x :: xs).map String.toList := by
      apply List.splitOn_intercalate
      · intro text htext
        obtain ⟨y, hy, rfl⟩ := List.mem_map.1 htext
        exact slash_notMem_of_isSegment (hseg y hy)
      · simp
    rcases rest with _ | ⟨d, rest⟩
    · simp [hsplit]
    · rcases isBoundary_iff.1 hrest with rfl | rfl
      · rw [List.takeWhile_cons_of_pos (by decide), List.splitOn_append_cons_self, hsplit]
        exact List.prefix_append _ _
      · simp [hsplit]
  · intro text htext
    obtain ⟨y, hy, rfl⟩ := List.mem_map.1 htext
    have := (isSegment_iff.1 (hseg y hy)).1
    simpa using this

theorem mem_segmentWays {name : Option String} {c : Cursor} {w : Way} :
    w ∈ c.segmentWays name ↔ ∃ x xs d, (∀ y ∈ x :: xs, isSegment y = true) ∧
      c.pastSeparator.skip? (joinSegments (x :: xs)) = some d ∧
      d.after.head?.all isBoundary = true ∧ .taking name (.many (x :: xs)) d = w := by
  simp only [Cursor.segmentWays, List.mem_map, List.mem_reverse, List.mem_range]
  constructor
  · rintro ⟨k, hk, rfl⟩
    have hne : c.segmentTexts.take (k + 1) ≠ [] := by
      apply List.ne_nil_of_length_pos
      rw [List.length_take]
      omega
    obtain ⟨rest, hafter, hrest⟩ := exists_after_of_prefix_segmentTexts hne (List.take_prefix _ _)
    obtain ⟨y, ys, hys⟩ := List.exists_cons_of_ne_nil hne
    have hjoin : joinSegments ((y :: ys).map String.ofList) = ['/'].intercalate (y :: ys) := by
      simp [joinSegments, Function.comp_def]
    rw [hys] at hafter ⊢
    refine ⟨String.ofList y, ys.map String.ofList, _, ?_, ?_, ?_, rfl⟩
    · intro z hz
      obtain ⟨text, htext, rfl⟩ := List.mem_map.1 (List.map_cons ▸ hz)
      rw [← hys] at htext
      exact isSegment_of_mem_segmentTexts (List.mem_of_mem_take htext)
    · rw [← List.map_cons, hjoin, skip?_eq_some_iff_advance]
      exact ⟨⟨rest, hafter.symm⟩, rfl⟩
    · simpa [Cursor.advance, hafter] using hrest
  · rintro ⟨x, xs, d, hseg, hskip, hd, rfl⟩
    have hstart := prefix_segmentTexts hseg (Cursor.skip?_eq_some_iff.1 hskip).1 hd
    have htake := List.prefix_iff_eq_take.1 hstart
    have hlength := hstart.length_le
    rw [List.length_map, List.length_cons] at htake hlength
    refine ⟨xs.length, hlength, ?_⟩
    rw [← htake, ← joinSegments, (skip?_eq_some_iff_advance.1 hskip).2]
    simp [Function.comp_def]

theorem mem_splatWays {name : Option String} {c : Cursor} {w : Way} :
    w ∈ c.splatWays name ↔ w ∈ c.segmentWays name ∨ w = .taking name (.many []) c ∨
      ∃ d, c.giveBack? = some d ∧ .taking name (.many []) d = w := by
  simp [Cursor.splatWays]

theorem taking_mem_splatWays {name : Option String} {c : Cursor} {x : String} {xs : List String}
    {rest : List Char} (hseg : ∀ y ∈ x :: xs, isSegment y = true)
    (hafter : c.after = joinSegments (x :: xs) ++ rest) (hrest : rest.head?.all isBoundary = true) :
    .taking name (.many (x :: xs)) ⟨(joinSegments (x :: xs)).reverse ++ c.before, rest⟩ ∈
      c.splatWays name := by
  have hpast := pastSeparator_of_joinSegments (hseg x List.mem_cons_self) hafter
  refine mem_splatWays.2 (.inl (mem_segmentWays.2 ⟨x, xs, _, hseg, ?_, hrest, rfl⟩))
  rw [hpast]
  exact skip?_append hafter

theorem mem_ways_cons {t : Token} {ts : List Token} {c : Cursor} {w : Way} :
    w ∈ Tokens.ways (t :: ts) c ↔
      ∃ v ∈ t.ways c, ∃ u ∈ Tokens.ways ts v.stop, v.followedBy u = w := by
  simp [Tokens.ways_cons, Way.onward]

theorem mem_ways_append {ts us : List Token} {c : Cursor} {w : Way} :
    w ∈ Tokens.ways (ts ++ us) c ↔
      ∃ v ∈ Tokens.ways ts c, ∃ u ∈ Tokens.ways us v.stop, v.followedBy u = w := by
  simp [Tokens.ways_append, Way.onward]

theorem exists_of_mem_ways_literal_cons {text : String} {ts : List Token} {c : Cursor} {w : Way}
    (h : w ∈ Tokens.ways (.literal text :: ts) c) :
    ∃ d, c.after = text.toList ++ d.after ∧ w ∈ Tokens.ways ts d := by
  obtain ⟨v, hv, u, hu, rfl⟩ := mem_ways_cons.1 h
  obtain ⟨d, hskip, rfl⟩ := mem_ways_literal.1 hv
  exact ⟨d, (Cursor.skip?_eq_some_iff.1 hskip).1, hu⟩

theorem exists_of_mem_ways_var_cons {name : Option String} {ts : List Token} {c : Cursor} {w : Way}
    (h : w ∈ Tokens.ways (.var name :: ts) c) :
    ∃ text d, isSegment text = true ∧ c.after = text.toList ++ d.after ∧
      ∃ u ∈ Tokens.ways ts d, (Way.taking name (.one text) d).followedBy u = w := by
  obtain ⟨v, hv, u, hu, rfl⟩ := mem_ways_cons.1 h
  obtain ⟨text, d, htext, hskip, rfl⟩ := mem_varWays.1 hv
  exact ⟨text, d, htext, (Cursor.skip?_eq_some_iff.1 hskip).1, u, hu, rfl⟩

theorem Cursor.path_pastSeparator (c : Cursor) : c.pastSeparator.path = c.path := by
  rw [pastSeparator]
  cases h : c.skip? ['/'] with
  | none => rfl
  | some d => exact path_of_skip? h

theorem path_of_mem_splatWays {name : Option String} {c : Cursor} {w : Way}
    (h : w ∈ c.splatWays name) : w.stop.path = c.path := by
  rcases mem_splatWays.1 h with h | rfl | ⟨d, hback, rfl⟩
  · obtain ⟨x, xs, d, -, hskip, -, rfl⟩ := mem_segmentWays.1 h
    exact (Cursor.path_of_skip? hskip).trans c.path_pastSeparator
  · rfl
  · obtain ⟨hbefore, hafter⟩ := Cursor.giveBack?_eq_some_iff.1 hback
    simp [Way.taking, Cursor.path, hbefore, hafter]

mutual

theorem Token.path_of_mem_ways : {t : Token} → {c : Cursor} → {v : Way} → v ∈ t.ways c →
    v.stop.path = c.path
  | .literal _, _, _, hv => by
    obtain ⟨d, hskip, rfl⟩ := mem_ways_literal.1 hv
    exact Cursor.path_of_skip? hskip
  | .var _, _, _, hv => by
    obtain ⟨x, d, -, hskip, rfl⟩ := mem_varWays.1 hv
    exact Cursor.path_of_skip? hskip
  | .splat _, _, _, hv => path_of_mem_splatWays hv
  | .group inner, _, _, hv => by
    rcases List.mem_append.1 hv with hv | hv
    · exact Tokens.path_of_mem_ways hv
    · obtain rfl := List.mem_singleton.1 hv
      rfl

theorem Tokens.path_of_mem_ways : {ts : List Token} → {c : Cursor} → {w : Way} →
    w ∈ Tokens.ways ts c → w.stop.path = c.path
  | [], _, _, hw => by
    obtain rfl := List.mem_singleton.1 hw
    rfl
  | _ :: _, _, _, hw => by
    obtain ⟨v, hv, u, hu, rfl⟩ := mem_ways_cons.1 hw
    exact (Tokens.path_of_mem_ways hu).trans (Token.path_of_mem_ways hv)

end

theorem exists_way_of_match? {t : Template} {path : String} {b : Bindings}
    (h : t.match? path = some b) :
    ∃ w ∈ Tokens.ways t.tokens (Cursor.start path.toList),
      w.stop.after = [] ∧ Bindings.ofList w.log = b := by
  rw [Template.match?, Match.search_eq_outcome, List.flatten_singleton, Match.outcome] at h
  split at h
  · rename_i log heq
    split at heq
    · rename_i w hw
      obtain ⟨-, rfl⟩ := Prod.mk.inj heq
      refine ⟨w, List.mem_of_find?_eq_some hw, ?_, by simpa using h⟩
      simpa [Cursor.atEnd] using List.find?_some hw
    · simp at heq
  · simp at h

theorem match?_isSome_of_mem_ways {t : Template} {path : String} {w : Way}
    (hw : w ∈ Tokens.ways t.tokens (Cursor.start path.toList)) (hstop : w.stop.after = []) :
    (t.match? path).isSome = true := by
  rw [Template.match?, Match.search_eq_outcome, List.flatten_singleton, Match.outcome]
  cases hfind : (Tokens.ways t.tokens (Cursor.start path.toList)).find? (·.stop.atEnd) with
  | some v => rfl
  | none =>
    have hnot := List.find?_eq_none.1 hfind w hw
    simp [Cursor.atEnd, hstop] at hnot

theorem Template.match?_isSome_iff {t : Template} {path : String} :
    (t.match? path).isSome = true ↔
      ∃ w ∈ Tokens.ways t.tokens (Cursor.start path.toList), w.stop.after = [] := by
  constructor
  · intro h
    obtain ⟨b, hb⟩ := Option.isSome_iff_exists.1 h
    obtain ⟨w, hw, hstop, -⟩ := exists_way_of_match? hb
    exact ⟨w, hw, hstop⟩
  · rintro ⟨w, hw, hstop⟩
    exact match?_isSome_of_mem_ways hw hstop

end RouteTemplate
