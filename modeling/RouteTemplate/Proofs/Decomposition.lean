import RouteTemplate.Proofs.Offsets

namespace RouteTemplate

open Grammar

/-- Whether a text begins with a slash that a segment follows. -/
def opensSegment : List Char → Bool
  | '/' :: x :: _ => !isBoundary x
  | _ => false

theorem opensSegment_iff {text : List Char} :
    opensSegment text = true ↔ ∃ x after, text = '/' :: x :: after ∧ isBoundary x = false := by
  constructor
  · intro h
    rw [opensSegment.eq_def] at h
    split at h
    · rename_i x after
      exact ⟨x, after, rfl, by simpa using h⟩
    · cases h
  · rintro ⟨x, after, rfl, hx⟩
    simp [opensSegment, hx]

namespace Cursor

variable {c : Cursor}

theorem run_eq_nil_iff : c.run = [] ↔ c.after.head?.all isBoundary = true := by
  rw [run]
  cases c.after with
  | nil => simp
  | cons x after => by_cases h : isBoundary x = true <;> simp [h]

theorem segments_eq_nil_iff : c.segments = [] ↔ c.pastSeparator.run = [] := by
  rw [segments]
  split <;> simp_all

theorem segments_of_run_ne_nil (h : c.run ≠ []) :
    c.segments = ⟨c.run, c.pastRun⟩ :: c.pastRun.segments := by
  have hpast : c.pastSeparator = c := by
    apply pastSeparator_of_head?
    intro hslash
    rw [Ne, run_eq_nil_iff, hslash] at h
    exact h rfl
  rw [segments, hpast, dif_neg h]

theorem segments_of_opensSegment (h : opensSegment c.after = true) :
    c.skip? ['/'] = some c.pastSeparator ∧ c.pastSeparator.run ≠ [] ∧
      c.segments = c.pastSeparator.segments := by
  obtain ⟨x, after, hafter, hx⟩ := opensSegment_iff.1 h
  have hskip : c.skip? ['/'] = some c.pastSeparator := by
    rw [pastSeparator, skip?_append hafter]
    rfl
  have hrun : c.pastSeparator.run ≠ [] := by
    have hnext : c.pastSeparator.after = x :: after := by
      rw [(skip?_eq_some_iff.1 hskip).1] at hafter
      exact (List.cons.inj hafter).2
    rw [Ne, run_eq_nil_iff, hnext, List.head?_cons, Option.all_some, hx]
    exact Bool.false_ne_true
  refine ⟨hskip, hrun, ?_⟩
  rw [segments_of_run_ne_nil hrun, segments, dif_neg hrun]

theorem segments_eq_nil_iff_run (h : opensSegment c.after = false) :
    c.segments = [] ↔ c.run = [] := by
  constructor
  · intro hnil
    by_contra hrun
    rw [segments_of_run_ne_nil hrun] at hnil
    cases hnil
  · intro hrun
    rw [segments_eq_nil_iff]
    rcases after_pastSeparator c with hpast | hslash
    · rwa [hpast]
    · rw [run_eq_nil_iff]
      rw [hslash] at h
      cases hafter : c.pastSeparator.after with
      | nil => rfl
      | cons x after =>
        rw [hafter] at h
        simpa [opensSegment] using h

theorem skip?_run (c : Cursor) : c.skip? c.run = some c.pastRun :=
  skip?_eq_some_iff_advance.2 ⟨List.takeWhile_prefix _, rfl⟩

theorem opensSegment_of_run_ne_nil (h : c.run ≠ []) : opensSegment c.after = false := by
  rw [← Bool.not_eq_true, opensSegment_iff]
  rintro ⟨x, after, hafter, -⟩
  rw [Ne, run_eq_nil_iff, hafter] at h
  exact h rfl

theorem run_pastRun (c : Cursor) : c.pastRun.run = [] := by
  rw [run_eq_nil_iff]
  rcases c.after_pastRun with h | ⟨x, after, h, hx⟩
  · rw [h]
    rfl
  · rw [h, List.head?_cons, Option.all_some, hx]

end Cursor

def Segment.ended (s : Segment) : List Char × Nat := (s.text, s.stop.offset)

variable {path : String} {c : Cursor}

theorem slashAhead?_offset (h : c.path = path.toList) :
    slashAhead? path c.offset = some (opensSegment c.after) := by
  have hwidth : ∀ text, (0 < runWidth text) = (text.head?.any (!isBoundary ·) = true) := by
    intro text
    rw [Nat.pos_iff_ne_zero, runWidth, Ne, byteWidth_eq_zero_iff]
    cases text with
    | nil => simp
    | cons x text => by_cases hx : isBoundary x = true <;> simp [hx]
  rw [slashAhead?, textFrom?_offset h]
  rcases c.after with _ | ⟨x, after⟩
  · rfl
  · by_cases hx : x = '/'
    · subst hx
      cases after <;> simp [opensSegment, hwidth]
    · simp [opensSegment, hx]

theorem segmentsWithin?_succ (h : c.path = path.toList) (rounds : Nat) :
    segmentsWithin? path (rounds + 1) c.offset =
      if c.run = [] then some []
      else if opensSegment c.pastRun.after then
        (segmentsWithin? path rounds (c.pastRun.offset + 1)).map ((c.run, c.pastRun.offset) :: ·)
      else some [(c.run, c.pastRun.offset)] := by
  have hskip := c.skip?_run
  have hstop : c.offset + runWidth c.after = c.pastRun.offset :=
    (Cursor.offset_of_skip? hskip).symm
  have hwidth : runWidth c.after = 0 ↔ c.run = [] := byteWidth_eq_zero_iff
  have hpast : c.pastRun.path = path.toList := (Cursor.path_of_skip? hskip).trans h
  rw [segmentsWithin?, textFrom?_offset h]
  simp only [Option.bind_eq_bind, Option.bind_some, hwidth, hstop, textBetween?_of_skip? h hskip,
    slashAhead?_offset hpast, Option.map_eq_bind]
  rfl

/-- The loop ends, and the segments that it has found are those ahead. -/
theorem segmentsWithin?_offset {rounds : Nat} (h : c.path = path.toList)
    (hopens : opensSegment c.after = false) (hrounds : c.after.length < rounds) :
    segmentsWithin? path rounds c.offset = some (c.segments.map Segment.ended) := by
  induction rounds generalizing c with
  | zero => cases hrounds
  | succ rounds ih =>
    rw [segmentsWithin?_succ h]
    by_cases hrun : c.run = []
    · rw [if_pos hrun, (Cursor.segments_eq_nil_iff_run hopens).2 hrun]
      rfl
    · rw [if_neg hrun, Cursor.segments_of_run_ne_nil hrun]
      cases hslash : opensSegment c.pastRun.after with
      | false =>
        rw [(Cursor.segments_eq_nil_iff_run hslash).2 c.run_pastRun]
        rfl
      | true =>
        obtain ⟨hskip, hnext, hsegments⟩ := Cursor.segments_of_opensSegment hslash
        have hpath : c.pastRun.pastSeparator.path = path.toList :=
          (Cursor.path_of_skip? hskip).trans ((Cursor.path_of_skip? c.skip?_run).trans h)
        have hoffset : c.pastRun.offset + 1 = c.pastRun.pastSeparator.offset :=
          (Cursor.offset_of_skip? hskip).symm
        -- The run of this round is not empty, so the next one has less text ahead.
        have hlength : c.pastRun.pastSeparator.after.length < rounds := by
          have hlt := Cursor.length_after_pastRun_lt hrun
          have hle := c.pastRun.length_after_pastSeparator_le
          omega
        rw [hsegments, hoffset, ih hpath (Cursor.opensSegment_of_run_ne_nil hnext) hlength]
        rfl

theorem segmentsAt?_offset {rounds : Nat} (h : c.path = path.toList)
    (hrounds : c.after.length < rounds) :
    segmentsAt? path rounds c.offset = some (c.segments.map Segment.ended) := by
  rw [segmentsAt?, slashAhead?_offset h]
  cases hslash : opensSegment c.after with
  | false => exact segmentsWithin?_offset h hslash hrounds
  | true =>
    obtain ⟨hskip, hnext, hsegments⟩ := Cursor.segments_of_opensSegment hslash
    have hoffset : c.offset + 1 = c.pastSeparator.offset := (Cursor.offset_of_skip? hskip).symm
    have hlength : c.pastSeparator.after.length < rounds :=
      Nat.lt_of_le_of_lt c.length_after_pastSeparator_le hrounds
    rw [hsegments, ← segmentsWithin?_offset ((Cursor.path_of_skip? hskip).trans h)
      (Cursor.opensSegment_of_run_ne_nil hnext) hlength, ← hoffset]
    rfl

/-- Joined by slashes the segments are the text up to the end of each, and none follows the last. -/
structure IsDecomposition (path : String) (start : Nat) (segments : List (List Char × Nat)) :
    Prop where
  isSegment : ∀ s ∈ segments, s.1 ≠ [] ∧ ∀ x ∈ s.1, isBoundary x = false
  joined : ∀ k s, segments[k]? = some s →
    textBetween? path start s.2 = some (['/'].intercalate ((segments.take (k + 1)).map Prod.fst))
  nil_iff : segments = [] ↔
    ∃ rest, textFrom? path start = some rest ∧ rest.head?.all isBoundary = true
  behind : ∀ s, segments.getLast? = some s → ∃ rest, textFrom? path s.2 = some rest ∧
    rest.head?.all isBoundary = true ∧ opensSegment rest = false

namespace Cursor

theorem behind_getLast?_segments {c : Cursor} {s : Segment} (h : c.segments.getLast? = some s) :
    s.stop.after.head?.all isBoundary = true ∧ opensSegment s.stop.after = false := by
  fun_induction segments c with
  | case1 c first hrun => cases h
  | case2 c first hrun ih =>
    by_cases hnil : first.pastRun.segments = []
    · rw [hnil, List.getLast?_singleton] at h
      obtain rfl := Option.some.inj h
      refine ⟨run_eq_nil_iff.1 first.run_pastRun, ?_⟩
      rw [← Bool.not_eq_true]
      intro hopens
      obtain ⟨-, hnext, hsegments⟩ := segments_of_opensSegment hopens
      rw [hsegments, segments_of_run_ne_nil hnext] at hnil
      cases hnil
    · apply ih
      rwa [List.getLast?_cons_of_ne_nil hnil] at h

theorem path_stop_of_getElem? {c : Cursor} {k : Nat} {s : Segment} (h : c.segments[k]? = some s) :
    s.stop.path = c.path := by
  obtain ⟨hk, rfl⟩ := List.getElem?_eq_some_iff.1 h
  rw [c.getElem_segments_stop k hk, path_advance, path_pastSeparator]

theorem skip?_of_getElem?_segments {c : Cursor} (hopens : opensSegment c.after = false) {k : Nat}
    {s : Segment} (h : c.segments[k]? = some s) :
    c.skip? (['/'].intercalate ((c.segments.take (k + 1)).map Segment.text)) = some s.stop := by
  obtain ⟨hk, rfl⟩ := List.getElem?_eq_some_iff.1 h
  have hne : c.segments ≠ [] := List.ne_nil_of_length_pos (Nat.zero_lt_of_lt hk)
  have hpast : c.pastSeparator = c := by
    apply pastSeparator_of_head?
    intro hslash
    apply hne
    rw [segments_eq_nil_iff_run hopens, run_eq_nil_iff, hslash]
    rfl
  have hstop := c.getElem_segments_stop k hk
  rw [hpast] at hstop
  have hfront : (c.segments.take (k + 1)).map Segment.text <+: c.segmentTexts := by
    rw [segmentTexts_eq]
    exact (List.take_prefix _ _).map _
  have htexts : (c.segments.take (k + 1)).map Segment.text ≠ [] := by
    simpa using hne
  obtain ⟨rest, hafter, -⟩ := exists_after_of_prefix_segmentTexts htexts hfront
  rw [hpast] at hafter
  rw [skip?_eq_some_iff_advance, hstop, List.map_take]
  exact ⟨⟨rest, by rw [hafter, List.map_take]⟩, rfl⟩

end Cursor

theorem isDecomposition_of_not_opensSegment (h : c.path = path.toList)
    (hopens : opensSegment c.after = false) :
    IsDecomposition path c.offset (c.segments.map Segment.ended) where
  isSegment := by
    intro ended hended
    obtain ⟨s, hs, rfl⟩ := List.mem_map.1 hended
    have htext : s.text ∈ c.segmentTexts := by
      rw [Cursor.segmentTexts_eq]
      exact List.mem_map_of_mem hs
    have hsegment := isSegment_of_mem_segmentTexts htext
    rwa [isSegment_iff, String.toList_ofList] at hsegment
  joined := by
    intro k ended hended
    rw [List.getElem?_map, Option.map_eq_some_iff] at hended
    obtain ⟨s, hs, rfl⟩ := hended
    have hbetween := textBetween?_of_skip? h (Cursor.skip?_of_getElem?_segments hopens hs)
    rw [← List.map_take, List.map_map]
    exact hbetween
  nil_iff := by
    rw [List.map_eq_nil_iff, Cursor.segments_eq_nil_iff_run hopens, Cursor.run_eq_nil_iff,
      textFrom?_offset h]
    simp
  behind := by
    intro ended hended
    rw [List.getLast?_map, Option.map_eq_some_iff] at hended
    obtain ⟨s, hs, rfl⟩ := hended
    have hpath : s.stop.path = path.toList := by
      have hlast := hs
      rw [List.getLast?_eq_getElem?] at hlast
      exact (Cursor.path_stop_of_getElem? hlast).trans h
    exact ⟨s.stop.after, textFrom?_offset hpath, Cursor.behind_getLast?_segments hs⟩

theorem opensSegment_slash_joinSegments {x : String} (hx : isSegment x = true) (texts : List String)
    (rest : List Char) : opensSegment ('/' :: (joinSegments (x :: texts) ++ rest)) = true := by
  obtain ⟨d, tail, hjoin, hd⟩ := exists_joinSegments_eq_cons hx texts
  exact opensSegment_iff.2 ⟨d, tail ++ rest, by rw [hjoin, List.cons_append], hd⟩

/-- Segments that none follows are determined by the text. -/
theorem eq_of_joinSegments_eq {x y : String} {xs ys : List String} {rest other : List Char}
    (hxs : ∀ z ∈ x :: xs, isSegment z = true) (hys : ∀ z ∈ y :: ys, isSegment z = true)
    (hrest : rest.head?.all isBoundary = true) (hother : other.head?.all isBoundary = true)
    (hxend : opensSegment rest = false) (hyend : opensSegment other = false)
    (h : joinSegments (x :: xs) ++ rest = joinSegments (y :: ys) ++ other) : x :: xs = y :: ys := by
  have hx := hxs x List.mem_cons_self
  have hy := hys y List.mem_cons_self
  induction xs generalizing x y ys with
  | nil =>
    cases ys with
    | nil =>
      rw [joinSegments_singleton, joinSegments_singleton] at h
      rw [(segment_append_inj hx hy hrest hother h).1]
    | cons v ys =>
      -- The second list goes on with a slash, which would open a segment behind the first.
      rw [joinSegments_singleton, joinSegments_cons_cons, List.append_assoc] at h
      obtain ⟨-, rfl⟩ := segment_append_inj hx hy hrest rfl h
      have hv := hys v (List.mem_cons_of_mem _ List.mem_cons_self)
      rw [List.cons_append, opensSegment_slash_joinSegments hv] at hxend
      cases hxend
  | cons u xs ih =>
    have hu := hxs u (List.mem_cons_of_mem _ List.mem_cons_self)
    cases ys with
    | nil =>
      rw [joinSegments_singleton, joinSegments_cons_cons, List.append_assoc] at h
      obtain ⟨-, rfl⟩ := segment_append_inj hx hy rfl hother h
      rw [List.cons_append, opensSegment_slash_joinSegments hu] at hyend
      cases hyend
    | cons v ys =>
      rw [joinSegments_cons_cons, joinSegments_cons_cons, List.append_assoc, List.append_assoc] at h
      obtain ⟨rfl, htail⟩ := segment_append_inj hx hy rfl rfl h
      have hxs := fun z hz => hxs z (List.mem_cons_of_mem _ hz)
      have hys := fun z hz => hys z (List.mem_cons_of_mem _ hz)
      rw [ih hxs hys (List.cons.inj htail).2 hu (hys v List.mem_cons_self)]

namespace IsDecomposition

variable {start : Nat} {segments others : List (List Char × Nat)}

theorem exists_at? (h : IsDecomposition path start segments) (hne : segments ≠ []) :
    ∃ c, Cursor.at? path start = some c := by
  obtain ⟨s, rest, rfl⟩ := List.exists_cons_of_ne_nil hne
  obtain ⟨c, -, hc, -⟩ := textBetween?_eq_some_iff.1 (h.joined 0 s rfl)
  exact ⟨c, hc⟩

theorem exists_after_eq (h : IsDecomposition path start segments) (hne : segments ≠ [])
    (hc : Cursor.at? path start = some c) :
    ∃ rest, c.after = joinSegments (segments.map fun s => String.ofList s.1) ++ rest ∧
      rest.head?.all isBoundary = true ∧ opensSegment rest = false := by
  obtain ⟨s, hs⟩ := Option.isSome_iff_exists.1 (List.getLast?_isSome.2 hne)
  have hjoined := h.joined (segments.length - 1) s (List.getLast?_eq_getElem? ▸ hs)
  have hlength : segments.length - 1 + 1 = segments.length :=
    Nat.sub_add_cancel (List.length_pos_iff.2 hne)
  rw [hlength, List.take_length] at hjoined
  obtain ⟨c', d, hc', hskip, hstop⟩ := textBetween?_eq_some_iff.1 hjoined
  obtain rfl : c' = c := Option.some.inj (hc'.symm.trans hc)
  have hpath := (Cursor.path_of_skip? hskip).trans (Cursor.at?_eq_some_iff.1 hc).1
  obtain ⟨rest, hrest, hends⟩ := h.behind s hs
  rw [← hstop, textFrom?_offset hpath] at hrest
  obtain rfl := Option.some.inj hrest
  refine ⟨d.after, ?_, hends⟩
  rw [(Cursor.skip?_eq_some_iff.1 hskip).1, joinSegments, List.map_map]
  simp [Function.comp_def]

theorem isSegment_of_mem (h : IsDecomposition path start segments) :
    ∀ z ∈ segments.map fun s => String.ofList s.1, RouteTemplate.isSegment z = true := by
  intro z hz
  obtain ⟨s, hs, rfl⟩ := List.mem_map.1 hz
  rw [isSegment_iff, String.toList_ofList]
  exact h.isSegment s hs

theorem map_fst_eq (h : IsDecomposition path start segments)
    (hother : IsDecomposition path start others) :
    segments.map Prod.fst = others.map Prod.fst := by
  by_cases hnil : segments = []
  · rw [hnil, hother.nil_iff.2 (h.nil_iff.1 hnil)]
  · have hne : others ≠ [] := fun heq => hnil (h.nil_iff.2 (hother.nil_iff.1 heq))
    obtain ⟨c, hc⟩ := h.exists_at? hnil
    obtain ⟨rest, hafter, hboundary, hend⟩ := h.exists_after_eq hnil hc
    obtain ⟨rest', hafter', hboundary', hend'⟩ := hother.exists_after_eq hne hc
    have hsegments := h.isSegment_of_mem
    have hothers := hother.isSegment_of_mem
    obtain ⟨x, xs, rfl⟩ := List.exists_cons_of_ne_nil hnil
    obtain ⟨y, ys, rfl⟩ := List.exists_cons_of_ne_nil hne
    have heq := eq_of_joinSegments_eq hsegments hothers hboundary hboundary' hend hend'
      (hafter.symm.trans hafter')
    have htexts := congrArg (List.map String.toList) heq
    simpa [Function.comp_def] using htexts

theorem unique (h : IsDecomposition path start segments)
    (hother : IsDecomposition path start others) : segments = others := by
  have hfst := h.map_fst_eq hother
  apply List.ext_getElem?
  intro k
  have hk : segments[k]?.map Prod.fst = others[k]?.map Prod.fst := by
    rw [← List.getElem?_map, ← List.getElem?_map, hfst]
  cases hs : segments[k]? with
  | none =>
    cases ht : others[k]? with
    | none => rfl
    | some t => simp [hs, ht] at hk
  | some s =>
    cases ht : others[k]? with
    | none => simp [hs, ht] at hk
    | some t =>
      have htext : s.1 = t.1 := by simpa [hs, ht] using hk
      -- The texts up to a segment say where it ends.
      have hjoined := h.joined k s hs
      rw [List.map_take, hfst, ← List.map_take] at hjoined
      have hstop := offset_of_textBetween? hjoined
      rw [← offset_of_textBetween? (hother.joined k t ht)] at hstop
      rw [Prod.ext htext hstop]

end IsDecomposition

theorem isDecomposition_segments (h : c.path = path.toList) :
    IsDecomposition path (if opensSegment c.after then c.offset + 1 else c.offset)
      (c.segments.map Segment.ended) := by
  cases hopens : opensSegment c.after with
  | false => exact isDecomposition_of_not_opensSegment h hopens
  | true =>
    obtain ⟨hskip, hrun, hsegments⟩ := Cursor.segments_of_opensSegment hopens
    have hoffset : c.pastSeparator.offset = c.offset + 1 := Cursor.offset_of_skip? hskip
    rw [if_pos rfl, hsegments, ← hoffset]
    exact isDecomposition_of_not_opensSegment ((Cursor.path_of_skip? hskip).trans h)
      (Cursor.opensSegment_of_run_ne_nil hrun)

theorem length_after_le_utf8ByteSize (h : c.path = path.toList) :
    c.after.length ≤ path.utf8ByteSize := by
  have hle := length_le_byteWidth c.path
  rw [h, byteWidth_toList, ← h, Cursor.path, List.length_append] at hle
  omega

/-- The loop over the segments ends without fail, with the one decomposition of the path. -/
theorem segmentsAt?_eq_some_iff {offset : Nat} (h : String.Pos.Raw.IsValid path ⟨offset⟩) :
    ∃ c, Cursor.at? path offset = some c ∧ ∀ rounds, path.utf8ByteSize < rounds →
      segmentsAt? path rounds offset = some (c.segments.map Segment.ended) ∧
      ∀ segments, segmentsAt? path rounds offset = some segments ↔
        IsDecomposition path (if opensSegment c.after then offset + 1 else offset) segments := by
  obtain ⟨c, hc⟩ := Option.isSome_iff_exists.1 (Cursor.isSome_at?_iff.2 h)
  obtain ⟨hpath, rfl⟩ := Cursor.at?_eq_some_iff.1 hc
  refine ⟨c, hc, fun rounds hrounds => ?_⟩
  have hsegments := segmentsAt?_offset hpath
    (Nat.lt_of_le_of_lt (length_after_le_utf8ByteSize hpath) hrounds)
  have hdecomposition := isDecomposition_segments hpath
  refine ⟨hsegments, fun segments => ⟨fun heq => ?_, fun hother => ?_⟩⟩
  · rw [hsegments] at heq
    rwa [← Option.some.inj heq]
  · rw [hsegments, hdecomposition.unique hother]

theorem segmentsAt?_eq_some_iff_dot_behind :
    let path := "/é/b./c"
    let segments := [(['é'], 3), (['b'], 5)]
    String.Pos.Raw.IsValid path ⟨0⟩ ∧ path.utf8ByteSize < 20 ∧
      segmentsAt? path 20 0 = some segments ∧ IsDecomposition path 1 segments := by
  intro path segments
  have hvalid : String.Pos.Raw.IsValid path ⟨0⟩ := String.Pos.Raw.isValid_zero
  have hrounds : path.utf8ByteSize < 20 := by
    rw [← byteWidth_toList]
    decide
  obtain ⟨c, hc, hsegments⟩ := segmentsAt?_eq_some_iff hvalid
  have hstart : Cursor.at? path 0 = some (Cursor.start path.toList) :=
    Cursor.at?_eq_some_iff.2 ⟨rfl, rfl⟩
  obtain rfl : c = Cursor.start path.toList := Option.some.inj (hc.symm.trans hstart)
  have hended : (Cursor.start path.toList).segments.map Segment.ended = segments := by
    simp [path, segments, Cursor.segments, Cursor.start, Cursor.pastSeparator, Cursor.skip?,
      Cursor.run, Cursor.pastRun, Cursor.advance, isBoundary, Segment.ended, Cursor.offset,
      byteWidth, Char.utf8Size]
  have hopens : opensSegment (Cursor.start path.toList).after = true := by
    simp [path, opensSegment, Cursor.start, isBoundary]
  obtain ⟨hloop, hiff⟩ := hsegments 20 hrounds
  rw [hended] at hloop
  rw [hopens] at hiff
  exact ⟨hvalid, hrounds, hloop, (hiff segments).1 hloop⟩

end RouteTemplate
