import RouteTemplate.Match.Ways

namespace RouteTemplate

open Grammar

theorem skip?_eq_ite (text : List Char) (c : Cursor) :
    c.skip? text = if text.isPrefixOf c.after then some (c.advance text.length) else none := by
  induction text generalizing c with
  | nil => simp [Cursor.skip?, Cursor.advance]
  | cons x text ih =>
    obtain ⟨before, _ | ⟨y, after⟩⟩ := c
    · simp [Cursor.skip?]
    · by_cases h : x = y
      · simp [Cursor.skip?, h, ih, Cursor.advance]
      · simp [Cursor.skip?, h]

theorem Token.ways_literal (text : String) (c : Cursor) :
    (Token.literal text).ways c = (c.skip? text.toList).toList.map (Way.mk []) := by
  rw [Token.ways, skip?_eq_ite]
  split <;> simp_all

theorem Cursor.advance_advance (m n : Nat) (c : Cursor) :
    (c.advance m).advance n = c.advance (m + n) := by
  simp [advance, List.take_add]

theorem Cursor.stopsFrom_eq_map (before after : List Char) :
    stopsFrom before after = (List.range (after.takeWhile (!isBoundary ·)).length).map
      fun k => advance (k + 1) ⟨before, after⟩ := by
  induction after generalizing before with
  | nil => simp [stopsFrom]
  | cons x after ih =>
    by_cases h : isBoundary x = true
    · simp [stopsFrom, h]
    · simp [stopsFrom, h, ih, List.range_succ_eq_map, advance]

theorem Cursor.zipIdx_stops (c : Cursor) :
    c.stops.zipIdx = (List.range c.run.length).map fun k => (c.advance (k + 1), k) := by
  have hstops : c.stops = (List.range c.run.length).map fun k => c.advance (k + 1) :=
    stopsFrom_eq_map c.before c.after
  rw [hstops]
  apply List.ext_getElem <;> simp

theorem Cursor.run_append_after (c : Cursor) : c.run ++ c.pastRun.after = c.after := by
  simp only [pastRun, advance, run]
  induction c.after with
  | nil => rfl
  | cons x after ih => by_cases hx : isBoundary x = true <;> simp [hx, ih]

theorem Cursor.take_run {c : Cursor} {n : Nat} (h : n ≤ c.run.length) :
    c.run.take n = c.after.take n := by
  have htake : (c.run ++ c.pastRun.after).take n = c.run.take n :=
    List.take_append_of_le_length h
  rw [← htake, c.run_append_after]

def Capture.way (name : Option String) (k : Capture) : Way := .taking name k.value.get k.stop

theorem map_way_varCaptures (name : Option String) (c : Cursor) :
    c.varCaptures.map (Capture.way name) = c.varWays name := by
  simp only [Cursor.varCaptures, Cursor.varWays, c.zipIdx_stops, List.map_reverse, List.map_map]
  congr 1
  apply List.map_congr_left
  intro k hk
  have hk : k + 1 ≤ c.run.length := by simp at hk; omega
  simp [Capture.way, Thunk.get, Cursor.take_run hk]

/-- Behind a run the path is at its end or goes on with a boundary. -/
theorem Cursor.after_pastRun (c : Cursor) :
    c.pastRun.after = [] ∨ ∃ x after, c.pastRun.after = x :: after ∧ isBoundary x = true := by
  have h : c.pastRun.after = c.after.dropWhile (!isBoundary ·) := by
    have hd : c.run ++ c.after.dropWhile (!isBoundary ·) = c.after :=
      List.takeWhile_append_dropWhile
    exact List.append_cancel_left (c.run_append_after.trans hd.symm)
  rw [h]
  rcases hd : c.after.dropWhile (!isBoundary ·) with _ | ⟨x, after⟩
  · exact .inl rfl
  · have := List.head?_dropWhile_not (!isBoundary ·) c.after
    rw [hd] at this
    exact .inr ⟨x, after, rfl, by simpa using this⟩

theorem Cursor.pastSeparator_pastRun {c : Cursor} (h : c.pastRun.segments ≠ []) :
    c.pastRun.pastSeparator = c.pastRun.advance 1 := by
  rw [segments] at h
  rcases hc : c.pastRun with ⟨before, _ | ⟨x, after⟩⟩
  · simp [hc, pastSeparator, skip?, run] at h
  · by_cases hx : '/' = x
    · subst hx
      simp [pastSeparator, skip?, advance]
    · have hb : isBoundary x = true := by
        rcases c.after_pastRun with hnil | ⟨y, after', hy, hyb⟩
        · simp [hc] at hnil
        · simp only [hc, List.cons.injEq] at hy
          exact hy.1 ▸ hyb
      simp [hc, pastSeparator, skip?, hx, run, hb] at h

theorem Cursor.isBoundary_of_mem_run {c : Cursor} {x : Char} (h : x ∈ c.run) :
    isBoundary x = false := by
  have hx := List.all_takeWhile (p := (!isBoundary ·)) (l := c.after)
  simpa using List.all_eq_true.1 hx x h

/-- Up to the first dot, slashes part the run from the segments behind it. -/
theorem Cursor.splitOn_after (c : Cursor) :
    ∃ texts, (c.after.takeWhile (· != '.')).splitOn '/' = c.run :: texts ∧
      texts.takeWhile (!·.isEmpty) = c.pastRun.segmentTexts := by
  have hdot : ∀ x ∈ c.run, (x != '.') = true := by
    intro x hx
    have hb := isBoundary_of_mem_run hx
    simp_all [isBoundary]
  have hslash : '/' ∉ c.run := fun h => absurd (isBoundary_of_mem_run h) (by decide)
  rw [← c.run_append_after, List.takeWhile_append_of_pos hdot]
  -- Only a slash is followed by another text; a dot and the end of the path leave none.
  rcases c.after_pastRun with hnil | ⟨x, after, hx, hb⟩
  · refine ⟨[], ?_, ?_⟩
    · simp [hnil, List.splitOn_eq_singleton hslash]
    · simp [segmentTexts, pastSeparator, skip?_eq_ite, hnil]
  · rcases isBoundary_iff.1 hb with rfl | rfl
    · refine ⟨(after.takeWhile (· != '.')).splitOn '/', ?_, ?_⟩
      · simp [hx, List.splitOn_append_cons_self_of_not_mem hslash]
      · simp [segmentTexts, pastSeparator, skip?_eq_ite, hx, advance]
    · refine ⟨[], ?_, ?_⟩
      · simp [hx, List.splitOn_eq_singleton hslash]
      · simp [segmentTexts, pastSeparator, skip?_eq_ite, hx]

theorem Cursor.segmentTexts_eq (c : Cursor) : c.segmentTexts = c.segments.map Segment.text := by
  fun_induction segments c with
  | case1 c first h =>
    obtain ⟨texts, hsplit, -⟩ := first.splitOn_after
    simp [segmentTexts, first, hsplit, h]
  | case2 c first h ih =>
    obtain ⟨texts, hsplit, htexts⟩ := first.splitOn_after
    have hne : first.run.isEmpty = false := by simpa using h
    rw [List.map_cons, ← ih, ← htexts]
    simp [segmentTexts, first, hsplit, hne]

/-- The stop behind a segment is as far on as the segments up to it are long when joined. -/
theorem Cursor.getElem_segments_stop (c : Cursor) (k : Nat) (hk : k < c.segments.length) :
    c.segments[k].stop = c.pastSeparator.advance
      (List.intercalate ['/'] ((c.segments.map Segment.text).take (k + 1))).length := by
  have hs := segments.eq_1 c
  by_cases h : c.pastSeparator.run = []
  · simp [hs, h] at hk
  simp only [h, dite_false] at hs
  -- The segments past the first are those of the place behind it, which begin one slash further on.
  induction k generalizing c with
  | zero => simp [hs, pastRun]
  | succ k ih =>
    have hk' : k < c.pastSeparator.pastRun.segments.length := by
      rw [hs] at hk
      simpa using hk
    have hne : c.pastSeparator.pastRun.segments ≠ [] := fun h => by simp [h] at hk'
    have hs' := segments.eq_1 c.pastSeparator.pastRun
    by_cases h' : c.pastSeparator.pastRun.pastSeparator.run = []
    · simp [hs', h'] at hne
    simp only [h', dite_false] at hs'
    simp only [hs, List.getElem_cons_succ, ih _ hk' h' hs', List.map_cons, List.take_succ_cons]
    rw [pastSeparator_pastRun hne, pastRun, advance_advance, advance_advance]
    rw [← pastRun]
    congr 1
    rcases hm : c.pastSeparator.pastRun.segments.map Segment.text with _ | ⟨x, xs⟩
    · exact absurd (List.map_eq_nil_iff.1 hm) hne
    · simp [List.take_succ_cons]
      omega

theorem map_way_splatCaptures (name : Option String) (c : Cursor) :
    c.splatCaptures.map (Capture.way name) = c.splatWays name := by
  simp only [Cursor.splatCaptures, Cursor.splatWays, Cursor.segmentWays, Cursor.segmentTexts_eq,
    List.map_append, List.map_map, List.map_reverse, List.length_map]
  congr 2
  apply List.ext_getElem
  · simp
  · intro k h _
    have hk : k < c.segments.length := by simpa using h
    simp [Capture.way, Thunk.get, Cursor.getElem_segments_stop c k hk, List.map_take,
      Function.comp_def]

def Way.onward (tokens : List Token) (w : Way) : List Way :=
  (Tokens.ways tokens w.stop).map w.followedBy

theorem Way.onward_nil (tokens : List Token) (stop : Cursor) :
    Way.onward tokens ⟨[], stop⟩ = Tokens.ways tokens stop := by
  have h : Way.followedBy ⟨[], stop⟩ = id := rfl
  simp [onward, h]

theorem Tokens.ways_cons (t : Token) (ts : List Token) (c : Cursor) :
    ways (t :: ts) c = (t.ways c).flatMap (Way.onward ts) := rfl

theorem Tokens.ways_append (ts us : List Token) (c : Cursor) :
    ways (ts ++ us) c = (ways ts c).flatMap (Way.onward us) := by
  induction ts generalizing c with
  | nil => simp [ways, Way.onward_nil]
  | cons t ts ih =>
    simp only [List.cons_append, ways_cons, List.flatMap_assoc]
    congr 1
    funext w
    simp only [Way.onward, ih, List.map_flatMap, List.flatMap_map, List.map_map]
    congr 1
    funext v
    congr 1
    funext u
    simp [Way.followedBy, List.append_assoc]

/-- A group is matched with its content spliced in first, and then without it. -/
theorem Tokens.ways_group (inner ts : List Token) (c : Cursor) :
    ways (.group inner :: ts) c = ways (inner ++ ts) c ++ ways ts c := by
  rw [ways_cons, Token.ways, List.flatMap_append, List.flatMap_singleton, Way.onward_nil,
    ways_append]

namespace Match

theorem ways_of_ofSlice (ts : List Token) (below : List (List Token)) (cursor : Cursor) :
    Tokens.ways (ts ++ below.flatten) cursor =
      match Turn.ofSlice ts below cursor with
      | .blocked => []
      | .ended stop => Tokens.ways below.flatten stop
      | .capture name captures rest =>
        (captures.map (Capture.way name)).flatMap (Way.onward rest.flatten)
      | .group inner rest stop =>
        Tokens.ways (inner ++ rest.flatten) stop ++ Tokens.ways rest.flatten stop := by
  fun_induction Turn.ofSlice ts below cursor with
  | case1 => rfl
  | case2 below cursor text ts h => simp [Tokens.ways_cons, Token.ways_literal, h]
  | case3 below cursor text ts next h ih =>
    simp [Tokens.ways_cons, Token.ways_literal, h, Way.onward_nil, ih]
  | case4 => simp [Tokens.ways_cons, Token.ways, map_way_varCaptures]
  | case5 => simp [Tokens.ways_cons, Token.ways, map_way_splatCaptures]
  | case6 => simp [Tokens.ways_group]

/-- The ways of a stack of slices, by its next turn. -/
theorem ways_flatten (slices : List (List Token)) (cursor : Cursor) :
    Tokens.ways slices.flatten cursor =
      match Turn.of slices cursor with
      | .blocked => []
      | .ended stop => [⟨[], stop⟩]
      | .capture name captures rest =>
        (captures.map (Capture.way name)).flatMap (Way.onward rest.flatten)
      | .group inner rest stop =>
        Tokens.ways (inner ++ rest.flatten) stop ++ Tokens.ways rest.flatten stop := by
  induction slices generalizing cursor with
  | nil => rfl
  | cons slice below ih =>
    have h := ways_of_ofSlice slice below cursor
    rw [Turn.of, List.flatten_cons, h]
    split <;> simp_all

/-- The bindings of the first way to the end go behind the log, which else stays as it was. -/
def outcome (log : Log) (ways : List Way) : Bool × Log :=
  match ways.find? (·.stop.atEnd) with
  | some w => (true, log ++ w.log)
  | none => (false, log)

theorem outcome_append (log : Log) (ws vs : List Way) :
    outcome log (ws ++ vs) =
      match outcome log ws with
      | (true, log) => (true, log)
      | (false, log) => outcome log vs := by
  cases h : ws.find? (·.stop.atEnd) <;> simp [outcome, List.find?_append, h]

theorem outcome_onward (log : Log) (w : Way) (tokens : List Token) :
    outcome log (w.onward tokens) =
      match outcome (log ++ w.log) (Tokens.ways tokens w.stop) with
      | (true, log) => (true, log)
      | (false, _) => (false, log) := by
  have hf : ((fun v : Way => v.stop.atEnd) ∘ w.followedBy) = fun v => v.stop.atEnd := rfl
  cases h : (Tokens.ways tokens w.stop).find? (·.stop.atEnd) <;>
    simp [outcome, Way.onward, List.find?_map, hf, h, Way.followedBy]

theorem noting_eq_outcome (name : Option String) (k : Capture) (tokens : List Token) (log : Log) :
    noting name k.value (fun log => outcome log (Tokens.ways tokens k.stop)) log =
      outcome log ((k.way name).onward tokens) := by
  rw [outcome_onward]
  cases name <;> cases h : (Tokens.ways tokens k.stop).find? (·.stop.atEnd) <;>
    simp [noting, Capture.way, Way.taking, outcome, h]

theorem firstSuccess_noting (name : Option String) (captures : List Capture)
    (tokens : List Token) (log : Log) :
    firstSuccess (fun k => noting name k.value
        (fun log => outcome log (Tokens.ways tokens k.stop))) captures log =
      outcome log ((captures.map (Capture.way name)).flatMap (Way.onward tokens)) := by
  induction captures generalizing log with
  | nil => rfl
  | cons k captures ih =>
    rw [firstSuccess, noting_eq_outcome, List.map_cons, List.flatMap_cons, outcome_append]
    split <;> simp_all

/-- The search succeeds just where the tokens have a way to the end of the path, and makes the
bindings of the first. -/
theorem search_eq_outcome (slices : List (List Token)) (cursor : Cursor) (log : Log) :
    search slices cursor log = outcome log (Tokens.ways slices.flatten cursor) := by
  -- A splat can step back in the path, so what goes down is the number of choice points left.
  induction hn : choicePoints slices using Nat.strongRecOn generalizing slices cursor log with
  | ind n ih =>
    subst hn
    rw [search_eq, ways_flatten]
    cases h : Turn.of slices cursor with
    | blocked => rfl
    | ended stop => cases hs : stop.atEnd <;> simp [outcome, hs]
    | capture name captures rest =>
      simp only [← firstSuccess_noting]
      congr 1
      funext k
      congr 1
      funext log
      exact ih _ (choicePoints_lt_of_capture h) _ _ _ rfl
    | group inner rest stop =>
      have hlt := choicePoints_lt_of_group h
      have hrest : choicePoints rest < choicePoints slices := by
        rw [choicePoints] at hlt
        omega
      dsimp only
      rw [outcome_append, ← List.flatten_cons, ← ih _ hlt (inner :: rest) stop log rfl]
      rcases search (inner :: rest) stop log with ⟨_ | _, log⟩
      · exact ih _ hrest rest stop log rfl
      · rfl

end Match

end RouteTemplate
