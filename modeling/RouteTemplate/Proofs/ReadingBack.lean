import RouteTemplate.Proofs.Acceptance

namespace RouteTemplate

open Grammar

theorem countP_of_isRun {piece : String} (h : isRun piece = true) :
    piece.toList.countP isBoundary = 0 := by
  rw [List.countP_eq_zero]
  intro c hc hb
  have hdelimiter := isDelimiter_of_isRun h c hc
  simp [isDelimiter_of_isBoundary hb] at hdelimiter

/-- Tokens other than splats pass as many boundaries as there are joiners among them. -/
theorem Filled.countP_of_way {b : Bindings} {ts : List Token} {text : List Char}
    (h : Filled b ts text) (hsplats : ∀ t ∈ ts, t.isSplat = false) {c : Cursor} {w : Way}
    (hw : w ∈ Tokens.ways ts c) :
    c.after.countP isBoundary =
      ts.countP Token.isJoiner + w.stop.after.countP isBoundary := by
  induction h generalizing c w with
  | nil =>
    obtain rfl := List.mem_singleton.1 hw
    simp
  | @separator ts text hhead h ih =>
    obtain ⟨d, hafter, hw⟩ := exists_of_mem_ways_literal_cons hw
    have hrest := ih (fun t ht => hsplats t (List.mem_cons_of_mem _ ht)) hw
    have hslash : "/".toList.countP isBoundary = 1 := by decide
    rw [hafter, List.countP_append, hrest, hslash, List.countP_cons_of_pos rfl]
    omega
  | @extension ts text h ih =>
    obtain ⟨d, hafter, hw⟩ := exists_of_mem_ways_literal_cons hw
    have hrest := ih (fun t ht => hsplats t (List.mem_cons_of_mem _ ht)) hw
    have hdot : ".".toList.countP isBoundary = 1 := by decide
    rw [hafter, List.countP_append, hrest, hdot, List.countP_cons_of_pos rfl]
    omega
  | @run piece ts text hpiece h ih =>
    obtain ⟨d, hafter, hw⟩ := exists_of_mem_ways_literal_cons hw
    have hrest := ih (fun t ht => hsplats t (List.mem_cons_of_mem _ ht)) hw
    have hjoiner := isJoiner_eq_false_of_isRun hpiece
    rw [hafter, List.countP_append, hrest, countP_of_isRun hpiece,
      List.countP_cons_of_neg (by simp [hjoiner])]
    omega
  | @var name x ts text hx hvalue hhead h ih =>
    obtain ⟨y, d, hy, hafter, u, hu, rfl⟩ := exists_of_mem_ways_var_cons hw
    have hrest := ih (fun t ht => hsplats t (List.mem_cons_of_mem _ ht)) hu
    rw [hafter, List.countP_append, hrest, countP_of_isSegment hy,
      List.countP_cons_of_neg Bool.false_ne_true]
    exact Nat.zero_add _
  | splat => exact absurd (hsplats _ List.mem_cons_self) (by simp [Token.isSplat])

theorem Filled.countP_squeeze {b : Bindings} {ts : List Token} {text : List Char}
    (h : Filled b ts text) (hsplats : ∀ t ∈ ts, t.isSplat = false) {flag : Bool}
    (hflag : flag = true → ts.head?.all (!·.isSeparator) = true) :
    (squeeze flag text).countP isBoundary = ts.countP Token.isJoiner := by
  have hway := h.exists_way (c := ⟨['/'], squeeze flag text⟩) rfl fun hf => ⟨rfl, hflag hf⟩
  obtain ⟨w, hw, hstop⟩ := hway
  have hcount := h.countP_of_way hsplats hw
  rwa [hstop, List.countP_nil, Nat.add_zero] at hcount

theorem countP_stop_le_of_mem_segmentWays {name : Option String} {c : Cursor} {w : Way}
    (h : w ∈ c.segmentWays name) :
    w.stop.after.countP isBoundary ≤ c.pastSeparator.after.countP isBoundary := by
  obtain ⟨x, xs, d, -, hskip, -, rfl⟩ := mem_segmentWays.1 h
  rw [(Cursor.skip?_eq_some_iff.1 hskip).1, List.countP_append]
  exact Nat.le_add_left _ _

theorem countP_pastSeparator_le (c : Cursor) :
    c.pastSeparator.after.countP isBoundary ≤ c.after.countP isBoundary := by
  rcases after_pastSeparator c with hpast | hpast
  · exact Nat.le_of_eq (by rw [hpast])
  · rw [hpast, List.countP_cons_of_pos rfl]
    exact Nat.le_succ _

theorem countP_stop_lt_of_mem_segmentWays {name : Option String} {c : Cursor} {w : Way}
    (hhead : c.after.head?.all isBoundary = true) (h : w ∈ c.segmentWays name) :
    w.stop.after.countP isBoundary < c.after.countP isBoundary := by
  have hle := countP_stop_le_of_mem_segmentWays h
  rcases after_pastSeparator c with hpast | hpast
  · obtain ⟨x, xs, d, hxs, hskip, -, rfl⟩ := mem_segmentWays.1 h
    obtain ⟨e, rest, hjoin, he⟩ := exists_joinSegments_eq_cons (hxs x List.mem_cons_self) xs
    have htaken := (Cursor.skip?_eq_some_iff.1 hskip).1
    rw [hpast, hjoin] at htaken
    simp [htaken, he] at hhead
  · rw [hpast, List.countP_cons_of_pos rfl]
    omega

theorem head?_after_of_way {ts : List Token} (hhead : ts.head?.all Token.isJoiner = true)
    {c : Cursor} {w : Way} (hw : w ∈ Tokens.ways ts c) (hstop : w.stop.after = []) :
    c.after.head?.all isBoundary = true := by
  cases ts with
  | nil =>
    obtain rfl := List.mem_singleton.1 hw
    rw [hstop]
    rfl
  | cons t ts =>
    cases t with
    | literal piece =>
      have hpiece : piece = "/" ∨ piece = "." := by
        simpa [Token.isJoiner, Token.isSeparator, Token.isExtension] using hhead
      obtain ⟨d, hafter, -⟩ := exists_of_mem_ways_literal_cons hw
      rcases hpiece with rfl | rfl <;> rw [hafter] <;> rfl
    | var name => cases hhead
    | splat name => cases hhead
    | group inner => cases hhead

theorem Filled.head?_squeeze {b : Bindings} {ts : List Token} {text : List Char}
    (h : Filled b ts text) (hhead : ts.head?.all Token.isJoiner = true) {flag : Bool}
    (hflag : flag = true → ts.head?.all (!·.isSeparator) = true) :
    (squeeze flag text).head?.all isBoundary = true := by
  obtain ⟨w, hw, hstop⟩ := h.exists_way (c := ⟨['/'], squeeze flag text⟩) rfl
    fun hf => ⟨rfl, hflag hf⟩
  exact head?_after_of_way hhead hw hstop

section

variable {b : Bindings} {name : Option String} {ts : List Token} {text : List Char}
  (h : Filled b ts text) (hsplats : ∀ t ∈ ts, t.isSplat = false)
  (hhead : ts.head?.all Token.isJoiner = true) {c : Cursor} {v u : Way}
  (hv : v ∈ c.splatWays name) (hu : u ∈ Tokens.ways ts v.stop) (hstop : u.stop.after = [])
include h hsplats hhead hv hu hstop

/-- With any other segments, too few or too many boundaries would be left for the joiners behind. -/
theorem Filled.stop_of_segments {x : String} {xs : List String}
    (hxs : ∀ y ∈ x :: xs, isSegment y = true)
    (hafter : c.after = joinSegments (x :: xs) ++ squeeze false text) :
    ∃ d, .taking name (.many (x :: xs)) d = v ∧ d.after = squeeze false text := by
  have hx := hxs x List.mem_cons_self
  have hcount := h.countP_of_way hsplats hu
  have hrest : (squeeze false text).countP isBoundary = ts.countP Token.isJoiner :=
    h.countP_squeeze hsplats (by simp)
  have hall : c.after.countP isBoundary = xs.length + ts.countP Token.isJoiner := by
    rw [hafter, List.countP_append, countP_joinSegments hxs, hrest]
  rw [hstop, List.countP_nil, Nat.add_zero] at hcount
  rcases mem_splatWays.1 hv with hv | rfl | ⟨d, hback, rfl⟩
  · obtain ⟨y, ys, d, hys, hskip, hd, rfl⟩ := mem_segmentWays.1 hv
    rw [pastSeparator_of_joinSegments hx hafter] at hskip
    have htaken := (Cursor.skip?_eq_some_iff.1 hskip).1
    -- The joiners behind need all boundaries left, so the splat takes the same number of segments.
    have hlength : xs.length = ys.length := by
      rw [htaken, List.countP_append, countP_joinSegments hys] at hall
      dsimp only [Way.taking] at hcount
      omega
    have htext : (squeeze false text).head?.all isBoundary = true := by
      rw [head?_squeeze_false]
      exact h.head?_text hhead
    obtain ⟨hsame, hrest⟩ :=
      joinSegments_append_inj hxs hys htext hd hlength (hafter.symm.trans htaken)
    exact ⟨d, by rw [hsame], hrest.symm⟩
  · have hboundary := head?_after_of_way hhead hu hstop
    obtain ⟨d, rest, hjoin, hd⟩ := exists_joinSegments_eq_cons hx xs
    simp [Way.taking, hafter, hjoin, hd] at hboundary
  · rw [Way.taking, (Cursor.giveBack?_eq_some_iff.1 hback).2, List.countP_cons_of_pos rfl] at hcount
    omega

/-- A splat for which nothing was filled in takes nothing. -/
theorem Filled.stop_of_nothing {flag : Bool} (hafter : c.after = squeeze flag text) :
    ∃ d left, .taking name (.many []) d = v ∧ d.after = squeeze left text ∧
      (left = true → ts.head?.all (!·.isSeparator) = true) := by
  have hcount := h.countP_of_way hsplats hu
  rw [hstop, List.countP_nil, Nat.add_zero] at hcount
  by_cases hleft : flag = true → ts.head?.all (!·.isSeparator) = true
  · have hall : c.after.countP isBoundary = ts.countP Token.isJoiner := by
      rw [hafter, h.countP_squeeze hsplats hleft]
    rcases mem_splatWays.1 hv with hv | rfl | ⟨d, hback, rfl⟩
    · have hboundary : c.after.head?.all isBoundary = true := hafter ▸ h.head?_squeeze hhead hleft
      have hlt := countP_stop_lt_of_mem_segmentWays hboundary hv
      omega
    · exact ⟨c, flag, rfl, hafter, hleft⟩
    · rw [Way.taking, (Cursor.giveBack?_eq_some_iff.1 hback).2,
        List.countP_cons_of_pos rfl] at hcount
      omega
  · -- The separator that comes next is the slash before the cursor.
    obtain ⟨rfl, hsep⟩ := Classical.not_imp.1 hleft
    obtain ⟨back, rfl⟩ := h.exists_eq_slash_cons (Bool.eq_false_iff.2 hsep)
    have hslash : squeeze false ('/' :: back) = '/' :: c.after := by
      rw [squeeze_false_slash, hafter, squeeze_true_slash]
    have hall : (squeeze false ('/' :: back)).countP isBoundary = ts.countP Token.isJoiner :=
      h.countP_squeeze hsplats (by simp)
    rw [hslash, List.countP_cons_of_pos rfl] at hall
    rcases mem_splatWays.1 hv with hv | rfl | ⟨d, hback, rfl⟩
    · have hle := countP_stop_le_of_mem_segmentWays hv
      have hpast := countP_pastSeparator_le c
      omega
    · dsimp only [Way.taking] at hcount
      omega
    · have hd := (Cursor.giveBack?_eq_some_iff.1 hback).2
      exact ⟨d, false, rfl, hd.trans hslash.symm, by simp⟩

theorem Filled.stop_of_splat {xs : List String} (hxs : ∀ y ∈ xs, isSegment y = true) {flag : Bool}
    (hafter : c.after = squeeze flag (joinSegments xs ++ text)) :
    ∃ d left, .taking name (.many xs) d = v ∧ d.after = squeeze left text ∧
      (left = true → ts.head?.all (!·.isSeparator) = true) := by
  cases xs with
  | nil => exact h.stop_of_nothing hsplats hhead hv hu hstop hafter
  | cons x xs =>
    rw [squeeze_joinSegments_append hxs] at hafter
    obtain ⟨d, htaking, hrest⟩ := h.stop_of_segments hsplats hhead hv hu hstop hxs hafter
    exact ⟨d, false, htaking, hrest, by simp⟩

end

/-- With one splat at most, there is no way through the text that binds anything else. -/
theorem Filled.log_of_way {b : Bindings} {ts : List Token} {text : List Char} (h : Filled b ts text)
    (hsplats : ts.countP Token.isSplat ≤ 1) (hbound : ∀ n ∈ Tokens.names ts, b.contains n = true)
    {flag : Bool} {c : Cursor} (hafter : c.after = squeeze flag text)
    (hflag : flag = true → ts.head?.all (!·.isSeparator) = true) {w : Way}
    (hw : w ∈ Tokens.ways ts c) (hstop : w.stop.after = []) :
    w.log.map (fun e => (e.1, some e.2)) = (Tokens.names ts).map fun n => (n, b.get? n) := by
  induction h generalizing flag c w with
  | nil =>
    obtain rfl := List.mem_singleton.1 hw
    rfl
  | @separator ts text hhead h ih =>
    obtain rfl : flag = false := eq_false_of_separator hflag
    obtain ⟨d, htaken, hw⟩ := exists_of_mem_ways_literal_cons hw
    have hrest : '/' :: d.after = '/' :: squeeze true text := htaken.symm.trans hafter
    exact ih hsplats hbound (List.cons.inj hrest).2 (fun _ => hhead) hw hstop
  | @extension ts text h ih =>
    rw [squeeze_cons_of_ne (by decide)] at hafter
    obtain ⟨d, htaken, hw⟩ := exists_of_mem_ways_literal_cons hw
    have hrest : '.' :: d.after = '.' :: squeeze false text := htaken.symm.trans hafter
    exact ih hsplats hbound (List.cons.inj hrest).2 (by simp) hw hstop
  | @run piece ts text hpiece h ih =>
    rw [squeeze_append_of_notMem (toList_ne_nil_of_isRun hpiece) (slash_notMem_of_isRun hpiece)]
      at hafter
    obtain ⟨d, htaken, hw⟩ := exists_of_mem_ways_literal_cons hw
    have hrest : d.after = squeeze false text :=
      List.append_cancel_left (htaken.symm.trans hafter)
    exact ih hsplats hbound hrest (by simp) hw hstop
  | @var name x ts text hx hvalue hhead h ih =>
    rw [squeeze_append_of_notMem (isSegment_iff.1 hx).1 (slash_notMem_of_isSegment hx)] at hafter
    obtain ⟨y, d, hy, htaken, u, hu, rfl⟩ := exists_of_mem_ways_var_cons hw
    have hd := head?_after_of_way hhead hu hstop
    have htext : (squeeze false text).head?.all isBoundary = true := h.head?_squeeze hhead (by simp)
    obtain ⟨rfl, hrest⟩ := segment_append_inj hy hx hd htext (htaken.symm.trans hafter)
    have hlog :=
      ih hsplats (fun n hn => hbound n (List.mem_cons_of_mem _ hn)) hrest (by simp) hu hstop
    have hnames : Tokens.names (.var (some name) :: ts) = name :: Tokens.names ts := rfl
    rw [hnames, List.map_cons, hvalue, ← hlog]
    rfl
  | @splat name xs ts text hxs hvalue hhead h ih =>
    rw [List.countP_cons_of_pos rfl] at hsplats
    have hzero : ts.countP Token.isSplat = 0 := by omega
    -- This is the only splat, so the tokens behind it take what was filled in for them.
    have hnone : ∀ t ∈ ts, t.isSplat = false := by simpa using hzero
    obtain ⟨v, hv, u, hu, rfl⟩ := mem_ways_cons.1 hw
    obtain ⟨d, left, rfl, hrest, hleft⟩ := h.stop_of_splat hnone hhead hv hu hstop hxs hafter
    have htail : ∀ n ∈ Tokens.names ts, b.contains n = true := by
      intro n hn
      exact hbound n (List.mem_append_right _ hn)
    have hlog := ih (by omega) htail hrest hleft hu hstop
    cases name with
    | none => exact hlog
    | some name =>
      have hnames : Tokens.names (.splat (some name) :: ts) = name :: Tokens.names ts := rfl
      have hget : b.get? name = some (.many xs) := by
        obtain ⟨v, hv⟩ := Option.isSome_iff_exists.1 (hbound name List.mem_cons_self)
        simpa [hv] using hvalue
      rw [hnames, List.map_cons, hget, ← hlog]
      rfl

theorem lookup_eq_of_map_eq {b : Bindings} {log : Match.Log} {names : List String}
    (hlog : log.map (fun e => (e.1, some e.2)) = names.map fun n => (n, b.get? n)) (n : String) :
    log.lookup n = if n ∈ names then b.get? n else none := by
  induction log generalizing names with
  | nil =>
    obtain rfl : names = [] := List.map_eq_nil_iff.1 hlog.symm
    rfl
  | cons e log ih =>
    obtain ⟨k, v⟩ := e
    cases names with
    | nil => cases hlog
    | cons m names =>
      obtain ⟨hhead, htail⟩ := List.cons.inj hlog
      obtain ⟨rfl, hv⟩ := Prod.mk.inj hhead
      rw [lookup_cons_eq_ite, ih htail]
      by_cases hn : n = k
      · simp [hn, hv]
      · simp [hn]

theorem ofList_eq_of_map_eq {b : Bindings} {log : Match.Log} {names : List String}
    (hlog : log.map (fun e => (e.1, some e.2)) = names.map fun n => (n, b.get? n))
    (hnodup : names.Nodup) (hnames : ∀ n, b.contains n = true ↔ n ∈ names) :
    Bindings.ofList log = b := by
  have hkeys : log.map Prod.fst = names := by
    have hfirst := congrArg (List.map Prod.fst) hlog
    simpa [Function.comp_def] using hfirst
  apply Bindings.ext_get?
  intro n
  rw [Bindings.get?_ofList (hkeys ▸ hnodup), lookup_eq_of_map_eq hlog]
  split
  · rfl
  · rename_i hn
    have hunbound : b.contains n = false := Bool.eq_false_iff.2 fun hc => hn ((hnames n).1 hc)
    have hget : b.get? n = none := by simpa [Bindings.contains] using hunbound
    exact hget.symm

/-- The bindings that fill in a template without groups come back from the path. -/
theorem Template.match?_of_format {text : String} {t : Template} {b : Bindings}
    (ht : parse text = .ok t) (hflat : Tokens.depth t.tokens = 0) (hnodup : t.names.Nodup)
    (hparted : Tokens.areParted t.tokens = true) (hsplats : t.tokens.countP Token.isSplat ≤ 1)
    (hnames : ∀ n, n ∈ b.names ↔ n ∈ t.names) (hsuits : ∀ u ∈ t.tokens, b.suits u = true) :
    ∃ path, t.format b = .ok path ∧ t.match? path = some b := by
  obtain ⟨front, hfront⟩ := exists_rendered_of_suits hflat hsuits
  have hfilled := filled_of_rendered hflat (isWritable_of_parse ht) hparted hsuits hfront
  have hpath : t.format b = .ok (collapse (String.ofList front)) := format_of_rendered hfront
  have hafter :
      (Cursor.start (collapse (String.ofList front)).toList).after = squeeze false front := by
    rw [collapse_eq, String.toList_ofList, String.toList_ofList]
    rfl
  obtain ⟨w, hw, hstop⟩ := hfilled.exists_way hafter (by simp)
  obtain ⟨found, hmatch⟩ := Option.isSome_iff_exists.1 (match?_isSome_of_mem_ways hw hstop)
  obtain ⟨v, hv, hend, rfl⟩ := exists_way_of_match? hmatch
  have hcontains : ∀ n, b.contains n = true ↔ n ∈ t.names := by
    intro n
    rw [Bindings.contains_iff_mem_names, hnames n]
  have hlog := hfilled.log_of_way hsplats (fun n hn => (hcontains n).2 hn) hafter (by simp) hv hend
  refine ⟨_, hpath, ?_⟩
  rw [hmatch, ofList_eq_of_map_eq hlog hnodup hcontains]

theorem Template.match?_of_format_empty_splat :
    let t : Template := ⟨[.literal "/", .var "a", .literal "/", .splat "b", .literal "/",
      .literal "x", .literal ".", .var "c"]⟩
    let b := Bindings.ofList [("b", .many []), ("a", .one "é"), ("c", .one "x")]
    parse "/:a/*b/x.:c" = .ok t ∧ Tokens.depth t.tokens = 0 ∧ t.names.Nodup ∧
      Tokens.areParted t.tokens = true ∧ t.tokens.countP Token.isSplat ≤ 1 ∧
      (∀ n, n ∈ b.names ↔ n ∈ t.names) ∧ (∀ u ∈ t.tokens, b.suits u = true) ∧
      ∃ path, t.format b = .ok path ∧ t.match? path = some b := by
  intro t b
  have ht : parse "/:a/*b/x.:c" = .ok t := parse_eq_ok_iff.2 ⟨rfl, rfl⟩
  have hnodup : t.names.Nodup := by decide
  have hparted : Tokens.areParted t.tokens = true := by decide
  have hsplats : t.tokens.countP Token.isSplat ≤ 1 := by decide
  have hnames : ∀ n, n ∈ b.names ↔ n ∈ t.names := fun n => Iff.rfl
  have hsuits : ∀ u ∈ t.tokens, b.suits u = true := by decide
  exact ⟨ht, rfl, hnodup, hparted, hsplats, hnames, hsuits,
    match?_of_format ht rfl hnodup hparted hsplats hnames hsuits⟩

end RouteTemplate
