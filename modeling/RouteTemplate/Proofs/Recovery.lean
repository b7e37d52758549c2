import RouteTemplate.Proofs.Filled
import RouteTemplate.Proofs.Ways

namespace RouteTemplate

open Grammar

theorem map_fst_log_of_isCapture {t : Token} (ht : t.isCapture = true) {c : Cursor} {v : Way}
    (hv : v ∈ t.ways c) : v.log.map Prod.fst = t.name?.toList := by
  have htaking : ∀ (name : Option String) (value : Value) (stop : Cursor),
      (Way.taking name value stop).log.map Prod.fst = name.toList := by
    intro name value stop
    cases name <;> rfl
  cases t with
  | literal text => cases ht
  | group inner => cases ht
  | var name =>
    obtain ⟨x, d, -, -, rfl⟩ := mem_varWays.1 hv
    exact htaking _ _ _
  | splat name =>
    rcases mem_splatWays.1 hv with hv | rfl | ⟨d, -, rfl⟩
    · obtain ⟨x, xs, d, -, -, -, rfl⟩ := mem_segmentWays.1 hv
      exact htaking _ _ _
    · exact htaking _ _ _
    · exact htaking _ _ _

mutual

theorem Token.sublist_names_of_mem_ways : {t : Token} → {c : Cursor} → {v : Way} →
    v ∈ t.ways c → (v.log.map Prod.fst).Sublist t.names
  | .literal _, _, _, hv => by
    obtain ⟨d, -, rfl⟩ := mem_ways_literal.1 hv
    exact List.Sublist.refl _
  | .var _, _, _, hv => by
    rw [map_fst_log_of_isCapture rfl hv]
    exact List.Sublist.refl _
  | .splat _, _, _, hv => by
    rw [map_fst_log_of_isCapture rfl hv]
    exact List.Sublist.refl _
  | .group _, _, _, hv => by
    rcases List.mem_append.1 hv with hv | hv
    · exact Tokens.sublist_names_of_mem_ways hv
    · obtain rfl := List.mem_singleton.1 hv
      exact List.nil_sublist _

/-- A way binds names of the tokens, in their order, but those of the groups passed over. -/
theorem Tokens.sublist_names_of_mem_ways : {ts : List Token} → {c : Cursor} → {w : Way} →
    w ∈ Tokens.ways ts c → (w.log.map Prod.fst).Sublist (Tokens.names ts)
  | [], _, _, hw => by
    obtain rfl := List.mem_singleton.1 hw
    exact List.Sublist.refl _
  | t :: ts, _, _, hw => by
    obtain ⟨v, hv, u, hu, rfl⟩ := mem_ways_cons.1 hw
    rw [Way.followedBy, List.map_append]
    exact (Token.sublist_names_of_mem_ways hv).append (Tokens.sublist_names_of_mem_ways hu)

end

theorem mem_log_of_mem_ways {ts : List Token} {c : Cursor} {w : Way} (hw : w ∈ Tokens.ways ts c)
    {t : Token} (ht : t ∈ ts) (hcapture : t.isCapture = true) {n : String}
    (hname : t.name? = some n) : n ∈ w.log.map Prod.fst := by
  induction ts generalizing c w with
  | nil => cases ht
  | cons u ts ih =>
    obtain ⟨v, hv, w, htail, rfl⟩ := mem_ways_cons.1 hw
    rw [Way.followedBy, List.map_append, List.mem_append]
    rcases List.mem_cons.1 ht with rfl | ht
    · left
      simp [map_fst_log_of_isCapture hcapture hv, hname]
    · exact .inr (ih htail ht)

theorem satisfies_iff {b : Bindings} {ts : List Token} :
    b.satisfies ts = true ↔
      ∀ t ∈ ts, t.isCapture = true → ∃ n, t.name? = some n ∧ b.contains n = true := by
  rw [Bindings.satisfies, List.all_eq_true]
  refine forall₂_congr fun t _ => ?_
  cases t <;> simp [Token.isCapture, Token.name?, Option.any_eq_true]

theorem exists_name_of_isTraced {behind : Bool} {ts : List Token}
    (h : Tokens.isTraced behind ts = true) {t : Token} (ht : t ∈ ts)
    (hcapture : t.isCapture = true) : ∃ n, t.name? = some n ∧ n ∈ Tokens.names ts := by
  induction ts generalizing behind with
  | nil => cases ht
  | cons u ts ih =>
    obtain ⟨hu, hts⟩ := Bool.and_eq_true_iff.1 h
    rcases List.mem_cons.1 ht with rfl | ht
    · cases t with
      | literal text => cases hcapture
      | group inner => cases hcapture
      | var name =>
        obtain ⟨n, rfl⟩ := Option.isSome_iff_exists.1 hu
        exact ⟨n, rfl, List.mem_cons_self⟩
      | splat name =>
        obtain ⟨n, rfl⟩ := Option.isSome_iff_exists.1 (Bool.and_eq_true_iff.1 hu).1
        exact ⟨n, rfl, List.mem_cons_self⟩
    · obtain ⟨n, hname, hn⟩ := ih hts ht
      exact ⟨n, hname, List.mem_append_right _ hn⟩

def Bindings.Agrees (b : Bindings) (log : Match.Log) (names : List String) : Prop :=
  ∀ n ∈ names, b.get? n = log.lookup n

theorem Bindings.Agrees.of_append {b : Bindings} {front back : Match.Log} {xs ys : List String}
    (h : b.Agrees (front ++ back) (xs ++ ys)) (hnodup : (xs ++ ys).Nodup)
    (hfront : front.map Prod.fst ⊆ xs) (hback : back.map Prod.fst ⊆ ys) :
    b.Agrees front xs ∧ b.Agrees back ys := by
  -- A name of one part is bound by no entry of the other.
  have hdisjoint := (List.nodup_append.1 hnodup).2.2
  constructor
  · intro n hn
    have hnone : back.lookup n = none :=
      lookup_eq_none_of_notMem fun hmem => hdisjoint n hn n (hback hmem) rfl
    rw [h n (List.mem_append_left _ hn), List.lookup_append, hnone, Option.or_none]
  · intro n hn
    have hnone : front.lookup n = none :=
      lookup_eq_none_of_notMem fun hmem => hdisjoint n (hfront hmem) n hn rfl
    rw [h n (List.mem_append_right _ hn), List.lookup_append, hnone, Option.none_or]

/-- A group that was entered appears again. -/
theorem satisfies_of_mem_ways {b : Bindings} {ts : List Token} {behind : Bool} {c : Cursor}
    {w : Way} (htraced : Tokens.isTraced behind ts = true) (hw : w ∈ Tokens.ways ts c)
    (hagrees : b.Agrees w.log (Tokens.names ts)) : b.satisfies ts = true := by
  rw [satisfies_iff]
  intro t ht hcapture
  obtain ⟨n, hname, hn⟩ := exists_name_of_isTraced htraced ht hcapture
  refine ⟨n, hname, ?_⟩
  rw [Bindings.contains, hagrees n hn, isSome_lookup_iff]
  exact mem_log_of_mem_ways hw ht hcapture hname

theorem satisfies_eq_false_of_agrees {b : Bindings} {ts : List Token} {behind : Bool}
    (htraced : Tokens.isTraced behind ts = true) (hcapture : ts.any Token.isCapture = true)
    (hagrees : b.Agrees [] (Tokens.names ts)) : b.satisfies ts = false := by
  obtain ⟨t, ht, hcapture⟩ := List.any_eq_true.1 hcapture
  obtain ⟨n, hname, hn⟩ := exists_name_of_isTraced htraced ht hcapture
  refine Bool.eq_false_iff.2 fun hsatisfied => ?_
  obtain ⟨m, hm, hbound⟩ := satisfies_iff.1 hsatisfied t ht hcapture
  obtain rfl : n = m := Option.some.inj (hname.symm.trans hm)
  simp [Bindings.contains, hagrees n hn] at hbound

/-- The text stands for what the path holds between two places, but for repeated slashes. -/
def Restores (behindSeparator : Bool) (text : List Char) (c stop : Cursor) : Prop :=
  ∀ front : List Char, (behindSeparator = true → front.getLast? = some '/') →
    squeeze false (front ++ (text ++ stop.after)) = squeeze false (front ++ c.after)

theorem Restores.of_append {text : List Char} {c stop : Cursor} (h : c.after = text ++ stop.after)
    (behind : Bool) : Restores behind text c stop := by
  intro front _
  rw [h]

theorem Restores.append {behind behind' : Bool} {text text' : List Char} {c d stop : Cursor}
    (h : Restores behind text c d) (h' : Restores behind' text' d stop)
    (hlast : behind' = true → text.getLast? = some '/') :
    Restores behind (text ++ text') c stop := by
  intro front hfront
  have hrest : squeeze false (front ++ text ++ (text' ++ stop.after)) =
      squeeze false (front ++ text ++ d.after) :=
    h' (front ++ text) fun hb => by simp [hlast hb]
  rw [List.append_assoc text, ← List.append_assoc front, hrest, List.append_assoc, h front hfront]

theorem restores_of_mem_splatWays {name : Option String} {c : Cursor} {v : Way}
    (hv : v ∈ c.splatWays name) :
    ∃ xs, v.log = name.toList.map (·, .many xs) ∧ Restores true (joinSegments xs) c v.stop := by
  rcases mem_splatWays.1 hv with hv | rfl | ⟨d, hback, rfl⟩
  · obtain ⟨x, xs, d, -, hskip, -, rfl⟩ := mem_segmentWays.1 hv
    refine ⟨x :: xs, rfl, ?_⟩
    have htaken : c.pastSeparator.after = joinSegments (x :: xs) ++ d.after :=
      (Cursor.skip?_eq_some_iff.1 hskip).1
    rcases after_pastSeparator c with hpast | hpast
    · exact .of_append (hpast ▸ htaken) true
    · intro front hfront
      rw [hpast, squeeze_slash_of_getLast? (hfront rfl), htaken]
      rfl
  · exact ⟨[], rfl, .of_append rfl true⟩
  · refine ⟨[], rfl, ?_⟩
    intro front hfront
    have hd := (Cursor.giveBack?_eq_some_iff.1 hback).2
    rw [Way.taking, hd]
    exact squeeze_slash_of_getLast? (hfront rfl) c.after

theorem getLast?_of_isSeparator {b : Bindings} {t : Token} {text : List Char}
    (ht : t.isSeparator = true) (h : t.rendered b = .ok text) : text.getLast? = some '/' := by
  cases t with
  | literal piece =>
    obtain rfl : piece = "/" := by simpa [Token.isSeparator] using ht
    obtain rfl := Except.ok.inj h
    rfl
  | var name => cases ht
  | splat name => cases ht
  | group inner => cases ht

mutual

/-- What a token took is written again in its place, if the bindings have it. -/
theorem Token.exists_rendered_of_way {b : Bindings} : {t : Token} → {behind : Bool} →
    {c : Cursor} → {v : Way} → t.isTraced behind = true → t.names.Nodup → v ∈ t.ways c →
    b.Agrees v.log t.names → ∃ text, t.rendered b = .ok text ∧ Restores behind text c v.stop
  | .literal text, behind, _, _, _, _, hv, _ => by
    obtain ⟨d, hskip, rfl⟩ := mem_ways_literal.1 hv
    exact ⟨text.toList, rfl, .of_append (Cursor.skip?_eq_some_iff.1 hskip).1 behind⟩
  | .var name, behind, _, _, htraced, _, hv, hagrees => by
    obtain ⟨n, rfl⟩ := Option.isSome_iff_exists.1 htraced
    obtain ⟨x, d, -, hskip, rfl⟩ := mem_varWays.1 hv
    have hvalue : b.get? n = some (.one x) :=
      (hagrees n List.mem_cons_self).trans (by simp [Way.taking])
    refine ⟨x.toList, ?_, .of_append (Cursor.skip?_eq_some_iff.1 hskip).1 behind⟩
    simp [Token.rendered, hvalue, Value.render]
  | .splat name, behind, _, _, htraced, _, hv, hagrees => by
    obtain ⟨hname, rfl⟩ := Bool.and_eq_true_iff.1 htraced
    obtain ⟨n, rfl⟩ := Option.isSome_iff_exists.1 hname
    obtain ⟨xs, hlog, hrestores⟩ := restores_of_mem_splatWays hv
    have hvalue : b.get? n = some (.many xs) := by
      rw [hagrees n List.mem_cons_self, hlog]
      simp
    refine ⟨joinSegments xs, ?_, hrestores⟩
    rw [rendered_splat, Option.bind_some, hvalue, Option.getD_some, Value.toList_render_many]
  | .group inner, behind, c, v, htraced, hnodup, hv, hagrees => by
    obtain ⟨hcapture, htraced⟩ := Bool.and_eq_true_iff.1 htraced
    rcases List.mem_append.1 hv with hv | hv
    · have hsatisfied : b.satisfies inner = true := satisfies_of_mem_ways htraced hv hagrees
      obtain ⟨text, htext, hrestores⟩ := Tokens.exists_rendered_of_way htraced hnodup hv hagrees
      -- Inside the group no splat comes first, so the text in front of it may be any.
      refine ⟨text, ?_, fun front _ => hrestores front (by simp)⟩
      rw [Token.rendered, if_pos hsatisfied, htext]
    · obtain rfl := List.mem_singleton.1 hv
      have hunsatisfied : b.satisfies inner = false :=
        satisfies_eq_false_of_agrees htraced hcapture hagrees
      exact ⟨[], by simp [Token.rendered, hunsatisfied], .of_append rfl behind⟩

theorem Tokens.exists_rendered_of_way {b : Bindings} : {ts : List Token} → {behind : Bool} →
    {c : Cursor} → {w : Way} → Tokens.isTraced behind ts = true → (Tokens.names ts).Nodup →
    w ∈ Tokens.ways ts c → b.Agrees w.log (Tokens.names ts) →
    ∃ text, Tokens.rendered b ts = .ok text ∧ Restores behind text c w.stop
  | [], behind, _, _, _, _, hw, _ => by
    obtain rfl := List.mem_singleton.1 hw
    exact ⟨[], rfl, .of_append rfl behind⟩
  | t :: ts, behind, _, _, htraced, hnodup, hw, hagrees => by
    obtain ⟨ht, hts⟩ := Bool.and_eq_true_iff.1 htraced
    obtain ⟨hfrontNodup, hbackNodup, -⟩ := List.nodup_append.1 hnodup
    obtain ⟨v, hv, u, hu, rfl⟩ := mem_ways_cons.1 hw
    -- Since no name occurs twice, the bindings agree with the log of each part.
    obtain ⟨hv', hu'⟩ := hagrees.of_append hnodup
      (Token.sublist_names_of_mem_ways hv).subset (Tokens.sublist_names_of_mem_ways hu).subset
    obtain ⟨front, hfront, hfrontRestores⟩ := Token.exists_rendered_of_way ht hfrontNodup hv hv'
    obtain ⟨back, hback, hbackRestores⟩ := Tokens.exists_rendered_of_way hts hbackNodup hu hu'
    have hlast : t.isSeparator = true → front.getLast? = some '/' :=
      fun hseparator => getLast?_of_isSeparator hseparator hfront
    refine ⟨front ++ back, ?_, hfrontRestores.append hbackRestores hlast⟩
    rw [Tokens.rendered, hfront, hback]
    rfl

end

/-- What a match took from a path fills in the path again, but for repeated slashes. -/
theorem Template.format_of_match? {t : Template} {path : String} {b : Bindings}
    (hnodup : t.names.Nodup) (htraced : Tokens.isTraced false t.tokens = true)
    (h : t.match? path = some b) : t.format b = .ok (collapse path) := by
  obtain ⟨w, hw, hstop, rfl⟩ := exists_way_of_match? h
  -- No name is bound twice, so the bindings agree with the log of the whole way.
  have hkeys : (w.log.map Prod.fst).Nodup := (Tokens.sublist_names_of_mem_ways hw).nodup hnodup
  obtain ⟨text, htext, hrestores⟩ := Tokens.exists_rendered_of_way htraced hnodup hw
    fun n _ => Bindings.get?_ofList hkeys n
  have hpath : squeeze false text = squeeze false path.toList := by
    simpa [hstop, Cursor.start] using hrestores [] (by simp)
  rw [format_of_rendered htext, collapse_eq, collapse_eq, String.toList_ofList, hpath]

theorem Template.format_of_match?_given_back_slash :
    let t : Template := ⟨[.literal "/", .splat "a", .literal ".", .var "b",
      .group [.literal "/", .splat "c", .literal "/", .var "d", .group [.literal ".", .var "e"]]]⟩
    let b := Bindings.ofList
      [("a", .many ["x", "y"]), ("b", .one "q"), ("c", .many []), ("d", .one "r")]
    t.names.Nodup ∧ Tokens.isTraced false t.tokens = true ∧ t.match? "//x/y.q/r" = some b ∧
      t.format b = .ok (collapse "//x/y.q/r") := by
  intro t b
  have hnodup : t.names.Nodup := by decide
  have htraced : Tokens.isTraced false t.tokens = true := rfl
  have hmatch : t.match? "//x/y.q/r" = some b := by
    rw [match?, Match.search_eq_outcome]
    rfl
  exact ⟨hnodup, htraced, hmatch, format_of_match? hnodup htraced hmatch⟩

end RouteTemplate
