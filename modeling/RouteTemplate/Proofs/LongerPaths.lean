import RouteTemplate.Proofs.Appending
import RouteTemplate.Proofs.Ways

namespace RouteTemplate

open Grammar

/-- The same place in a path with more text before and behind it. -/
def Cursor.within (front back : List Char) (c : Cursor) : Cursor :=
  ⟨c.before ++ front.reverse, c.after ++ back⟩

def Way.within (front back : List Char) (w : Way) : Way := ⟨w.log, w.stop.within front back⟩

/-- No segment goes on across the place where the two texts meet. -/
def ArePartedTexts (front back : List Char) : Prop :=
  front.getLast?.any isBoundary = true ∨ back.head?.all isBoundary = true

section

variable {front back : List Char}

theorem skip?_within {text : List Char} {c d : Cursor} (h : c.skip? text = some d) :
    (c.within front back).skip? text = some (d.within front back) := by
  obtain ⟨hafter, hbefore⟩ := Cursor.skip?_eq_some_iff.1 h
  apply Cursor.skip?_eq_some_iff.2
  simp [Cursor.within, hafter, hbefore]

theorem giveBack?_within {c d : Cursor} (h : c.giveBack? = some d) :
    (c.within front back).giveBack? = some (d.within front back) := by
  obtain ⟨hbefore, hafter⟩ := Cursor.giveBack?_eq_some_iff.1 h
  apply Cursor.giveBack?_eq_some_iff.2
  simp [Cursor.within, hbefore, hafter]

theorem pastSeparator_within {c : Cursor} (h : c.after ≠ []) :
    (c.within front back).pastSeparator = c.pastSeparator.within front back := by
  obtain ⟨before, _ | ⟨x, after⟩⟩ := c
  · contradiction
  · by_cases hx : '/' = x
    · subst hx
      simp [Cursor.pastSeparator, Cursor.skip?, Cursor.within]
    · simp [Cursor.pastSeparator, Cursor.skip?, Cursor.within, hx]

theorem head?_after_within {c d : Cursor} {x : String} {xs : List String}
    (hparted : ArePartedTexts c.path back) (hseg : ∀ y ∈ x :: xs, isSegment y = true)
    (hskip : c.pastSeparator.skip? (joinSegments (x :: xs)) = some d)
    (hd : d.after.head?.all isBoundary = true) :
    (d.within front back).after.head?.all isBoundary = true := by
  cases hafter : d.after with
  | cons y after =>
    rw [hafter] at hd
    simpa [Cursor.within, hafter] using hd
  | nil =>
    -- The path ends inside a segment, so the text behind it must begin at a boundary.
    obtain ⟨text, y, hconcat, hy⟩ := exists_joinSegments_eq_concat hseg
    have hpath : c.path = c.pastSeparator.before.reverse ++ text ++ [y] := by
      rw [← c.path_pastSeparator, ← Cursor.path_of_skip? hskip, Cursor.path, hafter,
        (Cursor.skip?_eq_some_iff.1 hskip).2, hconcat]
      simp
    have hlast : c.path.getLast?.any isBoundary = false := by
      rw [hpath, List.getLast?_concat]
      exact hy
    have hback : back.head?.all isBoundary = true := hparted.resolve_left (by simp [hlast])
    simpa [Cursor.within, hafter] using hback

theorem mem_splatWays_within {name : Option String} {c : Cursor} {w : Way}
    (hparted : ArePartedTexts c.path back) (h : w ∈ c.splatWays name) :
    w.within front back ∈ (c.within front back).splatWays name := by
  rcases mem_splatWays.1 h with h | rfl | ⟨d, hback, rfl⟩
  · obtain ⟨x, xs, d, hseg, hskip, hd, rfl⟩ := mem_segmentWays.1 h
    obtain ⟨y, rest, hjoin, -⟩ := exists_joinSegments_eq_cons (hseg x List.mem_cons_self) xs
    have hne : c.after ≠ [] := by
      rcases after_pastSeparator c with hpast | hpast
      · rw [← hpast, (Cursor.skip?_eq_some_iff.1 hskip).1, hjoin]
        exact List.cons_ne_nil _ _
      · rw [hpast]
        exact List.cons_ne_nil _ _
    refine mem_splatWays.2 (.inl (mem_segmentWays.2
      ⟨x, xs, d.within front back, hseg, ?_, ?_, rfl⟩))
    · rw [pastSeparator_within hne]
      exact skip?_within hskip
    · exact head?_after_within hparted hseg hskip hd
  · exact mem_splatWays.2 (.inr (.inl rfl))
  · exact mem_splatWays.2 (.inr (.inr ⟨_, giveBack?_within hback, rfl⟩))

mutual

theorem Token.mem_ways_within : {t : Token} → {c : Cursor} → {v : Way} →
    ArePartedTexts c.path back → v ∈ t.ways c →
    v.within front back ∈ t.ways (c.within front back)
  | .literal _, _, _, _, hv => by
    obtain ⟨d, hskip, rfl⟩ := mem_ways_literal.1 hv
    exact mem_ways_literal.2 ⟨_, skip?_within hskip, rfl⟩
  | .var _, _, _, _, hv => by
    obtain ⟨x, d, hx, hskip, rfl⟩ := mem_varWays.1 hv
    exact mem_varWays.2 ⟨x, _, hx, skip?_within hskip, rfl⟩
  | .splat _, _, _, hparted, hv => mem_splatWays_within hparted hv
  | .group inner, _, _, hparted, hv => by
    rcases List.mem_append.1 hv with hv | hv
    · exact List.mem_append_left _ (Tokens.mem_ways_within hparted hv)
    · obtain rfl := List.mem_singleton.1 hv
      exact List.mem_append_right _ (List.mem_singleton_self _)

/-- A way through a path is one through a longer path, if no segment goes on where it ended. -/
theorem Tokens.mem_ways_within : {ts : List Token} → {c : Cursor} → {w : Way} →
    ArePartedTexts c.path back → w ∈ Tokens.ways ts c →
    w.within front back ∈ Tokens.ways ts (c.within front back)
  | [], _, _, _, hw => by
    obtain rfl := List.mem_singleton.1 hw
    exact List.mem_singleton_self _
  | _ :: _, _, _, hparted, hw => by
    obtain ⟨v, hv, u, hu, rfl⟩ := mem_ways_cons.1 hw
    have hrest : ArePartedTexts v.stop.path back := by rwa [Token.path_of_mem_ways hv]
    exact mem_ways_cons.2
      ⟨_, Token.mem_ways_within hparted hv, _, Tokens.mem_ways_within hrest hu, rfl⟩

end

end

theorem Cursor.stop_eq {ts : List Token} {path : List Char} {w : Way}
    (hw : w ∈ Tokens.ways ts (start path)) (hstop : w.stop.after = []) :
    w.stop = ⟨path.reverse, []⟩ := by
  have hpath := Tokens.path_of_mem_ways hw
  rw [path_start, Cursor.path, hstop, List.append_nil, List.reverse_eq_iff] at hpath
  rw [← hpath, ← hstop]

theorem exists_way_append {ts us : List Token} {front back : List Char}
    (hparted : ArePartedTexts front back)
    (hts : ∃ w ∈ Tokens.ways ts (Cursor.start front), w.stop.after = [])
    (hus : ∃ w ∈ Tokens.ways us (Cursor.start back), w.stop.after = []) :
    ∃ w ∈ Tokens.ways (ts ++ us) (Cursor.start (front ++ back)), w.stop.after = [] := by
  obtain ⟨v, hv, hvstop⟩ := hts
  obtain ⟨u, hu, hustop⟩ := hus
  have hfront : v.within [] back ∈ Tokens.ways ts (Cursor.start (front ++ back)) :=
    Tokens.mem_ways_within (by rwa [Cursor.path_start]) hv
  have hback : u.within front [] ∈ Tokens.ways us ((Cursor.start back).within front []) :=
    Tokens.mem_ways_within (.inr rfl) hu
  have hmeet : (v.within [] back).stop = (Cursor.start back).within front [] := by
    rw [Way.within, Cursor.stop_eq hv hvstop]
    simp [Cursor.within, Cursor.start]
  rw [← hmeet] at hback
  refine ⟨_, mem_ways_append.2 ⟨_, hfront, _, hback, rfl⟩, ?_⟩
  simp [Way.followedBy, Way.within, Cursor.within, hustop]

theorem getLast?_of_way {ts : List Token} {path : List Char} {w : Way}
    (hlast : ts.getLast?.any Token.isSeparator = true)
    (hw : w ∈ Tokens.ways ts (Cursor.start path)) (hstop : w.stop.after = []) :
    path.getLast? = some '/' := by
  obtain ⟨t, ht⟩ : ∃ t, ts.getLast? = some t := by
    cases ht : ts.getLast? with
    | none => simp [ht] at hlast
    | some t => exact ⟨t, rfl⟩
  rw [ht] at hlast
  obtain rfl := Token.isSeparator_iff.1 hlast
  obtain ⟨front, rfl⟩ := List.getLast?_eq_some_iff.1 ht
  obtain ⟨v, hv, u, hu, rfl⟩ := mem_ways_append.1 hw
  obtain ⟨d, hafter, hd⟩ := exists_of_mem_ways_literal_cons hu
  obtain rfl := List.mem_singleton.1 hd
  have hend : d.after = [] := hstop
  rw [← Cursor.path_start path, ← Tokens.path_of_mem_ways hv, Cursor.path, hafter, hend]
  exact List.getLast?_concat

theorem head?_of_way {ts : List Token} {path : List Char} {w : Way}
    (hhead : ts.head?.any Token.isExtension = true)
    (hw : w ∈ Tokens.ways ts (Cursor.start path)) : path.head? = some '.' := by
  cases ts with
  | nil => cases hhead
  | cons t ts =>
    obtain rfl := Token.isExtension_iff.1 hhead
    obtain ⟨d, hafter, -⟩ := exists_of_mem_ways_literal_cons hw
    rw [show path = ".".toList ++ d.after from hafter]
    rfl

namespace Template

/-- Paths that a template and a fragment match are matched one behind the other. -/
theorem match?_append {t u : Template} {fragment : String} (h : t.append fragment = .ok u) :
    let addition := withoutLeadingSeparator fragment.toList
    let joiner := if t.endsWithSeparator = true ∨ addition.head? = some '.' then "" else "/"
    ∃ v, parse (String.ofList addition) = .ok v ∧
      ∀ front back, (t.match? front).isSome = true → (v.match? back).isSome = true →
        (u.match? (front ++ joiner ++ back)).isSome = true := by
  intro addition joiner
  obtain ⟨us, hparse, -, rfl⟩ := append_eq_ok_iff.1 h
  have hv : parse (String.ofList addition) = .ok ⟨us⟩ := parse_ofList_eq_ok_iff.2 hparse
  obtain ⟨hspelling, hwritable, -⟩ := parse_eq_ok_iff_written.1 hv
  have hdot : addition.head? = some '.' ↔ us.head?.any Token.isExtension = true := by
    rw [← Tokens.head?_spelling hwritable, hspelling, String.toList_ofList]
  refine ⟨⟨us⟩, hv, fun front back hfront hback => ?_⟩
  rw [match?_isSome_iff] at hfront hback ⊢
  by_cases hdirect : t.endsWithSeparator = true ∨ addition.head? = some '.'
  · have hjoined : t.joinTokens us = t.tokens ++ us := by
      rw [joinTokens, if_pos (by simpa [hdot] using hdirect)]
    -- No slash is put in between, so one of the paths has its own boundary where they meet.
    have hparted : ArePartedTexts front.toList back.toList := by
      obtain ⟨v, hv, hstop⟩ := hfront
      obtain ⟨w, hw, -⟩ := hback
      rcases hdirect with hlast | hhead
      · exact .inl (by rw [getLast?_of_way hlast hv hstop]; rfl)
      · exact .inr (by rw [head?_of_way (hdot.1 hhead) hw]; rfl)
    have hpath : (front ++ joiner ++ back).toList = front.toList ++ back.toList := by
      simp [joiner, hdirect]
    rw [hpath, hjoined]
    exact exists_way_append hparted hfront hback
  · have hjoined : t.joinTokens us = t.tokens ++ ([.separator] ++ us) := by
      rw [joinTokens, if_neg (by simpa [hdot] using hdirect)]
      rfl
    have hpath : (front ++ joiner ++ back).toList = front.toList ++ (['/'] ++ back.toList) := by
      simp [joiner, hdirect]
    have hslash : ∃ w ∈ Tokens.ways [.separator] (Cursor.start ['/']), w.stop.after = [] :=
      ⟨_, List.mem_singleton_self _, rfl⟩
    rw [hpath, hjoined]
    exact exists_way_append (.inr rfl) hfront (exists_way_append (.inl rfl) hslash hback)

theorem match?_append_absorbed_slash :
    let t : Template := ⟨[.literal "/", .splat "a"]⟩
    let u : Template :=
      ⟨[.literal "/", .splat "a", .literal "/", .splat "b", .literal ".", .var "c"]⟩
    let v : Template := ⟨[.splat "b", .literal ".", .var "c"]⟩
    t.append "/*b.:c" = .ok u ∧ parse "*b.:c" = .ok v ∧ (t.match? "/x/y").isSome = true ∧
      (v.match? "/p.q").isSome = true ∧ (u.match? "/x/y//p.q").isSome = true := by
  intro t u v
  have hv : parse "*b.:c" = .ok v := parse_eq_ok_iff.2 ⟨rfl, rfl⟩
  have hu : t.append "/*b.:c" = .ok u :=
    append_eq_ok_iff.2 ⟨v.tokens, parse_eq_ok_iff_tokens.1 hv, by decide, rfl⟩
  have hfront : (t.match? "/x/y").isSome = true := by
    rw [match?, Match.search_eq_outcome]
    rfl
  have hback : (v.match? "/p.q").isSome = true := by
    rw [match?, Match.search_eq_outcome]
    rfl
  obtain ⟨v', hv', hjoined⟩ := match?_append hu
  obtain rfl : v = v' := Except.ok.inj (hv.symm.trans hv')
  have hmatch := hjoined _ _ hfront hback
  rw [if_neg (by decide)] at hmatch
  exact ⟨hu, hv, hfront, hback, hmatch⟩

end Template

end RouteTemplate
