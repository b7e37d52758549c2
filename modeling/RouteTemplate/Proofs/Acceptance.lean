import RouteTemplate.Proofs.RoundTrip
import RouteTemplate.Proofs.Visible
import RouteTemplate.Proofs.Ways

namespace RouteTemplate

open Grammar

namespace Tokens

theorem ways_append_subset {ts us ts' us' : List Token} (hts : ∀ c, ways ts c ⊆ ways ts' c)
    (hus : ∀ c, ways us c ⊆ ways us' c) (c : Cursor) :
    ways (ts ++ us) c ⊆ ways (ts' ++ us') c := by
  intro w hw
  obtain ⟨v, hv, u, hu, rfl⟩ := mem_ways_append.1 hw
  exact mem_ways_append.2 ⟨v, hts c hv, u, hus _ hu, rfl⟩

theorem ways_visible_subset (b : Bindings) (ts : List Token) (c : Cursor) :
    ways (visible b ts) c ⊆ ways ts c := by
  induction ts using Tokens.induction generalizing c with
  | nil => exact List.Subset.refl _
  | literal text ts ih => exact ways_append_subset (fun _ => List.Subset.refl _) ih c
  | var name ts ih => exact ways_append_subset (fun _ => List.Subset.refl _) ih c
  | splat name ts ih => exact ways_append_subset (fun _ => List.Subset.refl _) ih c
  | group inner ts hinner ih =>
    rw [visible, Token.visible, ways_group]
    split
    · exact List.Subset.trans (ways_append_subset hinner ih c) (List.subset_append_left _ _)
    · exact List.Subset.trans (ih c) (List.subset_append_right _ _)

theorem isWritable_of_mem_visible {b : Bindings} {ts : List Token}
    (h : ∀ t ∈ ts, t.isWritable = true) : ∀ t ∈ visible b ts, t.isWritable = true := by
  induction ts using Tokens.induction with
  | nil => simp [visible]
  | literal text ts ih =>
    obtain ⟨ht, hts⟩ := List.forall_mem_cons.1 h
    exact List.forall_mem_cons.2 ⟨ht, ih hts⟩
  | var name ts ih =>
    obtain ⟨ht, hts⟩ := List.forall_mem_cons.1 h
    exact List.forall_mem_cons.2 ⟨ht, ih hts⟩
  | splat name ts ih =>
    obtain ⟨ht, hts⟩ := List.forall_mem_cons.1 h
    exact List.forall_mem_cons.2 ⟨ht, ih hts⟩
  | group inner ts hinner ih =>
    obtain ⟨ht, hts⟩ := List.forall_mem_cons.1 h
    rw [visible, Token.visible]
    intro u hu
    rcases List.mem_append.1 hu with hu | hu
    · split at hu
      · exact hinner (isWritable_of_mem ht) u hu
      · cases hu
    · exact ih hts u hu

end Tokens

theorem exists_way_cons {t : Token} {ts : List Token} {c : Cursor} {v : Way} (hv : v ∈ t.ways c)
    (h : ∃ w ∈ Tokens.ways ts v.stop, w.stop.after = []) :
    ∃ w ∈ Tokens.ways (t :: ts) c, w.stop.after = [] := by
  obtain ⟨w, hw, hstop⟩ := h
  exact ⟨v.followedBy w, mem_ways_cons.2 ⟨v, hv, w, hw, rfl⟩, hstop⟩

/-- The flag says that a slash was left out in front of the text. It then stands before the cursor,
where an empty splat can give it back. -/
theorem Filled.exists_way {b : Bindings} {ts : List Token} {text : List Char}
    (h : Filled b ts text) {flag : Bool} {c : Cursor} (hafter : c.after = squeeze flag text)
    (hflag : flag = true → c.before.head? = some '/' ∧ ts.head?.all (!·.isSeparator) = true) :
    ∃ w ∈ Tokens.ways ts c, w.stop.after = [] := by
  induction h generalizing flag c with
  | nil => exact ⟨⟨[], c⟩, List.mem_singleton_self _, by rw [hafter, squeeze_nil]⟩
  | @separator ts text hhead h ih =>
    obtain rfl : flag = false := eq_false_of_separator fun hf => (hflag hf).2
    have hslash : c.after = "/".toList ++ squeeze true text := hafter
    exact exists_way_cons (mem_ways_literal.2 ⟨_, skip?_append hslash, rfl⟩)
      (ih rfl fun _ => ⟨rfl, hhead⟩)
  | @extension ts text h ih =>
    rw [squeeze_cons_of_ne (by decide)] at hafter
    have hdot : c.after = ".".toList ++ squeeze false text := hafter
    exact exists_way_cons (mem_ways_literal.2 ⟨_, skip?_append hdot, rfl⟩) (ih rfl (by simp))
  | @run piece ts text hpiece h ih =>
    rw [squeeze_append_of_notMem (toList_ne_nil_of_isRun hpiece) (slash_notMem_of_isRun hpiece)]
      at hafter
    exact exists_way_cons (mem_ways_literal.2 ⟨_, skip?_append hafter, rfl⟩) (ih rfl (by simp))
  | @var name x ts text hx hvalue hhead h ih =>
    rw [squeeze_append_of_notMem (isSegment_iff.1 hx).1 (slash_notMem_of_isSegment hx)] at hafter
    exact exists_way_cons (mem_varWays.2 ⟨x, _, hx, skip?_append hafter, rfl⟩) (ih rfl (by simp))
  | @splat name xs ts text hxs hvalue hhead h ih =>
    cases xs with
    | cons x xs =>
      rw [squeeze_joinSegments_append hxs] at hafter
      have hrest : (squeeze false text).head?.all isBoundary = true := by
        rw [head?_squeeze_false]
        exact h.head?_text hhead
      exact exists_way_cons (taking_mem_splatWays hxs hafter hrest) (ih rfl (by simp))
    | nil =>
      rw [joinSegments_nil, List.nil_append] at hafter
      cases hsep : ts.head?.all (!·.isSeparator) with
      | true =>
        exact exists_way_cons (mem_splatWays.2 (.inr (.inl rfl)))
          (ih hafter fun hf => ⟨(hflag hf).1, hsep⟩)
      | false =>
        cases flag with
        | false => exact exists_way_cons (mem_splatWays.2 (.inr (.inl rfl))) (ih hafter (by simp))
        | true =>
          -- The slash that comes next was left out behind the one before the cursor, which is
          -- given back.
          obtain ⟨back, rfl⟩ := h.exists_eq_slash_cons hsep
          obtain ⟨before, hbefore⟩ := List.head?_eq_some_iff.1 (hflag rfl).1
          have hback : c.giveBack? = some ⟨before, '/' :: c.after⟩ :=
            Cursor.giveBack?_eq_some_iff.2 ⟨hbefore, rfl⟩
          have hnext : '/' :: c.after = squeeze false ('/' :: back) := by
            rw [squeeze_false_slash, ← squeeze_true_slash, hafter]
          exact exists_way_cons (mem_splatWays.2 (.inr (.inr ⟨_, hback, rfl⟩))) (ih hnext (by simp))

theorem Template.isWritable_of_parse {text : String} {t : Template} (h : parse text = .ok t) :
    ∀ u ∈ t.tokens, u.isWritable = true := by
  have hcanonical := (parse_eq_ok_iff.1 h).2
  simp only [Tokens.isCanonical, Bool.and_eq_true] at hcanonical
  exact Tokens.isWritable_of_mem hcanonical.1.1

/-- A path that a template was filled in to is matched by it, if the path keeps its visible tokens
apart. -/
theorem Template.match?_isSome_of_format {text path : String} {t : Template} {b : Bindings}
    (ht : parse text = .ok t) (hpath : t.format b = .ok path)
    (hparted : Tokens.areParted (Tokens.visible b t.tokens) = true)
    (hsuits : ∀ u ∈ Tokens.visible b t.tokens, b.suits u = true) :
    (t.match? path).isSome = true := by
  obtain ⟨front, hfront, htoList⟩ := exists_rendered_of_format hpath
  rw [← Tokens.rendered_visible] at hfront
  have hfilled := filled_of_rendered (Tokens.depth_visible b t.tokens)
    (Tokens.isWritable_of_mem_visible (isWritable_of_parse ht)) hparted hsuits hfront
  obtain ⟨w, hw, hstop⟩ := hfilled.exists_way (c := Cursor.start path.toList) htoList (by simp)
  exact match?_isSome_of_mem_ways (Tokens.ways_visible_subset b _ _ hw) hstop

theorem Template.match?_isSome_of_format_splats :
    let t : Template := ⟨[.literal "/", .splat "a", .literal "/", .splat "b",
      .group [.literal "/", .var "c", .group [.literal ".", .var "d"]],
      .group [.literal "/", .splat none], .literal "/", .literal "x"]⟩
    let b := Bindings.ofList [("a", .many []), ("b", .many []), ("c", .one "q")]
    parse "/*a/*b(/:c(.:d))(/*)/x" = .ok t ∧ t.format b = .ok "/q/x" ∧
      Tokens.areParted (Tokens.visible b t.tokens) = true ∧
      (∀ u ∈ Tokens.visible b t.tokens, b.suits u = true) ∧ (t.match? "/q/x").isSome = true := by
  intro t b
  have ht : parse "/*a/*b(/:c(.:d))(/*)/x" = .ok t := parse_eq_ok_iff.2 ⟨rfl, rfl⟩
  have hpath : t.format b = .ok "/q/x" := rfl
  have hparted : Tokens.areParted (Tokens.visible b t.tokens) = true := by decide
  have hsuits : ∀ u ∈ Tokens.visible b t.tokens, b.suits u = true := by decide
  exact ⟨ht, hpath, hparted, hsuits, match?_isSome_of_format ht hpath hparted hsuits⟩

end RouteTemplate
