import RouteTemplate.Proofs.Filled

namespace RouteTemplate

namespace Tokens

theorem rendered_visible (b : Bindings) (ts : List Token) :
    rendered b (visible b ts) = rendered b ts := by
  induction ts using Tokens.induction with
  | nil => rfl
  | literal text ts ih =>
    rw [visible, Token.visible, rendered_append, rendered_singleton, ih, rendered]
  | var name ts ih => rw [visible, Token.visible, rendered_append, rendered_singleton, ih, rendered]
  | splat name ts ih =>
    rw [visible, Token.visible, rendered_append, rendered_singleton, ih, rendered]
  | group inner ts hinner ih =>
    rw [visible, Token.visible, rendered_append, ih, rendered, Token.rendered]
    split
    · rw [hinner]
    · rfl

theorem depth_visible (b : Bindings) (ts : List Token) : depth (visible b ts) = 0 := by
  induction ts using Tokens.induction with
  | nil => rfl
  | literal text ts ih => simp [visible, Token.visible, depth, Token.depth, ih]
  | var name ts ih => simp [visible, Token.visible, depth, Token.depth, ih]
  | splat name ts ih => simp [visible, Token.visible, depth, Token.depth, ih]
  | group inner ts hinner ih =>
    rw [visible, Token.visible, depth_append, ih]
    split
    · rw [hinner, Nat.max_self]
    · rfl

end Tokens

theorem satisfies_eq_all_filter (b : Bindings) (ts : List Token) :
    b.satisfies ts = (ts.filter Token.isCapture).all fun t => t.name?.any b.contains := by
  rw [Bindings.satisfies, List.all_filter]
  congr 1
  funext t
  cases t <;> simp [Token.isCapture, Token.name?]

theorem Leaf.isVisible_eq (b : Bindings) (leaf : Leaf) :
    leaf.isVisible b = leaf.groups.all b.satisfies := by
  rw [isVisible]
  congr 1
  funext inner
  exact (satisfies_eq_all_filter b inner).symm

theorem map_token_filter_leaf (b : Bindings) (groups : List (List Token)) (t : Token) :
    ([Leaf.mk groups t].filter (·.isVisible b)).map Leaf.token =
      if groups.all b.satisfies then [t] else [] := by
  by_cases h : groups.all b.satisfies <;> simp [Leaf.isVisible_eq, h]

/-- The visible leaves are the visible tokens, if the groups around all of them appear. -/
theorem Tokens.map_token_filter_leaves (b : Bindings) (groups : List (List Token))
    (ts : List Token) :
    ((leaves groups ts).filter (·.isVisible b)).map Leaf.token =
      if groups.all b.satisfies then visible b ts else [] := by
  induction ts using Tokens.induction generalizing groups with
  | nil => simp [leaves, visible]
  | literal text ts ih =>
    rw [leaves, Token.leaves, List.filter_append, List.map_append, map_token_filter_leaf, ih]
    split <;> rfl
  | var name ts ih =>
    rw [leaves, Token.leaves, List.filter_append, List.map_append, map_token_filter_leaf, ih]
    split <;> rfl
  | splat name ts ih =>
    rw [leaves, Token.leaves, List.filter_append, List.map_append, map_token_filter_leaf, ih]
    split <;> rfl
  | group inner ts hinner ih =>
    -- Inside the group its content counts as well, so a group left out hides all that is in it.
    rw [leaves, Token.leaves, List.filter_append, List.map_append, hinner, ih, visible,
      Token.visible, List.all_cons]
    by_cases h : groups.all b.satisfies <;> by_cases hinner : b.satisfies inner <;>
      simp [h, hinner]

theorem Token.eq_written_of_rendered {b : Bindings} {t : Token} {text : List Char}
    (hflat : t.depth = 0) (h : t.rendered b = .ok text) : text = t.written b := by
  cases t with
  | literal piece => exact (Except.ok.inj h).symm
  | var name =>
    cases name with
    | none => cases h
    | some n => cases hn : b.get? n <;> simp_all [rendered, written, name?]
  | splat name =>
    rw [rendered_splat] at h
    obtain rfl := Except.ok.inj h
    change _ = ((name.bind b.get?).map (·.render.toList)).getD []
    cases name.bind b.get? <;> rfl
  | group inner => simp [depth] at hflat

theorem Tokens.eq_flatMap_written_of_rendered {b : Bindings} {ts : List Token} {text : List Char}
    (hflat : depth ts = 0) (h : rendered b ts = .ok text) :
    text = ts.flatMap (Token.written b) := by
  induction ts generalizing text with
  | nil => exact (Except.ok.inj h).symm
  | cons t ts ih =>
    obtain ⟨front, back, hfront, hback, rfl⟩ := rendered_cons_eq_ok h
    have hdepth : t.depth = 0 ∧ depth ts = 0 := by
      rw [depth] at hflat
      omega
    rw [List.flatMap_cons, Token.eq_written_of_rendered hdepth.1 hfront, ih hdepth.2 hback]

theorem exists_rendered_of_format {t : Template} {b : Bindings} {path : String}
    (h : t.format b = .ok path) :
    ∃ text, Tokens.rendered b t.tokens = .ok text ∧ path.toList = squeeze false text := by
  cases htext : Tokens.rendered b t.tokens with
  | error e =>
    rw [Template.format_of_rendered_error htext] at h
    cases h
  | ok text =>
    rw [Template.format_of_rendered htext] at h
    refine ⟨text, rfl, ?_⟩
    rw [← Except.ok.inj h, toList_collapse, String.toList_ofList]

/-- A path holds the texts of the visible leaves, with each row of slashes collapsed to one. -/
theorem Template.format_eq_visible_leaves {t : Template} {b : Bindings} {path : String}
    (h : t.format b = .ok path) :
    path = collapse (String.ofList
        ((t.leaves.filter (·.isVisible b)).flatMap fun leaf => leaf.token.written b)) ∧
      ¬ ['/', '/'] <:+: path.toList := by
  obtain ⟨text, htext, hpath⟩ := exists_rendered_of_format h
  have hvisible := Tokens.map_token_filter_leaves b [] t.tokens
  rw [List.all_nil, if_pos rfl] at hvisible
  rw [← Tokens.rendered_visible] at htext
  have hwritten := Tokens.eq_flatMap_written_of_rendered (Tokens.depth_visible b t.tokens) htext
  rw [← hvisible, List.flatMap_map] at hwritten
  constructor
  · rw [collapse_eq, String.toList_ofList, leaves, ← hwritten, ← hpath, String.ofList_toList]
  · rw [hpath]
    exact doubled_notInfix_squeeze false text

theorem Template.format_eq_visible_leaves_nested :
    let t : Template := ⟨[.literal "/a", .group [.literal "/", .var "x", .group [.literal "/q"]],
      .group [.literal "/r", .group [.literal "/", .var "y"], .group [.literal "/", .splat none]],
      .splat none, .literal "/", .splat "z"]⟩
    let b := Bindings.ofList [("y", .one "/v"), ("z", .many ["s", "t"])]
    t.format b = .ok "/a/r/v/s/t" ∧ "/a/r/v/s/t" = collapse (String.ofList
        ((t.leaves.filter (·.isVisible b)).flatMap fun leaf => leaf.token.written b)) ∧
      ¬ ['/', '/'] <:+: "/a/r/v/s/t".toList := by
  intro t b
  have hformat : t.format b = .ok "/a/r/v/s/t" := rfl
  exact ⟨hformat, format_eq_visible_leaves hformat⟩

end RouteTemplate
