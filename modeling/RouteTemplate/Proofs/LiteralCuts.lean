import RouteTemplate.Proofs.FirstWay
import RouteTemplate.Template.Format
import RouteTemplate.Token.Merged

namespace RouteTemplate

namespace Tokens

theorem ignoresCuts_spelling : IgnoresCuts spelling where
  empty ts := by simp [spelling, Token.spelling]
  join x y ts := by simp [spelling, Token.spelling]
  cons t ts us h := by rw [spelling, h, spelling]
  group inner other ts h := by rw [spelling, Token.spelling, h, spelling, Token.spelling]

theorem ignoresCuts_names : IgnoresCuts names where
  empty ts := rfl
  join x y ts := rfl
  cons t ts us h := by rw [names, h, names]
  group inner other ts h := by rw [names, Token.names, h, names, Token.names]

theorem ignoresCuts_choicePoints : IgnoresCuts choicePoints where
  empty ts := Nat.zero_add _
  join x y ts := Nat.zero_add _
  cons t ts us h := by rw [choicePoints, h, choicePoints]
  group inner other ts h := by
    rw [choicePoints, Token.choicePoints, h, choicePoints, Token.choicePoints]

theorem rendered_literal_cons (b : Bindings) (text : String) (ts : List Token) :
    rendered b (.literal text :: ts) = (rendered b ts).map (text.toList ++ ·) :=
  rendered_cons_of_ok rfl ts

/-- A group comes to its text only if its content is satisfied, so the two go together. -/
theorem ignoresCuts_rendered (b : Bindings) :
    IgnoresCuts fun ts => (b.satisfies ts, rendered b ts) where
  empty ts := by
    rw [rendered_literal_cons]
    cases rendered b ts <;> rfl
  join x y ts := by
    simp only [rendered_literal_cons, String.toList_append]
    cases rendered b ts <;> simp [Except.map, Bindings.satisfies]
  cons t ts us h := by
    obtain ⟨hsatisfies, hrendered⟩ := Prod.mk.inj h
    rw [Bindings.satisfies_cons, hsatisfies, ← Bindings.satisfies_cons, rendered, hrendered,
      ← rendered]
  group inner other ts h := by
    obtain ⟨hsatisfies, hrendered⟩ := Prod.mk.inj h
    have hgroup : (Token.group inner).rendered b = (Token.group other).rendered b := by
      rw [Token.rendered, hsatisfies, hrendered, Token.rendered]
    rw [rendered, hgroup, ← rendered]
    rfl

theorem skip?_append_eq_bind (x y : List Char) (c : Cursor) :
    c.skip? (x ++ y) = (c.skip? x).bind (Cursor.skip? y) := by
  induction x generalizing c with
  | nil => rfl
  | cons d x ih =>
    obtain ⟨before, _ | ⟨e, after⟩⟩ := c
    · rfl
    · by_cases hd : d = e
      · simp [Cursor.skip?, hd, ih]
      · simp [Cursor.skip?, hd]

theorem ways_literal_cons (text : String) (ts : List Token) (c : Cursor) :
    ways (.literal text :: ts) c = (c.skip? text.toList).toList.flatMap (ways ts) := by
  rw [ways_cons, Token.ways_literal, List.flatMap_map]
  congr 1
  funext d
  exact Way.onward_nil ts d

theorem ignoresCuts_ways : IgnoresCuts ways where
  empty ts := by
    funext c
    rw [ways_literal_cons, String.toList_empty, Cursor.skip?, Option.toList_some,
      List.flatMap_singleton]
  join x y ts := by
    funext c
    simp only [ways_literal_cons, String.toList_append, skip?_append_eq_bind]
    cases c.skip? x.toList <;> simp [ways_literal_cons]
  cons t ts us h := by
    have honward : Way.onward ts = Way.onward us := by
      funext w
      rw [Way.onward, h, Way.onward]
    funext c
    rw [ways_cons, honward, ways_cons]
  group inner other ts h := by
    funext c
    rw [ways_cons, Token.ways, h, ways_cons, Token.ways]

end Tokens

namespace Template

/-- Cuts between literals make no difference to anything a template does. -/
theorem alike_of_merged_eq {t u : Template} (h : Tokens.merged t.tokens = Tokens.merged u.tokens) :
    t.text = u.text ∧ t.names = u.names ∧ t.choicePoints = u.choicePoints ∧
      (∀ b, t.format b = u.format b) ∧ ∀ path, t.match? path = u.match? path := by
  refine ⟨?_, Tokens.ignoresCuts_names.eq_of_merged_eq h,
    Tokens.ignoresCuts_choicePoints.eq_of_merged_eq h, fun b => ?_, fun path => ?_⟩
  · rw [text, Tokens.ignoresCuts_spelling.eq_of_merged_eq h, text]
  · have hrendered : Tokens.rendered b t.tokens = Tokens.rendered b u.tokens :=
      congrArg Prod.snd ((Tokens.ignoresCuts_rendered b).eq_of_merged_eq h)
    rw [format, hrendered, format]
  · have hways := Tokens.ignoresCuts_ways.eq_of_merged_eq h
    simp only [match?, Match.search_eq_outcome, List.flatten_singleton, hways]

theorem alike_of_merged_eq_nested :
    let t : Template := ⟨[.literal "/", .literal "", .literal "a/", .splat "x", .literal "/b",
      .group [.literal ".", .group [.literal ""], .var "y", .literal ""], .literal "",
      .literal "/c"]⟩
    let u : Template := ⟨[.literal "/a", .literal "/", .splat "x", .literal "/", .literal "b",
      .group [.literal ".", .group [], .var "y"], .literal "/", .literal "c"]⟩
    let b := Bindings.ofList [("y", .one "z")]
    Tokens.merged t.tokens = Tokens.merged u.tokens ∧ t.text = u.text ∧ t.names = u.names ∧
      t.choicePoints = u.choicePoints ∧ t.format b = .ok "/a/b.z/c" ∧
      t.match? "/a/b/c" = some (Bindings.ofList [("x", .many [])]) := by
  intro t u b
  have hmerged : Tokens.merged t.tokens = Tokens.merged u.tokens := by decide
  have hformat : u.format b = .ok "/a/b.z/c" := rfl
  have hmatch : u.match? "/a/b/c" = some (Bindings.ofList [("x", .many [])]) := by
    rw [match?, Match.search_eq_outcome]
    rfl
  obtain ⟨htext, hnames, hpoints, hformats, hmatches⟩ := alike_of_merged_eq hmerged
  exact ⟨hmerged, htext, hnames, hpoints, (hformats b).trans hformat, (hmatches _).trans hmatch⟩

end Template

end RouteTemplate
