import RouteTemplate.Proofs.Appending
import RouteTemplate.Proofs.Separators
import RouteTemplate.Template.Format

namespace RouteTemplate

namespace Template

theorem getLast?_of_endsWithSeparator {b : Bindings} {t : Template} {text : List Char}
    (hlast : t.endsWithSeparator = true) (h : Tokens.rendered b t.tokens = .ok text) :
    text.getLast? = some '/' := by
  obtain ⟨u, hu, hseparator⟩ := (Option.any_eq_true _ _).1 hlast
  obtain ⟨ts, htokens⟩ := List.getLast?_eq_some_iff.1 hu
  obtain rfl := Token.isSeparator_iff.1 hseparator
  rw [htokens] at h
  cases hfront : Tokens.rendered b ts with
  | error e =>
    rw [Tokens.rendered_append_of_error hfront] at h
    cases h
  | ok front =>
    have hslash : Tokens.rendered b [.separator] = .ok ['/'] := rfl
    rw [Tokens.rendered_append_of_ok hfront hslash] at h
    rw [← Except.ok.inj h]
    exact List.getLast?_concat

section

variable {b : Bindings} {t : Template} {addition : List Token}

theorem rendered_joinTokens_of_error {e : FormatError}
    (ht : Tokens.rendered b t.tokens = .error e) :
    Tokens.rendered b (t.joinTokens addition) = .error e :=
  Tokens.rendered_append_of_error ht _

theorem rendered_joinTokens_of_addition_error {front : List Char} {e : FormatError}
    (ht : Tokens.rendered b t.tokens = .ok front)
    (haddition : Tokens.rendered b addition = .error e) :
    Tokens.rendered b (t.joinTokens addition) = .error e := by
  apply Tokens.rendered_append_of_ok_error ht
  split
  · exact haddition
  · have hslash : Token.separator.rendered b = .ok ['/'] := rfl
    rw [Tokens.rendered_cons_of_ok hslash, haddition]
    rfl

/-- But for repeated slashes, the texts are joined by a slash or by an extension. -/
theorem exists_rendered_joinTokens {front back : List Char}
    (ht : Tokens.rendered b t.tokens = .ok front)
    (haddition : Tokens.rendered b addition = .ok back) :
    ∃ text, Tokens.rendered b (t.joinTokens addition) = .ok text ∧
      squeeze false text = squeeze false
        (front ++ (if addition.head?.any Token.isExtension = true then [] else ['/']) ++ back) := by
  have hdirect := Tokens.rendered_append_of_ok ht haddition
  cases hextension : addition.head?.any Token.isExtension with
  | true =>
    refine ⟨front ++ back, ?_, by simp⟩
    rw [joinTokens, hextension, Bool.or_true, if_pos rfl, hdirect]
  | false =>
    cases hlast : t.endsWithSeparator with
    | true =>
      refine ⟨front ++ back, ?_, ?_⟩
      · rw [joinTokens, hlast, Bool.true_or, if_pos rfl, hdirect]
      · have hslash := squeeze_slash_of_getLast? (getLast?_of_endsWithSeparator hlast ht) back
        simpa using hslash.symm
    | false =>
      have hslash : Token.separator.rendered b = .ok ['/'] := rfl
      have hback : Tokens.rendered b (.separator :: addition) = .ok (['/'] ++ back) := by
        rw [Tokens.rendered_cons_of_ok hslash, haddition]
        rfl
      refine ⟨front ++ (['/'] ++ back), ?_, by simp⟩
      rw [joinTokens, hlast, hextension, Bool.or_false, if_neg Bool.false_ne_true,
        Tokens.rendered_append_of_ok ht hback]

end

/-- A template with a fragment behind it comes to their two paths joined, or to the first fault. -/
theorem format_append {t u : Template} {fragment : String} (h : t.append fragment = .ok u) :
    let addition := withoutLeadingSeparator fragment.toList
    let joiner := if addition.head? = some '.' then "" else "/"
    ∃ v, parse (String.ofList addition) = .ok v ∧ ∀ b, u.format b = do
      let front ← t.format b
      let back ← v.format b
      return collapse (front ++ joiner ++ back) := by
  intro addition joiner
  obtain ⟨us, hparse, -, rfl⟩ := append_eq_ok_iff.1 h
  have hv : parse (String.ofList addition) = .ok ⟨us⟩ := parse_ofList_eq_ok_iff.2 hparse
  have hdot : us.head?.any Token.isExtension = true ↔ addition.head? = some '.' :=
    any_isExtension_iff_of_parse hv
  refine ⟨⟨us⟩, hv, fun b => ?_⟩
  cases ht : Tokens.rendered b t.tokens with
  | error e =>
    have hu : format ⟨t.joinTokens us⟩ b = .error e :=
      format_of_rendered_error (rendered_joinTokens_of_error ht)
    rw [hu, format_of_rendered_error ht]
    rfl
  | ok front =>
    cases hus : Tokens.rendered b us with
    | error e =>
      have hu : format ⟨t.joinTokens us⟩ b = .error e :=
        format_of_rendered_error (rendered_joinTokens_of_addition_error ht hus)
      have hv : format ⟨us⟩ b = .error e := format_of_rendered_error hus
      rw [hu, format_of_rendered ht, hv]
      rfl
    | ok back =>
      obtain ⟨text, htext, hsqueeze⟩ := exists_rendered_joinTokens ht hus
      have hu : format ⟨t.joinTokens us⟩ b = .ok (collapse (String.ofList text)) :=
        format_of_rendered htext
      have hv : format ⟨us⟩ b = .ok (collapse (String.ofList back)) := format_of_rendered hus
      have hpath : collapse (String.ofList text) =
          collapse (String.ofList front ++ joiner ++ String.ofList back) := by
        rw [collapse_eq, collapse_eq, String.toList_ofList, hsqueeze]
        by_cases hhead : addition.head? = some '.' <;> simp [joiner, hdot, hhead]
      rw [hu, format_of_rendered ht, hv, hpath, ← collapse_append_collapse]
      rfl

theorem format_append_repeated_slash :
    let t : Template := ⟨[.literal "/", .splat "a", .separator]⟩
    let u : Template :=
      ⟨[.literal "/", .splat "a", .separator, .var "b", .group [.literal ".", .var "c"]]⟩
    let v : Template := ⟨[.var "b", .group [.literal ".", .var "c"]]⟩
    let b := Bindings.ofList [("a", .one "x//"), ("b", .one "/y")]
    t.append "/:b(.:c)" = .ok u ∧ parse ":b(.:c)" = .ok v ∧ t.format b = .ok "/x/" ∧
      v.format b = .ok "/y" ∧ u.format b = .ok "/x/y" ∧
      u.format {} = .error (.unboundVariable "b") := by
  intro t u v b
  have hv : parse ":b(.:c)" = .ok v := parse_eq_ok_iff.2 ⟨rfl, rfl⟩
  have hu : t.append "/:b(.:c)" = .ok u :=
    append_eq_ok_iff.2 ⟨v.tokens, parse_eq_ok_iff_tokens.1 hv, by decide, rfl⟩
  have hfront : t.format b = .ok "/x/" := rfl
  have hback : v.format b = .ok "/y" := rfl
  have hmissing : v.format {} = .error (.unboundVariable "b") := rfl
  obtain ⟨v', hv', hjoined⟩ := format_append hu
  obtain rfl : v = v' := Except.ok.inj (hv.symm.trans hv')
  refine ⟨hu, hv, hfront, hback, ?_, ?_⟩
  · rw [hjoined, hfront, hback]
    rfl
  · rw [hjoined, hmissing]
    rfl

end Template

end RouteTemplate
