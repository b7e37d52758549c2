import RouteTemplate.Proofs.Ways
import RouteTemplate.Template.Format

namespace RouteTemplate

/-- Tokens in the middle can be replaced by tokens that take whatever they take. -/
theorem exists_way_of_middle {ts us : List Token}
    (h : ∀ c, ∀ w ∈ Tokens.ways ts c, ∃ v ∈ Tokens.ways us c, v.stop = w.stop)
    {pre post : List Token} {c : Cursor} {w : Way} (hw : w ∈ Tokens.ways (pre ++ ts ++ post) c) :
    ∃ v ∈ Tokens.ways (pre ++ us ++ post) c, v.stop = w.stop := by
  obtain ⟨front, hfront, back, hback, rfl⟩ := mem_ways_append.1 hw
  obtain ⟨p, hp, m, hm, rfl⟩ := mem_ways_append.1 hfront
  obtain ⟨m', hm', hstop⟩ := h _ m hm
  have hfront' := mem_ways_append.2 ⟨p, hp, m', hm', rfl⟩
  refine ⟨_, mem_ways_append.2 ⟨_, hfront', back, ?_, rfl⟩, rfl⟩
  rw [show (p.followedBy m').stop = (p.followedBy m).stop from hstop]
  exact hback

namespace Template

theorem match?_isSome_of_middle {ts us : List Token}
    (h : ∀ c, ∀ w ∈ Tokens.ways ts c, ∃ v ∈ Tokens.ways us c, v.stop = w.stop)
    {pre post : List Token} {path : String}
    (hts : (match? ⟨pre ++ ts ++ post⟩ path).isSome = true) :
    (match? ⟨pre ++ us ++ post⟩ path).isSome = true := by
  obtain ⟨w, hw, hstop⟩ := match?_isSome_iff.1 hts
  obtain ⟨v, hv, hsame⟩ := exists_way_of_middle h hw
  exact match?_isSome_iff.2 ⟨v, hv, by rw [hsame, hstop]⟩

theorem format_middle {b : Bindings} {ts us : List Token} {x y : List Char}
    (hts : Tokens.rendered b ts = .ok x) (hus : Tokens.rendered b us = .ok y)
    (h : ∀ front back, squeeze false (front ++ x ++ back) = squeeze false (front ++ y ++ back))
    (pre post : List Token) : format ⟨pre ++ ts ++ post⟩ b = format ⟨pre ++ us ++ post⟩ b := by
  cases hpre : Tokens.rendered b pre with
  | error e =>
    have herror : ∀ ms, format ⟨pre ++ ms ++ post⟩ b = .error e := fun ms =>
      format_of_rendered_error
        (Tokens.rendered_append_of_error (Tokens.rendered_append_of_error hpre ms) post)
    rw [herror, herror]
  | ok front =>
    have hts := Tokens.rendered_append_of_ok hpre hts
    have hus := Tokens.rendered_append_of_ok hpre hus
    cases hpost : Tokens.rendered b post with
    | error e =>
      have hleft : format ⟨pre ++ ts ++ post⟩ b = .error e :=
        format_of_rendered_error (Tokens.rendered_append_of_ok_error hts hpost)
      have hright : format ⟨pre ++ us ++ post⟩ b = .error e :=
        format_of_rendered_error (Tokens.rendered_append_of_ok_error hus hpost)
      rw [hleft, hright]
    | ok back =>
      have hleft : format ⟨pre ++ ts ++ post⟩ b =
          .ok (collapse (String.ofList (front ++ x ++ back))) :=
        format_of_rendered (Tokens.rendered_append_of_ok hts hpost)
      have hright : format ⟨pre ++ us ++ post⟩ b =
          .ok (collapse (String.ofList (front ++ y ++ back))) :=
        format_of_rendered (Tokens.rendered_append_of_ok hus hpost)
      rw [hleft, hright, collapse_eq, collapse_eq, String.toList_ofList, String.toList_ofList, h]

end Template

/-- A splat behind a separator can give the slash back, so that the separator behind the splat takes
it again. -/
theorem exists_way_of_separator (name : Option String) (c : Cursor) :
    ∀ w ∈ Tokens.ways [.separator] c,
      ∃ v ∈ Tokens.ways [.separator, .splat name, .separator] c, v.stop = w.stop := by
  intro w hw
  obtain ⟨v, hv, u, hu, rfl⟩ := mem_ways_cons.1 hw
  obtain ⟨d, hskip, rfl⟩ := mem_ways_literal.1 hv
  obtain rfl := List.mem_singleton.1 hu
  obtain ⟨hafter, hbefore⟩ := Cursor.skip?_eq_some_iff.1 hskip
  have hback : d.giveBack? = some c := Cursor.giveBack?_eq_some_iff.2 ⟨hbefore, hafter⟩
  have hsplat : .taking name (.many []) c ∈ (Token.splat name).ways d :=
    mem_splatWays.2 (.inr (.inr ⟨c, hback, rfl⟩))
  have hlast := mem_ways_cons.2 ⟨_, hsplat, _, hw, rfl⟩
  exact ⟨_, mem_ways_cons.2 ⟨_, hv, _, hlast, rfl⟩, rfl⟩

theorem rendered_separators {b : Bindings} {name : Option String}
    (h : ∀ value, name.bind b.get? = some value → value.render = "") :
    Tokens.rendered b [.separator, .splat name, .separator] = .ok ['/', '/'] := by
  have hsplat : (Token.splat name).rendered b = .ok [] := by
    rw [rendered_splat]
    cases hvalue : name.bind b.get? with
    | none => rfl
    | some value => simp [h value hvalue]
  rw [Tokens.rendered_cons_of_ok rfl, Tokens.rendered_cons_of_ok hsplat]
  rfl

namespace Template

/-- A splat between separators can take nothing, and then one separator stands for all three. -/
theorem splat_between_separators (pre post : List Token) (name : Option String) :
    (∀ path, (match? ⟨pre ++ [.separator] ++ post⟩ path).isSome = true →
      (match? ⟨pre ++ [.separator, .splat name, .separator] ++ post⟩ path).isSome = true) ∧
    ∀ b : Bindings, (∀ value, name.bind b.get? = some value → value.render = "") →
      format ⟨pre ++ [.separator, .splat name, .separator] ++ post⟩ b =
        format ⟨pre ++ [.separator] ++ post⟩ b := by
  constructor
  · intro path hpath
    exact match?_isSome_of_middle (exists_way_of_separator name) hpath
  · intro b hempty
    refine format_middle (rendered_separators hempty) rfl (fun front back => ?_) pre post
    rw [List.append_assoc, List.append_assoc]
    exact squeeze_doubled false front back

theorem splat_between_separators_behind_choices :
    let pre : List Token := [.separator, .splat "dirs", .group [.separator, .var "user"]]
    let post : List Token := [.var "name", .group [.extension, .var "ext"]]
    let b := Bindings.ofList [("types", .many []), ("dirs", .many ["a", "b"]), ("name", .one "c")]
    (match? ⟨pre ++ [.separator] ++ post⟩ "/a/b/c.txt").isSome = true ∧
      (match? ⟨pre ++ [.separator, .splat "types", .separator] ++ post⟩
        "/a/b/c.txt").isSome = true ∧
      (∀ value, (some "types").bind b.get? = some value → value.render = "") ∧
      format ⟨pre ++ [.separator, .splat "types", .separator] ++ post⟩ b = .ok "/a/b/c" := by
  intro pre post b
  have hmatch : (match? ⟨pre ++ [.separator] ++ post⟩ "/a/b/c.txt").isSome = true := by
    rw [match?, Match.search_eq_outcome]
    rfl
  have hempty : ∀ value, (some "types").bind b.get? = some value → value.render = "" := by
    rintro value ⟨⟩
    rfl
  have hformat : format ⟨pre ++ [.separator] ++ post⟩ b = .ok "/a/b/c" := rfl
  obtain ⟨hmatches, hformats⟩ := splat_between_separators pre post "types"
  exact ⟨hmatch, hmatches _ hmatch, hempty, (hformats b hempty).trans hformat⟩

end Template

end RouteTemplate
