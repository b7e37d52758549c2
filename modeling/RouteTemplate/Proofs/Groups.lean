import RouteTemplate.Proofs.Ways

namespace RouteTemplate

theorem mem_ways_group {pre inner post : List Token} {c : Cursor} {w : Way} :
    w ∈ Tokens.ways (pre ++ [.group inner] ++ post) c ↔
      w ∈ Tokens.ways (pre ++ inner ++ post) c ∨ w ∈ Tokens.ways (pre ++ post) c := by
  rw [List.append_assoc, List.singleton_append, List.append_assoc]
  simp only [mem_ways_append, Tokens.ways_group, List.mem_append]
  constructor
  · rintro ⟨v, hv, u, hu | hu, rfl⟩
    · exact .inl ⟨v, hv, u, hu, rfl⟩
    · exact .inr ⟨v, hv, u, hu, rfl⟩
  · rintro (⟨v, hv, u, hu, rfl⟩ | ⟨v, hv, u, hu, rfl⟩)
    · exact ⟨v, hv, u, .inl hu, rfl⟩
    · exact ⟨v, hv, u, .inr hu, rfl⟩

/-- Literals lead to one place at most, so the ways behind them keep their order. -/
theorem ways_literals_group {pre : List Token} (hpre : ∀ t ∈ pre, ∃ text, t = .literal text)
    (inner post : List Token) (c : Cursor) :
    Tokens.ways (pre ++ [.group inner] ++ post) c =
      Tokens.ways (pre ++ inner ++ post) c ++ Tokens.ways (pre ++ post) c := by
  induction pre generalizing c with
  | nil => exact Tokens.ways_group inner post c
  | cons t pre ih =>
    obtain ⟨⟨text, rfl⟩, hrest⟩ := List.forall_mem_cons.1 hpre
    simp only [List.cons_append, Tokens.ways_cons, Token.ways_literal]
    cases c.skip? text.toList with
    | none => rfl
    | some d => simpa [Way.onward_nil] using ih hrest d

namespace Template

theorem match?_eq_or {t u v : Template} {path : String}
    (h : Tokens.ways t.tokens (Cursor.start path.toList) =
      Tokens.ways u.tokens (Cursor.start path.toList) ++
        Tokens.ways v.tokens (Cursor.start path.toList)) :
    t.match? path = (u.match? path).or (v.match? path) := by
  simp only [match?, Match.search_eq_outcome, List.flatten_singleton, h, Match.outcome_append]
  cases hfind : (Tokens.ways u.tokens (Cursor.start path.toList)).find? (·.stop.atEnd) <;>
    simp [Match.outcome, hfind]

/-- An optional group stands for two templates, and behind literals the one with the content has
precedence. -/
theorem match?_group (pre inner post : List Token) (path : String) :
    ((match? ⟨pre ++ [.group inner] ++ post⟩ path).isSome = true ↔
      (match? ⟨pre ++ inner ++ post⟩ path).isSome = true ∨
        (match? ⟨pre ++ post⟩ path).isSome = true) ∧
    ((∀ t ∈ pre, ∃ text, t = .literal text) →
      match? ⟨pre ++ [.group inner] ++ post⟩ path =
        (match? ⟨pre ++ inner ++ post⟩ path).or (match? ⟨pre ++ post⟩ path)) := by
  constructor
  · simp only [match?_isSome_iff, mem_ways_group, or_and_right, exists_or]
  · intro hpre
    exact match?_eq_or (ways_literals_group hpre inner post _)

theorem match?_group_left_out :
    let pre : List Token := [.literal "/", .literal "foo"]
    let inner : List Token := [.literal "/", .var "bar"]
    let post : List Token := [.splat "baz"]
    (∀ t ∈ pre, ∃ text, t = .literal text) ∧ match? ⟨pre ++ inner ++ post⟩ "/foo" = none ∧
      match? ⟨pre ++ [.group inner] ++ post⟩ "/foo" =
        some (Bindings.ofList [("baz", .many [])]) := by
  intro pre inner post
  have hpre : ∀ t ∈ pre, ∃ text, t = .literal text := by simp [pre]
  have hwith : match? ⟨pre ++ inner ++ post⟩ "/foo" = none := by
    rw [match?, Match.search_eq_outcome]
    rfl
  have hwithout : match? ⟨pre ++ post⟩ "/foo" = some (Bindings.ofList [("baz", .many [])]) := by
    rw [match?, Match.search_eq_outcome]
    rfl
  have hgroup := (match?_group pre inner post "/foo").2 hpre
  rw [hwith, hwithout] at hgroup
  exact ⟨hpre, hwith, hgroup⟩

end Template

end RouteTemplate
