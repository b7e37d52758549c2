import RouteTemplate.Template.Format

namespace RouteTemplate

/-- The fault of a variable that has no name, or a name without a value. -/
def Token.missing? (b : Bindings) : Token → Option FormatError
  | .var none => some .anonymousVariable
  | .var (some name) => if b.contains name then none else some (.unboundVariable name)
  | _ => none

theorem Token.missing?_var (b : Bindings) (name : Option String) :
    (var name).missing? b =
      if name.bind b.get? = none then some (name.elim .anonymousVariable .unboundVariable)
      else none := by
  cases name with
  | none => rfl
  | some n => cases h : b.get? n <;> simp [missing?, Bindings.contains, h]

theorem Token.missing?_eq_some_iff {b : Bindings} {t : Token} {e : FormatError} :
    t.missing? b = some e ↔ ∃ name, t = .var name ∧ name.bind b.get? = none ∧
      name.elim .anonymousVariable .unboundVariable = e := by
  cases t with
  | literal text => simp [missing?]
  | var name => simp [missing?_var]
  | splat name => simp [missing?]
  | group inner => simp [missing?]

theorem Token.missing?_eq_none_iff {b : Bindings} {t : Token} :
    t.missing? b = none ↔ ∀ name, t = .var name → name.bind b.get? ≠ none := by
  rw [Option.eq_none_iff_forall_ne_some]
  simp only [ne_eq, missing?_eq_some_iff, not_exists, not_and]
  constructor
  · intro h name ht hname
    exact h _ name ht hname rfl
  · intro h e name ht hname
    exact absurd hname (h name ht)

theorem rendered_var_of_contains {b : Bindings} {name : String} (h : b.contains name = true) :
    ∃ text, (Token.var (some name)).rendered b = .ok text := by
  obtain ⟨value, hvalue⟩ := Option.isSome_iff_exists.1 h
  exact ⟨value.render.toList, by simp [Token.rendered, hvalue]⟩

theorem exists_rendered_group_of {b : Bindings} {inner : List Token}
    (h : b.satisfies inner = true → ∃ text, Tokens.rendered b inner = .ok text) :
    ∃ text, (Token.group inner).rendered b = .ok text := by
  rw [Token.rendered]
  split
  · rename_i hsatisfied
    exact h hsatisfied
  · exact ⟨[], rfl⟩

theorem exists_rendered_cons {b : Bindings} {t : Token} {ts : List Token}
    (hfront : ∃ front, t.rendered b = .ok front) (hback : ∃ back, Tokens.rendered b ts = .ok back) :
    ∃ text, Tokens.rendered b (t :: ts) = .ok text := by
  obtain ⟨front, hfront⟩ := hfront
  obtain ⟨back, hback⟩ := hback
  refine ⟨front ++ back, ?_⟩
  rw [Tokens.rendered_cons_of_ok hfront, hback]
  rfl

/-- A group that appears can be filled in, whatever groups are inside it. -/
theorem Tokens.exists_rendered_of_satisfies {b : Bindings} {ts : List Token}
    (h : b.satisfies ts = true) : ∃ text, rendered b ts = .ok text := by
  induction ts using Tokens.induction with
  | nil => exact ⟨[], rfl⟩
  | literal text ts ih => exact exists_rendered_cons ⟨_, rfl⟩ (ih h)
  | var name ts ih =>
    obtain ⟨hname, hts⟩ := Bool.and_eq_true_iff.1 h
    obtain ⟨n, rfl, hn⟩ := (Option.any_eq_true _ _).1 hname
    exact exists_rendered_cons (rendered_var_of_contains hn) (ih hts)
  | splat name ts ih =>
    have hts := (Bool.and_eq_true_iff.1 h).2
    exact exists_rendered_cons ⟨_, rendered_splat b name⟩ (ih hts)
  | group inner ts hinner ih =>
    -- A group inside that is not satisfied is left out, so only one that appears matters.
    exact exists_rendered_cons (exists_rendered_group_of hinner) (ih h)

theorem exists_rendered_group (b : Bindings) (inner : List Token) :
    ∃ text, (Token.group inner).rendered b = .ok text :=
  exists_rendered_group_of Tokens.exists_rendered_of_satisfies

theorem Token.rendered_eq_error_iff {b : Bindings} {t : Token} {e : FormatError} :
    t.rendered b = .error e ↔ t.missing? b = some e := by
  cases t with
  | literal text => simp [rendered, missing?]
  | var name =>
    cases name with
    | none => simp [rendered, missing?]
    | some n => cases h : b.get? n <;> simp [rendered, missing?, Bindings.contains, h]
  | splat name => simp [rendered_splat, missing?]
  | group inner =>
    obtain ⟨text, htext⟩ := exists_rendered_group b inner
    simp [htext, missing?]

theorem Tokens.rendered_eq_error_iff {b : Bindings} {ts : List Token} {e : FormatError} :
    rendered b ts = .error e ↔ ts.findSome? (Token.missing? b) = some e := by
  induction ts with
  | nil => simp [rendered]
  | cons t ts ih =>
    rw [List.findSome?_cons]
    cases ht : t.rendered b with
    | error e' =>
      rw [rendered_cons_of_error ht, Token.rendered_eq_error_iff.1 ht]
      simp
    | ok front =>
      have hnone : t.missing? b = none := by
        rw [Option.eq_none_iff_forall_ne_some]
        intro e' he'
        rw [Token.rendered_eq_error_iff.2 he'] at ht
        cases ht
      rw [rendered_cons_of_ok ht, hnone, ← ih]
      cases rendered b ts <;> simp [Except.map]

namespace Template

theorem format_eq_error_iff_findSome? {t : Template} {b : Bindings} {e : FormatError} :
    t.format b = .error e ↔ t.tokens.findSome? (Token.missing? b) = some e := by
  rw [← Tokens.rendered_eq_error_iff, format_eq_map_collapse]
  cases Tokens.rendered b t.tokens <;> simp [Except.map]

/-- Filling in fails at the first variable outside groups that has no name or no value. -/
theorem format_eq_error_iff (t : Template) (b : Bindings) :
    ((∃ e, t.format b = .error e) ↔ ∃ name, .var name ∈ t.tokens ∧ name.bind b.get? = none) ∧
      (∀ e, t.format b = .error e ↔ ∃ front name back, t.tokens = front ++ .var name :: back ∧
        (∀ other, .var other ∈ front → other.bind b.get? ≠ none) ∧ name.bind b.get? = none ∧
        name.elim .anonymousVariable .unboundVariable = e) ∧
      ∀ front inner back e, format ⟨front ++ .group inner :: back⟩ b = .error e ↔
        format ⟨front ++ back⟩ b = .error e := by
  simp only [format_eq_error_iff_findSome?]
  refine ⟨?_, fun e => ?_, fun front inner back e => ?_⟩
  · rw [← Option.isSome_iff_exists, List.findSome?_isSome_iff]
    simp only [Option.isSome_iff_exists, Token.missing?_eq_some_iff]
    constructor
    · rintro ⟨-, hmem, -, name, rfl, hname, -⟩
      exact ⟨name, hmem, hname⟩
    · rintro ⟨name, hmem, hname⟩
      exact ⟨_, hmem, _, name, rfl, hname, rfl⟩
  · simp only [List.findSome?_eq_some_iff, Token.missing?_eq_some_iff, Token.missing?_eq_none_iff]
    constructor
    · rintro ⟨front, -, back, htokens, ⟨name, rfl, hname, he⟩, hfront⟩
      exact ⟨front, name, back, htokens, fun other hother => hfront _ hother other rfl, hname, he⟩
    · rintro ⟨front, name, back, htokens, hfront, hname, he⟩
      refine ⟨front, _, back, htokens, ⟨name, rfl, hname, he⟩, fun u hu other hother => ?_⟩
      exact hfront other (hother ▸ hu)
  · rw [List.findSome?_append, List.findSome?_append, List.findSome?_cons]
    rfl

end Template

end RouteTemplate
