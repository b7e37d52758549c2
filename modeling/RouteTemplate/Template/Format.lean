import RouteTemplate.Binding.Bindings
import RouteTemplate.Path.Basic
import RouteTemplate.Template.Basic

namespace RouteTemplate

inductive FormatError where
  | unboundVariable (name : String)
  | anonymousVariable
deriving DecidableEq, Repr

inductive Error where
  | parse (error : ParseError)
  | format (error : FormatError)
deriving DecidableEq, Repr

def FormatError.message : FormatError → String
  | .unboundVariable name => s!"no binding for required variable ':{name}'"
  | .anonymousVariable => "anonymous variable outside an optional group cannot be formatted"

def Error.message : Error → String
  | .parse error => error.message
  | .format error => error.message

/-- Whether each variable and splat directly among the tokens has a value. Groups do not count. -/
def Bindings.satisfies (b : Bindings) (tokens : List Token) : Bool :=
  tokens.all fun
    | .var name => name.any b.contains
    | .splat name => name.any b.contains
    | _ => true

namespace Bindings

theorem satisfies_cons (b : Bindings) (t : Token) (ts : List Token) :
    b.satisfies (t :: ts) = (b.satisfies [t] && b.satisfies ts) := by
  simp [satisfies]

theorem satisfies_var (b : Bindings) (name : Option String) :
    b.satisfies [.var name] = (name.bind b.get?).isSome := by
  cases name <;> simp [satisfies, contains]

theorem satisfies_splat (b : Bindings) (name : Option String) :
    b.satisfies [.splat name] = (name.bind b.get?).isSome := by
  cases name <;> simp [satisfies, contains]

end Bindings

mutual

/-- The text of a token under bindings, or what keeps it from having one. -/
def Token.rendered (b : Bindings) : Token → Except FormatError (List Char)
  | .literal text => .ok text.toList
  | .var none => .error .anonymousVariable
  | .var (some name) =>
    match b.get? name with
    | some value => .ok value.render.toList
    | none => .error (.unboundVariable name)
  | .splat name =>
    match name.bind b.get? with
    | some value => .ok value.render.toList
    | none => .ok []
  | .group inner => if b.satisfies inner then Tokens.rendered b inner else .ok []

def Tokens.rendered (b : Bindings) : List Token → Except FormatError (List Char)
  | [] => .ok []
  | t :: ts => do
    let front ← t.rendered b
    let back ← Tokens.rendered b ts
    return front ++ back

end

theorem rendered_var (b : Bindings) (name : Option String) :
    (Token.var name).rendered b =
      (name.bind b.get?).elim (.error (name.elim .anonymousVariable .unboundVariable))
        fun value => .ok value.render.toList := by
  cases name with
  | none => rfl
  | some n => cases h : b.get? n <;> simp [Token.rendered, h]

theorem rendered_splat (b : Bindings) (name : Option String) :
    (Token.splat name).rendered b =
      .ok ((name.bind b.get?).getD (.many [])).render.toList := by
  rw [Token.rendered]
  cases name.bind b.get? <;> rfl

namespace Tokens

theorem rendered_append (b : Bindings) (ts us : List Token) :
    rendered b (ts ++ us) = do
      let front ← rendered b ts
      let back ← rendered b us
      return front ++ back := by
  induction ts with
  | nil =>
    rw [List.nil_append, rendered]
    cases rendered b us <;> rfl
  | cons t ts ih =>
    rw [List.cons_append, rendered, ih, rendered]
    cases t.rendered b <;> cases rendered b ts <;> cases rendered b us <;>
      simp [bind, Except.bind, pure, Except.pure]

theorem rendered_append_of_ok {b : Bindings} {ts us : List Token} {front back : List Char}
    (hts : rendered b ts = .ok front) (hus : rendered b us = .ok back) :
    rendered b (ts ++ us) = .ok (front ++ back) := by
  rw [rendered_append, hts, hus]
  rfl

theorem rendered_append_of_error {b : Bindings} {ts : List Token} {e : FormatError}
    (hts : rendered b ts = .error e) (us : List Token) : rendered b (ts ++ us) = .error e := by
  rw [rendered_append, hts]
  rfl

theorem rendered_append_of_ok_error {b : Bindings} {ts us : List Token} {front : List Char}
    {e : FormatError} (hts : rendered b ts = .ok front) (hus : rendered b us = .error e) :
    rendered b (ts ++ us) = .error e := by
  rw [rendered_append, hts, hus]
  rfl

theorem rendered_singleton (b : Bindings) (t : Token) : rendered b [t] = t.rendered b := by
  rw [rendered, rendered]
  cases t.rendered b <;> simp [bind, Except.bind, pure, Except.pure]

theorem rendered_cons_of_ok {b : Bindings} {t : Token} {front : List Char}
    (h : t.rendered b = .ok front) (ts : List Token) :
    rendered b (t :: ts) = (rendered b ts).map (front ++ ·) := by
  rw [rendered, h]
  cases rendered b ts <;> rfl

theorem rendered_cons_of_error {b : Bindings} {t : Token} {e : FormatError}
    (h : t.rendered b = .error e) (ts : List Token) : rendered b (t :: ts) = .error e := by
  rw [rendered, h]
  rfl

end Tokens

namespace Template

/-- The path that the template denotes under bindings. -/
def format (t : Template) (b : Bindings) : Except FormatError String := do
  let path := String.ofList (← Tokens.rendered b t.tokens)
  return if hasRepeatedSeparators path then collapse path else path

def formatText (text : String) (b : Bindings) : Except Error String := do
  let t ← (parse text).mapError .parse
  (t.format b).mapError .format

theorem format_eq_map_collapse (t : Template) (b : Bindings) :
    t.format b =
      (Tokens.rendered b t.tokens).map fun path => collapse (String.ofList path) := by
  simp only [format, ite_hasRepeatedSeparators]
  cases Tokens.rendered b t.tokens <;> rfl

theorem format_of_rendered_error {b : Bindings} {t : Template} {e : FormatError}
    (h : Tokens.rendered b t.tokens = .error e) : t.format b = .error e := by
  rw [format_eq_map_collapse, h]
  rfl

theorem format_of_rendered {b : Bindings} {t : Template} {text : List Char}
    (h : Tokens.rendered b t.tokens = .ok text) :
    t.format b = .ok (collapse (String.ofList text)) := by
  rw [format_eq_map_collapse, h]
  rfl

end Template

end RouteTemplate
