import RouteTemplate.Proofs.Recovery

namespace RouteTemplate

inductive BindingsEdit where
  | exchange (name : String) (value : Value)
  | insert (name : String) (value : Value)
  | extend (pairs : List (String × Value))
  | collect (pairs : List (String × Value))
  | capture (template : Template) (path : String)
deriving DecidableEq

namespace BindingsEdit

/-- The pairs that a change writes. Captures come in the order of the template, repeated or not. -/
def writes : BindingsEdit → List (String × Value)
  | .exchange name value => [(name, value)]
  | .insert name value => [(name, value)]
  | .extend pairs => pairs
  | .collect pairs => pairs
  | .capture t path => ((Tokens.firstWay? t.tokens path.toList).map Way.log).getD []

end BindingsEdit

namespace Bindings

/-- A template that does not match changes nothing. -/
def edit (b : Bindings) : BindingsEdit → Bindings
  | .exchange name value => (b.exchange name value).2
  | .insert name value => b.insert name value
  | .extend pairs => b.insertMany pairs
  | .collect pairs => ofList pairs
  | .capture t path =>
    match t.match? path with
    | some captured => b.insertMany captured.toList
    | none => b

def edited (b : Bindings) (edits : List BindingsEdit) : Bindings := edits.foldl edit b

end Bindings

end RouteTemplate
