import RouteTemplate.Token.Basic

namespace RouteTemplate

inductive FlatToken where
  | literal (text : String)
  | var (name : Option String)
  | splat (name : Option String)
  /-- The next `span` flat tokens are the content of a group. -/
  | group (span : Nat)
deriving DecidableEq, Repr

def FlatToken.span : FlatToken → Nat
  | .group span => span
  | _ => 0

mutual

def Token.flat : Token → List FlatToken
  | .literal text => [.literal text]
  | .var name => [.var name]
  | .splat name => [.splat name]
  | .group inner => .group (Tokens.flatLength inner) :: Tokens.flat inner

def Tokens.flat : List Token → List FlatToken
  | [] => []
  | t :: ts => t.flat ++ Tokens.flat ts

end

theorem Token.flat_group (inner : List Token) :
    (Token.group inner).flat = .group (Token.group inner).span :: Tokens.flat inner := rfl

theorem Tokens.length_flat (ts : List Token) : (flat ts).length = flatLength ts := by
  induction ts using Tokens.induction with
  | nil => rfl
  | literal text ts ih => simp [Tokens.flat, Token.flat, flatLength, Token.span, ih, Nat.add_comm]
  | var name ts ih => simp [Tokens.flat, Token.flat, flatLength, Token.span, ih, Nat.add_comm]
  | splat name ts ih => simp [Tokens.flat, Token.flat, flatLength, Token.span, ih, Nat.add_comm]
  | group inner ts hinner ih =>
    simp [Tokens.flat, Token.flat, flatLength, Token.span, hinner, ih]
    omega

/-- The tokens that a flat list stands for. -/
def Tokens.ofFlat? (flat : List FlatToken) : Option (List Token) :=
  match flat with
  | [] => some []
  | .literal text :: fs => (ofFlat? fs).map (.literal text :: ·)
  | .var name :: fs => (ofFlat? fs).map (.var name :: ·)
  | .splat name :: fs => (ofFlat? fs).map (.splat name :: ·)
  | .group span :: fs =>
    if span ≤ fs.length then do
      let inner ← ofFlat? (fs.take span)
      let rest ← ofFlat? (fs.drop span)
      return .group inner :: rest
    else none
termination_by flat.length
decreasing_by
  all_goals simp only [List.length_cons, List.length_take, List.length_drop]
  all_goals omega

/-- No span reaches beyond the list, and one that begins inside another ends inside it too. -/
structure IsNested (fs : List FlatToken) : Prop where
  lt_length : ∀ (i : Nat) (f : FlatToken), fs[i]? = some f → i + f.span < fs.length
  le_of_le : ∀ (i j : Nat) (f g : FlatToken), fs[i]? = some f → fs[j]? = some g →
    i < j → j ≤ i + f.span → j + g.span ≤ i + f.span

end RouteTemplate
