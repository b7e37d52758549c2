import RouteTemplate.Template.Format

namespace RouteTemplate

/-- Whether the token takes text from a path. -/
def Token.isCapture : Token → Bool
  | .var _ => true
  | .splat _ => true
  | _ => false

def Token.isSplat : Token → Bool
  | .splat _ => true
  | _ => false

mutual

/-- Whether a match tells what became of the token: captures are named, each group directly holds
one, and splats stand behind separators. -/
def Token.isTraced (behindSeparator : Bool) : Token → Bool
  | .literal _ => true
  | .var name => name.isSome
  | .splat name => name.isSome && behindSeparator
  | .group inner => inner.any Token.isCapture && Tokens.isTraced false inner

def Tokens.isTraced (behindSeparator : Bool) : List Token → Bool
  | [] => true
  | t :: ts => t.isTraced behindSeparator && Tokens.isTraced t.isSeparator ts

end

mutual

/-- A group that appears comes to the tokens inside it, and a group left out to none. -/
def Token.visible (b : Bindings) : Token → List Token
  | .literal text => [.literal text]
  | .var name => [.var name]
  | .splat name => [.splat name]
  | .group inner => if b.satisfies inner then Tokens.visible b inner else []

def Tokens.visible (b : Bindings) : List Token → List Token
  | [] => []
  | t :: ts => t.visible b ++ Tokens.visible b ts

end

/-- Text that was taken ends at a joiner, and no separator follows another. -/
def Token.isPartedFrom (t u : Token) : Bool :=
  (!t.isCapture || u.isJoiner) && !(t.isSeparator && u.isSeparator)

def Tokens.areParted : List Token → Bool
  | [] => true
  | t :: ts => ts.head?.all t.isPartedFrom && areParted ts

def Value.isSegment : Value → Bool
  | .one text => RouteTemplate.isSegment text
  | .many _ => false

def Value.areSegments : Value → Bool
  | .one _ => false
  | .many texts => texts.all RouteTemplate.isSegment

/-- A variable needs a value that a path can give, and a splat does not. -/
def Bindings.suits (b : Bindings) : Token → Bool
  | .var name => (name.bind b.get?).any Value.isSegment
  | .splat name => (name.bind b.get?).all Value.areSegments
  | _ => true

/-- The contents of the groups around a leaf come innermost first. -/
structure Leaf where
  groups : List (List Token)
  token : Token

mutual

def Token.leaves (groups : List (List Token)) : Token → List Leaf
  | .literal text => [⟨groups, .literal text⟩]
  | .var name => [⟨groups, .var name⟩]
  | .splat name => [⟨groups, .splat name⟩]
  | .group inner => Tokens.leaves (inner :: groups) inner

def Tokens.leaves (groups : List (List Token)) : List Token → List Leaf
  | [] => []
  | t :: ts => t.leaves groups ++ Tokens.leaves groups ts

end

def Template.leaves (t : Template) : List Leaf := Tokens.leaves [] t.tokens

theorem Tokens.filterMap_leaves (groups : List (List Token)) (ts : List Token) :
    (leaves groups ts).filterMap (·.token.name?) = names ts := by
  induction ts using Tokens.induction generalizing groups with
  | nil => rfl
  | literal text ts ih =>
    rw [leaves, List.filterMap_append, ih, names]
    rfl
  | var name ts ih =>
    rw [leaves, List.filterMap_append, ih, names]
    cases name <;> rfl
  | splat name ts ih =>
    rw [leaves, List.filterMap_append, ih, names]
    cases name <;> rfl
  | group inner ts hinner ih =>
    rw [leaves, Token.leaves, List.filterMap_append, hinner, ih, names, Token.names]

namespace Leaf

/-- In each group around the leaf, every variable and splat has a value. -/
def isVisible (b : Bindings) (leaf : Leaf) : Bool :=
  leaf.groups.all fun inner =>
    (inner.filter Token.isCapture).all fun t => t.name?.any b.contains

end Leaf

/-- What a leaf writes under bindings. Without a value it writes nothing. -/
def Token.written (b : Bindings) : Token → List Char
  | .literal text => text.toList
  | t => ((t.name?.bind b.get?).map (·.render.toList)).getD []

end RouteTemplate
