import RouteTemplate.Grammar

namespace RouteTemplate

/-- A variable takes up part of one path segment, a splat any number of whole segments, and a group
may be left out. Without a name nothing is bound. -/
inductive Token where
  | literal (text : String)
  | var (name : Option String)
  | splat (name : Option String)
  | group (inner : List Token)
deriving Inhabited

namespace Token

def separator : Token := .literal "/"

def extension : Token := .literal "."

/-- A longer literal is no separator, even one made of slashes. -/
def isSeparator : Token → Bool
  | .literal text => text == "/"
  | _ => false

def isExtension : Token → Bool
  | .literal text => text == "."
  | _ => false

theorem isSeparator_iff {t : Token} : t.isSeparator = true ↔ t = separator := by
  cases t <;> simp [isSeparator, separator]

theorem isExtension_iff {t : Token} : t.isExtension = true ↔ t = extension := by
  cases t <;> simp [isExtension, extension]

/-- A joiner stands between the other tokens of a template. -/
def isJoiner (t : Token) : Bool := t.isSeparator || t.isExtension

def isGroup : Token → Bool
  | .group _ => true
  | _ => false

theorem isGroup_eq_false_of_isJoiner {t : Token} (h : t.isJoiner = true) : t.isGroup = false := by
  cases t with
  | group inner => cases h
  | literal text | var name | splat name => rfl

def name? : Token → Option String
  | .var name => name
  | .splat name => name
  | _ => none

end Token

mutual

/-- Each token inside a group counts once, a nested group for its marker and for its content. -/
def Token.span : Token → Nat
  | .group inner => Tokens.flatLength inner
  | _ => 0

/-- Written flat, a group becomes a marker followed by its content. -/
def Tokens.flatLength : List Token → Nat
  | [] => 0
  | t :: ts => 1 + t.span + Tokens.flatLength ts

end

mutual

/-- The places where a match has a choice: variables, splats and groups, the nested ones too. -/
def Token.choicePoints : Token → Nat
  | .literal _ => 0
  | .var _ => 1
  | .splat _ => 1
  | .group inner => 1 + Tokens.choicePoints inner

def Tokens.choicePoints : List Token → Nat
  | [] => 0
  | t :: ts => t.choicePoints + Tokens.choicePoints ts

end

mutual

/-- A name that occurs twice is listed twice. -/
def Token.names : Token → List String
  | .group inner => Tokens.names inner
  | t => t.name?.toList

def Tokens.names : List Token → List String
  | [] => []
  | t :: ts => t.names ++ Tokens.names ts

end

mutual

def Token.spelling : Token → List Char
  | .literal text => text.toList
  | .var name => ':' :: (name.getD "").toList
  | .splat name => '*' :: (name.getD "").toList
  | .group inner => '(' :: (Tokens.spelling inner ++ [')'])

def Tokens.spelling : List Token → List Char
  | [] => []
  | t :: ts => t.spelling ++ Tokens.spelling ts

end

@[elab_as_elim]
theorem Tokens.induction {P : List Token → Prop} (nil : P [])
    (literal : ∀ text ts, P ts → P (.literal text :: ts))
    (var : ∀ name ts, P ts → P (.var name :: ts))
    (splat : ∀ name ts, P ts → P (.splat name :: ts))
    (group : ∀ inner ts, P inner → P ts → P (.group inner :: ts)) (ts : List Token) : P ts :=
  @Token.rec_1 (fun t => ∀ ts, P ts → P (t :: ts)) P literal var splat
    (fun inner ih ts => group inner ts ih) nil (fun _ ts ht hts => ht ts hts) ts

namespace Tokens

theorem choicePoints_append (ts us : List Token) :
    choicePoints (ts ++ us) = choicePoints ts + choicePoints us := by
  induction ts with
  | nil => simp [choicePoints]
  | cons t ts ih => simp [choicePoints, ih, Nat.add_assoc]

theorem spelling_append (ts us : List Token) :
    spelling (ts ++ us) = spelling ts ++ spelling us := by
  induction ts with
  | nil => simp [spelling]
  | cons t ts ih => simp [spelling, ih]

end Tokens

mutual

def Token.same : Token → Token → Bool
  | .literal x, .literal y => x == y
  | .var x, .var y => x == y
  | .splat x, .splat y => x == y
  | .group xs, .group ys => Tokens.same xs ys
  | _, _ => false

def Tokens.same : List Token → List Token → Bool
  | [], [] => true
  | x :: xs, y :: ys => x.same y && Tokens.same xs ys
  | _, _ => false

end

mutual

theorem Token.same_iff : (x y : Token) → (x.same y = true ↔ x = y)
  | .literal _, y => by cases y <;> simp [Token.same]
  | .var _, y => by cases y <;> simp [Token.same]
  | .splat _, y => by cases y <;> simp [Token.same]
  | .group xs, y => by cases y <;> simp [Token.same, Tokens.same_iff xs]

theorem Tokens.same_iff : (xs ys : List Token) → (Tokens.same xs ys = true ↔ xs = ys)
  | [], ys => by cases ys <;> simp [Tokens.same]
  | x :: xs, ys => by cases ys <;> simp [Tokens.same, Token.same_iff x, Tokens.same_iff xs]

end

instance : DecidableEq Token := fun x y => decidable_of_iff _ (Token.same_iff x y)

end RouteTemplate
