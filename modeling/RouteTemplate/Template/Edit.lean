import RouteTemplate.Template.Basic

namespace RouteTemplate

open Grammar

def withoutLeadingSeparator : List Char → List Char
  | '/' :: rest => rest
  | text => text

namespace Tokens

/-- A key right behind another has the separator as its joiner. -/
def keyPairs (joiner : Token) : List Token → List (Token × Token)
  | [] => []
  | t :: ts =>
    if t.isJoiner then keyPairs t ts else (joiner, t) :: keyPairs .separator ts

end Tokens

mutual

def Token.erasePair? (joiner key : Token) : Token → Option (List Token)
  | .group inner =>
    match Tokens.erasePair? joiner key inner with
    | some [] => some []
    | some rest => some [.group rest]
    | none => none
  | _ => none

/-- Erases the first joiner with the key right behind it. Groups are gone through, and one that is
emptied goes too. -/
def Tokens.erasePair? (joiner key : Token) : List Token → Option (List Token)
  | [] => none
  | .group inner :: ts =>
    match Token.erasePair? joiner key (.group inner) with
    | some rest => some (rest ++ ts)
    | none => (Tokens.erasePair? joiner key ts).map (.group inner :: ·)
  | t :: ts =>
    if t = joiner ∧ ts.head? = some key then some ts.tail
    else (Tokens.erasePair? joiner key ts).map (t :: ·)

end

namespace Tokens

/-- A pair that occurs nowhere changes nothing. -/
def erasePairs (tokens : List Token) (pairs : List (Token × Token)) : List Token :=
  pairs.foldl (fun ts p => (erasePair? p.1 p.2 ts).getD ts) tokens

end Tokens

namespace Template

/-- A separator comes between, unless the template ends with one or the fragment begins with an
extension. -/
def append (t : Template) (fragment : String) : Except ParseError Template := do
  let addition ← Tokens.parse (withoutLeadingSeparator fragment.toList)
  let joinsDirectly := t.endsWithSeparator || addition.head?.any Token.isExtension
  let joined := t.tokens ++ (if joinsDirectly then addition else .separator :: addition)
  if Tokens.choicePoints joined ≤ maxChoicePoints then .ok ⟨joined⟩
  else .error .tooManyChoicePoints

def erase (t : Template) (fragments : String) : Except ParseError Template := do
  let tokens ← Tokens.parse (withoutLeadingSeparator fragments.toList)
  return ⟨Tokens.erasePairs t.tokens (Tokens.keyPairs .separator tokens)⟩

end Template

end RouteTemplate
