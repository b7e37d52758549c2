import Mathlib.Data.List.Infix
import RouteTemplate.Template.Basic

namespace RouteTemplate

open Grammar

/-- How many more parentheses the text opens than it closes. -/
def nesting (text : List Char) : Int := text.count '(' - text.count ')'

/-- The colons, stars and opening parentheses of the text. -/
def marks (text : List Char) : Nat := text.countP fun c => c == ':' || c == '*' || c == '('

def excessAt (before : List Char) (c : Char) : Option ParseError :=
  if marks (before ++ [c]) > maxChoicePoints then some .tooManyChoicePoints else none

/-- What is wrong at a character, in a text that consists of `before`, the character and `after`. -/
def faultAt (before : List Char) (c : Char) (after : List Char) : Option ParseError :=
  match c with
  | ':' =>
    if after.head?.any isNameChar then excessAt before ':'
    else some (.missingVariableName (byteWidth before))
  | '*' => excessAt before '*'
  | '(' =>
    if nesting before ≥ maxDepth then some (.nestingTooDeep (byteWidth before))
    else excessAt before '('
  | ')' =>
    if nesting before = 0 then some (.unexpectedGroupClose (byteWidth before)) else none
  | _ => none

def firstFaultFrom? (before : List Char) : List Char → Option ParseError
  | [] => none
  | c :: after => (faultAt before c after).or (firstFaultFrom? (before ++ [c]) after)

/-- Whether the text leaves a parenthesis in front of it open. -/
def leavesOpen (text : List Char) : Bool := text.inits.all fun seen => 0 ≤ nesting seen

def isBalanced (text : List Char) : Bool := leavesOpen text && nesting text == 0

/-- The offset of the last parenthesis behind `before` that is never closed. -/
def lastOpenFrom? (before : List Char) : List Char → Option Nat
  | [] => none
  | c :: after =>
    (lastOpenFrom? (before ++ [c]) after).or
      (if c = '(' ∧ leavesOpen after then some (byteWidth before) else none)

/-- The first fault at a character, or else the last parenthesis that is never closed. -/
def textFault? (text : List Char) : Option ParseError :=
  (firstFaultFrom? [] text).or ((lastOpenFrom? [] text).map .unclosedGroup)

def nameOf? (name : List Char) : Option String :=
  if name.isEmpty then none else some (String.ofList name)

def firstName? : List Char → Option String
  | [] => none
  | c :: rest => if c == ':' || c == '*' then nameOf? (rest.takeWhile isNameChar) else none

/-- The names behind the colons and stars of the text, from left to right. -/
def markedNames (text : List Char) : List String := text.tails.filterMap firstName?

end RouteTemplate
