import RouteTemplate.Token.Basic

namespace RouteTemplate

open Grammar

inductive ParseError where
  | missingVariableName (offset : Nat)
  | unclosedGroup (offset : Nat)
  | unexpectedGroupClose (offset : Nat)
  | nestingTooDeep (offset : Nat)
  | tooManyChoicePoints
deriving DecidableEq, Repr

def ParseError.message : ParseError → String
  | .missingVariableName offset => s!"expected a variable name after ':' at byte {offset}"
  | .unclosedGroup offset => s!"optional group opened at byte {offset} is never closed"
  | .unexpectedGroupClose offset => s!"unexpected ')' at byte {offset}: no optional group is open"
  | .nestingTooDeep offset => s!"optional group at byte {offset} is nested too deeply"
  | .tooManyChoicePoints =>
    s!"template has more than {maxChoicePoints} variables, splats and groups"

/-- Where a group was opened, and the tokens read before it, last first. -/
structure OpenGroup where
  offset : Nat
  before : List Token

/-- The open groups are listed innermost first, the tokens of the innermost sequence last first. -/
structure Reading where
  offset : Nat
  choicePoints : Nat
  groups : List OpenGroup
  tokens : List Token

namespace Reading

def start : Reading := ⟨0, 0, [], []⟩

def count (r : Reading) : Except ParseError Reading :=
  if r.choicePoints < maxChoicePoints then
    .ok { r with choicePoints := r.choicePoints + 1 }
  else
    .error .tooManyChoicePoints

theorem map_count_of_lt {r : Reading} (h : r.choicePoints < maxChoicePoints)
    (f : Reading → Reading) :
    r.count.map f = .ok (f { r with choicePoints := r.choicePoints + 1 }) := by
  simp [count, h, Except.map]

theorem map_count_of_not_lt {r : Reading} (h : ¬ r.choicePoints < maxChoicePoints)
    (f : Reading → Reading) : r.count.map f = .error .tooManyChoicePoints := by
  simp [count, h, Except.map]

def push (t : Token) (r : Reading) : Reading := { r with tokens := t :: r.tokens }

def openGroup (r : Reading) : Reading :=
  { r with groups := ⟨r.offset, r.tokens⟩ :: r.groups, tokens := [] }

/-- A variable without a name and a group too deep are faults even where no further choice point is
allowed. -/
def place (r : Reading) : Lexeme → Except ParseError Reading
  | .separator => .ok (r.push .separator)
  | .extension => .ok (r.push .extension)
  | .run text => .ok (r.push (.literal (String.ofList text)))
  | .var [] => .error (.missingVariableName r.offset)
  | .var name => r.count.map (push (.var (some (String.ofList name))))
  | .splat [] => r.count.map (push (.splat none))
  | .splat name => r.count.map (push (.splat (some (String.ofList name))))
  | .groupOpen =>
    if r.groups.length < maxDepth then r.count.map openGroup
    else .error (.nestingTooDeep r.offset)
  | .groupClose =>
    match r.groups with
    | [] => .error (.unexpectedGroupClose r.offset)
    | g :: gs =>
      .ok { r with groups := gs, tokens := .group r.tokens.reverse :: g.before }

def advance (l : Lexeme) (r : Reading) : Reading := { r with offset := r.offset + l.width }

def step (r : Reading) (l : Lexeme) : Except ParseError Reading := (r.place l).map (advance l)

theorem step_of_place {r p : Reading} {l : Lexeme} (h : r.place l = .ok p) :
    r.step l = .ok (advance l p) := by
  rw [step, h]
  rfl

theorem step_of_place_error {r : Reading} {l : Lexeme} {e : ParseError}
    (h : r.place l = .error e) : r.step l = .error e := by
  rw [step, h]
  rfl

def finish (r : Reading) : Except ParseError (List Token) :=
  match r.groups with
  | [] => .ok r.tokens.reverse
  | g :: _ => .error (.unclosedGroup g.offset)

end Reading

/-- The tokens that template text denotes, or its first fault. -/
def Tokens.parse (text : List Char) : Except ParseError (List Token) :=
  (lexemes text).foldlM Reading.step Reading.start >>= Reading.finish

structure Template where
  tokens : List Token
deriving DecidableEq, Inhabited

namespace Template

def parse (text : String) : Except ParseError Template :=
  (Tokens.parse text.toList).map Template.mk

/-- Read back, the text of a template that was read gives that template. -/
def text (t : Template) : String := String.ofList (Tokens.spelling t.tokens)

instance : ToString Template := ⟨text⟩

def size (t : Template) : Nat := t.tokens.length

def isEmpty (t : Template) : Bool := t.tokens.isEmpty

def endsWithSeparator (t : Template) : Bool := t.tokens.getLast?.any Token.isSeparator

def flatLength (t : Template) : Nat := Tokens.flatLength t.tokens

def choicePoints (t : Template) : Nat := Tokens.choicePoints t.tokens

def names (t : Template) : List String := Tokens.names t.tokens

end Template

end RouteTemplate
