import RouteTemplate.Path.Offset
import RouteTemplate.Text.Marks

namespace RouteTemplate

open Grammar

/-- What all calls share. -/
structure Descent where
  offset : Nat
  depth : Nat
  choicePoints : Nat

namespace Descent

def start : Descent := ⟨0, 0, 0⟩

def count (d : Descent) : Except ParseError Descent :=
  if d.choicePoints + 1 > maxChoicePoints then .error .tooManyChoicePoints
  else .ok { d with choicePoints := d.choicePoints + 1 }

theorem count_of_lt {d : Descent} (h : d.choicePoints < maxChoicePoints) :
    d.count = .ok { d with choicePoints := d.choicePoints + 1 } :=
  if_neg (by omega)

theorem count_of_not_lt {d : Descent} (h : ¬ d.choicePoints < maxChoicePoints) :
    d.count = .error .tooManyChoicePoints :=
  if_pos (by omega)

def bump (c : Char) (d : Descent) : Descent := { d with offset := d.offset + c.utf8Size }

/-- Moves over as many characters of a kind as there are, and gives them. -/
def takeWhile? (text : String) (p : Char → Bool) (d : Descent) :
    Option (List Char × Descent) := do
  let rest ← textFrom? text d.offset
  let stop := d.offset + byteWidth (rest.takeWhile p)
  return (← textBetween? text d.offset stop, { d with offset := stop })

inductive Round where
  | ended
  | failed (error : ParseError)
  | token (t : Token) (next : Descent)
  /-- Another call reads the content of the group. -/
  | opened (offset : Nat) (next : Descent)
  | closed (next : Descent)

def Round.counted (t : Token) (d : Descent) : Round :=
  match d.count with
  | .error e => .failed e
  | .ok next => .token t next

def Round.var (offset : Nat) (name : List Char) (next : Descent) : Round :=
  if name.isEmpty then .failed (.missingVariableName offset)
  else .counted (.var (some (String.ofList name))) next

def Round.opening (d : Descent) : Round :=
  if d.depth ≥ maxDepth then .failed (.nestingTooDeep d.offset)
  else
    match d.count with
    | .error e => .failed e
    | .ok next => .opened d.offset { next.bump '(' with depth := next.depth + 1 }

def Round.closing (opened : Option Nat) (d : Descent) : Round :=
  if opened.isSome then .closed (d.bump ')') else .failed (.unexpectedGroupClose d.offset)

/-- A round is that of the call for the group opened at an offset, or of the first call. -/
abbrev Rounds := Option Nat → Descent → Option Round

/-- One round of a call. Nothing but the character ahead decides what is read. -/
def round? (text : String) : Rounds := fun opened d => do
  match ← textFrom? text d.offset with
  | [] => some .ended
  | '/' :: _ => some (.token .separator (d.bump '/'))
  | '.' :: _ => some (.token .extension (d.bump '.'))
  | ':' :: _ =>
    let (name, next) ← (d.bump ':').takeWhile? text isNameChar
    some (.var d.offset name next)
  | '*' :: _ =>
    let (name, next) ← (d.bump '*').takeWhile? text isNameChar
    some (.counted (.splat (nameOf? name)) next)
  | '(' :: _ => some (.opening d)
  | ')' :: _ => some (.closing opened d)
  | _ :: _ =>
    let (run, next) ← d.takeWhile? text (!isDelimiter ·)
    some (.token (.literal (String.ofList run)) next)

def finish (opened : Option Nat) (tokens : List Token) (d : Descent) :
    Except ParseError (List Token × Descent) :=
  match opened with
  | none => .ok (tokens, d)
  | some offset => .error (.unclosedGroup offset)

/-- A call that has read some tokens goes on, with so many rounds and calls inside each other at
most. -/
def sequence? (round? : Rounds) (rounds levels : Nat) (opened : Option Nat) (tokens : List Token)
    (d : Descent) : Option (Except ParseError (List Token × Descent)) :=
  match rounds with
  | 0 => none
  | rounds + 1 => do
    match ← round? opened d with
    | .ended => some (finish opened tokens d)
    | .failed e => some (.error e)
    | .token t next => sequence? round? rounds levels opened (tokens ++ [t]) next
    | .opened offset next =>
      match levels with
      | 0 => none
      | levels + 1 =>
        match ← sequence? round? rounds levels (some offset) [] next with
        | .error e => some (.error e)
        | .ok (inner, back) =>
          let depth ← minus? back.depth 1
          sequence? round? rounds (levels + 1) opened (tokens ++ [.group inner])
            { back with depth := depth }
    | .closed next => some (.ok (tokens, next))

/-- The rounds that are made: in which calls, innermost first, with which tokens read, and where. -/
inductive Reached (text : String) : List Nat → List Token → Descent → Prop where
  | first : Reached text [] [] start
  | next {opened : List Nat} {tokens : List Token} {d next : Descent} {t : Token}
    (reached : Reached text opened tokens d)
    (round : round? text opened.head? d = some (.token t next)) :
    Reached text opened (tokens ++ [t]) next
  | inside {opened : List Nat} {tokens : List Token} {d next : Descent} {offset : Nat}
    (reached : Reached text opened tokens d)
    (round : round? text opened.head? d = some (.opened offset next)) :
    Reached text (offset :: opened) [] next
  | behind {opened : List Nat} {tokens inner : List Token} {d next back : Descent}
    {offset rounds levels depth : Nat} (reached : Reached text opened tokens d)
    (round : round? text opened.head? d = some (.opened offset next))
    (call : sequence? (round? text) rounds levels (some offset) [] next = some (.ok (inner, back)))
    (closed : minus? back.depth 1 = some depth) :
    Reached text opened (tokens ++ [.group inner]) { back with depth := depth }

/-- No rounds but those that are reached decide what a call comes to. -/
theorem sequence?_eq_of_reached {text : String} {other : Rounds}
    (h : ∀ {opened tokens d}, Reached text opened tokens d →
      other opened.head? d = round? text opened.head? d)
    {opened : List Nat} {tokens : List Token} {d : Descent} (hd : Reached text opened tokens d)
    (rounds levels : Nat) :
    sequence? other rounds levels opened.head? tokens d =
      sequence? (round? text) rounds levels opened.head? tokens d := by
  -- The next round of a call, the first of a call inside, and the one behind it are reached too.
  induction rounds generalizing opened tokens d levels with
  | zero => rfl
  | succ rounds ih =>
    rw [sequence?, sequence?, h hd]
    cases hround : round? text opened.head? d with
    | none => rfl
    | some round =>
      simp only [Option.bind_eq_bind, Option.bind_some]
      cases round with
      | ended => rfl
      | failed e => rfl
      | token t next => exact ih (hd.next hround) levels
      | opened offset next =>
        cases levels with
        | zero => rfl
        | succ levels =>
          have hinside := ih (hd.inside hround) levels
          rw [List.head?_cons] at hinside
          dsimp only
          rw [hinside]
          cases hcall : sequence? (round? text) rounds levels (some offset) [] next with
          | none => rfl
          | some outcome =>
            rcases outcome with e | ⟨inner, back⟩
            · rfl
            · simp only [Option.bind_some]
              cases hdepth : minus? back.depth 1 with
              | none => rfl
              | some depth => exact ih (hd.behind hround hcall hdepth) (levels + 1)
      | closed next => rfl

end Descent

namespace Template

/-- What is read by descent, with so many rounds and so many nested calls at most. -/
def parseWithin? (rounds levels : Nat) (text : String) : Option (Except ParseError Template) :=
  (Descent.sequence? (Descent.round? text) rounds levels none [] .start).map fun outcome =>
    outcome.map fun read => ⟨read.1⟩

end Template

end RouteTemplate
