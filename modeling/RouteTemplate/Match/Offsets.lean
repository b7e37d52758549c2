import RouteTemplate.Match.Levels
import RouteTemplate.Path.Offset

namespace RouteTemplate

namespace Match

/-- The values that a variable can take at an offset, each with the offset behind it. -/
def varCapturesAt? (path : String) (offset : Nat) : Option (List (Value × Nat)) :=
  (runsAt? path (path.utf8ByteSize + 1) offset).map fun runs =>
    runs.map fun run => (.one (String.ofList run.1), run.2)

/-- All of so many segments, then one fewer each time, as long as there is one. -/
def fewerSegments? (segments : List (List Char × Nat)) : Nat → Option (List (Value × Nat))
  | 0 => some []
  | count + 1 => do
    let last ← segments[count]?
    let texts := (segments.take (count + 1)).map fun s => String.ofList s.1
    return (.many texts, last.2) :: (← fewerSegments? segments count)

def splatCapturesAt? (path : String) (offset : Nat) : Option (List (Value × Nat)) := do
  let segments ← segmentsAt? path (path.utf8ByteSize + 1) offset
  let taking ← fewerSegments? segments segments.length
  let back ← giveBackAt? path offset
  return taking ++ (offset :: back.toList).map fun stop => (.many [], stop)

/-- Each step makes the stack of slices lighter. -/
def weight : List (List Token) → Nat
  | [] => 0
  | slice :: below => Tokens.flatLength slice + Tokens.choicePoints slice + 1 + weight below

/-- The search by offsets has no outcome where text is read at an offset that is not a place. -/
def searchAt? (path : String) (slices : List (List Token)) (offset : Nat) (log : Log) :
    Option (Bool × Log) := do
  let rest ← textFrom? path offset
  match slices with
  | [] => some (offset == path.utf8ByteSize, log)
  | [] :: below => searchAt? path below offset log
  | (.literal text :: ts) :: below =>
    if text.toList.isPrefixOf rest then
      searchAt? path (ts :: below) (offset + text.utf8ByteSize) log
    else some (false, log)
  | (.var name :: ts) :: below =>
    firstSuccess? (fun k => noting? name (.pure k.1) (searchAt? path (ts :: below) k.2))
      (← varCapturesAt? path offset) log
  | (.splat name :: ts) :: below =>
    firstSuccess? (fun k => noting? name (.pure k.1) (searchAt? path (ts :: below) k.2))
      (← splatCapturesAt? path offset) log
  | (.group inner :: ts) :: below =>
    match searchAt? path (inner :: ts :: below) offset log with
    | some (false, log) => searchAt? path (ts :: below) offset log
    | outcome => outcome
termination_by weight slices
decreasing_by
  all_goals simp only [weight, Tokens.flatLength, Token.span, Tokens.choicePoints,
    Token.choicePoints]
  all_goals omega

@[elab_as_elim]
theorem slices_induction {P : List (List Token) → Prop} (nil : P [])
    (nil_cons : ∀ below, P below → P ([] :: below))
    (literal : ∀ text ts below, P (ts :: below) → P ((.literal text :: ts) :: below))
    (var : ∀ name ts below, P (ts :: below) → P ((.var name :: ts) :: below))
    (splat : ∀ name ts below, P (ts :: below) → P ((.splat name :: ts) :: below))
    (group : ∀ inner ts below, P (inner :: ts :: below) → P (ts :: below) →
      P ((.group inner :: ts) :: below)) : ∀ slices, P slices
  | [] => nil
  | [] :: below => nil_cons below (slices_induction nil nil_cons literal var splat group below)
  | (.literal text :: ts) :: below =>
    literal text ts below (slices_induction nil nil_cons literal var splat group (ts :: below))
  | (.var name :: ts) :: below =>
    var name ts below (slices_induction nil nil_cons literal var splat group (ts :: below))
  | (.splat name :: ts) :: below =>
    splat name ts below (slices_induction nil nil_cons literal var splat group (ts :: below))
  | (.group inner :: ts) :: below =>
    group inner ts below
      (slices_induction nil nil_cons literal var splat group (inner :: ts :: below))
      (slices_induction nil nil_cons literal var splat group (ts :: below))
termination_by slices => weight slices
decreasing_by
  all_goals simp only [weight, Tokens.flatLength, Token.span, Tokens.choicePoints,
    Token.choicePoints]
  all_goals omega

end Match

namespace Template

def matchAt? (t : Template) (path : String) : Option (Option Bindings) :=
  (Match.searchAt? path [t.tokens] 0 []).map fun
    | (true, log) => some (Bindings.ofList log)
    | (false, _) => none

end Template

end RouteTemplate
