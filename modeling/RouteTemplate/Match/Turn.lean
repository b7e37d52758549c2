import RouteTemplate.Binding.Entries
import RouteTemplate.Path.Basic
import RouteTemplate.Token.Basic

namespace RouteTemplate

/-- The value is made when it is first asked for; the path goes on at `stop`. -/
structure Capture where
  value : Thunk Value
  stop : Cursor

namespace Cursor

def varCaptures (c : Cursor) : List Capture :=
  c.stops.zipIdx.reverse.map fun (stop, i) =>
    ⟨.mk fun _ => .one (String.ofList (c.after.take (i + 1))), stop⟩

/-- As many segments as there are, or fewer, or none. Taking none, a splat may give back the slash
before it. -/
def splatCaptures (c : Cursor) : List Capture :=
  let segments := c.segments
  (segments.zipIdx.reverse.map fun (segment, i) =>
    ⟨.mk fun _ => .many ((segments.take (i + 1)).map (String.ofList ·.text)), segment.stop⟩) ++
  (c :: c.giveBack?.toList).map fun stop => ⟨.pure (.many []), stop⟩

end Cursor

namespace Match

/-- What a match meets after the literals in front. -/
inductive Turn where
  | blocked
  | ended (cursor : Cursor)
  | capture (name : Option String) (captures : List Capture) (rest : List (List Token))
  | group (inner : List Token) (rest : List (List Token)) (cursor : Cursor)

def Turn.ofSlice : List Token → List (List Token) → Cursor → Turn
  | [], _, cursor => .ended cursor
  | .literal text :: ts, below, cursor =>
    match cursor.skip? text.toList with
    | none => .blocked
    | some next => ofSlice ts below next
  | .var name :: ts, below, cursor => .capture name cursor.varCaptures (ts :: below)
  | .splat name :: ts, below, cursor => .capture name cursor.splatCaptures (ts :: below)
  | .group inner :: ts, below, cursor => .group inner (ts :: below) cursor

/-- The slices are the rest of the innermost group, then what follows around it. -/
def Turn.of : List (List Token) → Cursor → Turn
  | [], cursor => .ended cursor
  | slice :: below, cursor =>
    match ofSlice slice below cursor with
    | .ended next => Turn.of below next
    | turn => turn

def choicePoints : List (List Token) → Nat
  | [] => 0
  | slice :: below => Tokens.choicePoints slice + choicePoints below

theorem choicePoints_lt_of_ofSlice_capture {ts : List Token} {below : List (List Token)}
    {cursor : Cursor} {name : Option String} {captures : List Capture} {rest : List (List Token)}
    (h : Turn.ofSlice ts below cursor = .capture name captures rest) :
    choicePoints rest < choicePoints (ts :: below) := by
  fun_induction Turn.ofSlice ts below cursor <;>
    simp_all [choicePoints, Tokens.choicePoints, Token.choicePoints]
  all_goals obtain ⟨-, -, rfl⟩ := h
  all_goals simp only [choicePoints]
  all_goals omega

theorem choicePoints_lt_of_ofSlice_group {ts : List Token} {below : List (List Token)}
    {cursor : Cursor} {inner : List Token} {rest : List (List Token)} {stop : Cursor}
    (h : Turn.ofSlice ts below cursor = .group inner rest stop) :
    choicePoints (inner :: rest) < choicePoints (ts :: below) := by
  fun_induction Turn.ofSlice ts below cursor <;>
    simp_all [choicePoints, Tokens.choicePoints, Token.choicePoints]
  obtain ⟨rfl, rfl, -⟩ := h
  simp only [choicePoints]
  omega

/-- A turn other than the end is that of one of the slices. -/
theorem exists_ofSlice {slices : List (List Token)} {cursor : Cursor} {turn : Turn}
    (h : Turn.of slices cursor = turn) (hturn : ∀ stop, turn ≠ .ended stop) :
    ∃ ts below next, Turn.ofSlice ts below next = turn ∧
      choicePoints (ts :: below) ≤ choicePoints slices := by
  induction slices generalizing cursor with
  | nil => exact absurd h.symm (hturn cursor)
  | cons slice below ih =>
    rw [Turn.of] at h
    split at h
    · obtain ⟨ts, rest, next, hslice, hle⟩ := ih h
      exact ⟨ts, rest, next, hslice, Nat.le_trans hle (Nat.le_add_left _ _)⟩
    · exact ⟨slice, below, cursor, h, Nat.le_refl _⟩

theorem choicePoints_lt_of_capture {slices : List (List Token)} {cursor : Cursor}
    {name : Option String} {captures : List Capture} {rest : List (List Token)}
    (h : Turn.of slices cursor = .capture name captures rest) :
    choicePoints rest < choicePoints slices := by
  obtain ⟨ts, below, next, hslice, hle⟩ := exists_ofSlice h (by simp)
  exact Nat.lt_of_lt_of_le (choicePoints_lt_of_ofSlice_capture hslice) hle

theorem choicePoints_lt_of_group {slices : List (List Token)} {cursor : Cursor}
    {inner : List Token} {rest : List (List Token)} {stop : Cursor}
    (h : Turn.of slices cursor = .group inner rest stop) :
    choicePoints (inner :: rest) < choicePoints slices := by
  obtain ⟨ts, below, next, hslice, hle⟩ := exists_ofSlice h (by simp)
  exact Nat.lt_of_lt_of_le (choicePoints_lt_of_ofSlice_group hslice) hle

end Match

end RouteTemplate
