import RouteTemplate.Proofs.BoundedRecursion
import RouteTemplate.Proofs.OffsetSearch

namespace RouteTemplate.Match

/-- Turns that differ only in how the tokens after them are sliced. -/
inductive Turn.Alike : Turn → Turn → Prop where
  | blocked : Alike .blocked .blocked
  | ended (cursor : Cursor) : Alike (.ended cursor) (.ended cursor)
  | capture (name : Option String) (captures : List Capture) {rest other : List (List Token)}
    (flatten_eq : rest.flatten = other.flatten) :
    Alike (.capture name captures rest) (.capture name captures other)
  | group (inner : List Token) (cursor : Cursor) {rest other : List (List Token)}
    (flatten_eq : rest.flatten = other.flatten) :
    Alike (.group inner rest cursor) (.group inner other cursor)

theorem Turn.of_literal (text : String) (ts : List Token) (below : List (List Token))
    (cursor : Cursor) :
    Turn.of ((.literal text :: ts) :: below) cursor =
      match cursor.skip? text.toList with
      | none => .blocked
      | some next => Turn.of (ts :: below) next := by
  rw [Turn.of, Turn.ofSlice]
  cases cursor.skip? text.toList <;> rfl

theorem Turn.alike_flatten (slices : List (List Token)) (cursor : Cursor) :
    Turn.Alike (Turn.of slices cursor) (Turn.of [slices.flatten] cursor) := by
  induction slices using slices_induction generalizing cursor with
  | nil => exact .ended cursor
  | nil_cons below ih => exact ih cursor
  | literal text ts below ih =>
    rw [List.flatten_cons, List.cons_append, Turn.of_literal, Turn.of_literal]
    cases cursor.skip? text.toList with
    | none => exact .blocked
    | some next => exact ih next
  | var name ts below _ => exact .capture name cursor.varCaptures (List.append_nil _).symm
  | splat name ts below _ => exact .capture name cursor.splatCaptures (List.append_nil _).symm
  | group inner ts below _ _ => exact .group inner cursor (List.append_nil _).symm

theorem level_eq_of_alike {nested : Nested} {slices other : List (List Token)} {cursor : Cursor}
    (hnested : ∀ rest, nested rest = nested [rest.flatten])
    (h : Turn.Alike (Turn.of slices cursor) (Turn.of other cursor)) (log : Log) :
    level nested slices cursor log = level nested other cursor log := by
  have hcut : ∀ {rest next : List (List Token)}, rest.flatten = next.flatten →
      nested rest = nested next := by
    intro rest next heq
    rw [hnested rest, hnested next, heq]
  rw [level, level]
  generalize Turn.of slices cursor = turn at h
  generalize Turn.of other cursor = turn' at h
  cases h with
  | blocked => rfl
  | ended stop => rfl
  | capture name captures heq => simp only [hcut heq]
  | @group inner stop rest next heq =>
    have hinside : nested (inner :: rest) = nested (inner :: next) :=
      hcut (by rw [List.flatten_cons, List.flatten_cons, heq])
    simp only [hinside, hcut heq]

/-- However far down a search may go, joining its slices does not change what it comes to. -/
theorem searchWithin_flatten (levels : Nat) (slices : List (List Token)) :
    searchWithin levels slices = searchWithin levels [slices.flatten] := by
  induction levels generalizing slices with
  | zero => rfl
  | succ levels ih =>
    funext cursor log
    exact level_eq_of_alike ih (Turn.alike_flatten slices cursor) log

theorem search_flatten (slices : List (List Token)) (cursor : Cursor) (log : Log) :
    search slices cursor log = search [slices.flatten] cursor log := by
  -- With levels enough for both, the bounded search is the search.
  let levels := choicePoints slices + choicePoints [slices.flatten] + 1
  have hslices : choicePoints slices < levels := by omega
  have hjoined : choicePoints [slices.flatten] < levels := by omega
  have h := congrFun (congrFun (searchWithin_flatten levels slices) cursor) log
  rw [searchWithin_eq_some hslices, searchWithin_eq_some hjoined] at h
  exact Option.some.inj h

theorem searchAt?_flatten (path : String) (slices : List (List Token)) (offset : Nat) (log : Log) :
    searchAt? path slices offset log = searchAt? path [slices.flatten] offset log := by
  by_cases hvalid : String.Pos.Raw.IsValid path ⟨offset⟩
  · obtain ⟨c, hc⟩ := Option.isSome_iff_exists.1 (Cursor.isSome_at?_iff.2 hvalid)
    obtain ⟨hpath, rfl⟩ := Cursor.at?_eq_some_iff.1 hc
    rw [searchAt?_offset hpath, searchAt?_offset hpath, search_flatten]
  · rw [searchAt?_eq_none hvalid, searchAt?_eq_none hvalid]

/-- Slices are matched as they are when joined to one, with the same log. -/
theorem search_append_flatten (ts : List Token) (below : List (List Token)) (log : Log) :
    (∀ cursor, search (ts :: below) cursor log = search [ts ++ below.flatten] cursor log) ∧
    (∀ levels cursor, searchWithin levels (ts :: below) cursor log =
      searchWithin levels [ts ++ below.flatten] cursor log) ∧
    ∀ path offset, searchAt? path (ts :: below) offset log =
      searchAt? path [ts ++ below.flatten] offset log := by
  refine ⟨fun cursor => ?_, fun levels cursor => ?_, fun path offset => ?_⟩
  · exact search_flatten (ts :: below) cursor log
  · exact congrFun (congrFun (searchWithin_flatten levels (ts :: below)) cursor) log
  · exact searchAt?_flatten path (ts :: below) offset log

/-- Nothing of the slices below an emptied one is lost. -/
example : searchWithin 3 [[], [.group [.literal "a"]], [], [.literal "b", .var "x"]]
    (Cursor.start "abc".toList) [] = some (true, [("x", .one "c")]) := by
  rw [searchWithin_flatten]
  rfl

end RouteTemplate.Match
