import RouteTemplate.Binding.Bindings
import RouteTemplate.Match.Turn
import RouteTemplate.Template.Basic

namespace RouteTemplate

namespace Match

/-- The bindings made so far, earliest first. -/
abbrev Log := List (String × Value)

/-- Makes attempts in order until one succeeds, each from the log that the one before it left. -/
def firstSuccess {α : Type} (attempt : α → Log → Bool × Log) : List α → Log → Bool × Log
  | [], log => (false, log)
  | x :: xs, log =>
    match attempt x log with
    | (true, log) => (true, log)
    | (false, log) => firstSuccess attempt xs log

/-- Notes a value under a name and goes on. If that fails, the log is cut back. -/
def noting (name : Option String) (value : Thunk Value) (go : Log → Bool × Log) (log : Log) :
    Bool × Log :=
  let noted := match name with
    | some name => log ++ [(name, value.get)]
    | none => log
  match go noted with
  | (true, log) => (true, log)
  | (false, left) => (false, left.take log.length)

/-- Whether the slices match to the end of the path, and the log afterwards. A group is tried with
its content first. -/
def search (slices : List (List Token)) (cursor : Cursor) (log : Log) : Bool × Log :=
  match _h : Turn.of slices cursor with
  | .blocked => (false, log)
  | .ended stop => (stop.atEnd, log)
  | .capture name captures rest =>
    firstSuccess (fun c => noting name c.value (search rest c.stop)) captures log
  | .group inner rest stop =>
    match search (inner :: rest) stop log with
    | (true, log) => (true, log)
    | (false, log) => search rest stop log
termination_by choicePoints slices
decreasing_by
  · exact choicePoints_lt_of_capture ‹_›
  · exact choicePoints_lt_of_group ‹_›
  · refine Nat.lt_of_le_of_lt ?_ (choicePoints_lt_of_group ‹_›)
    simp [choicePoints]

theorem search_eq (slices : List (List Token)) (cursor : Cursor) (log : Log) :
    search slices cursor log =
      match Turn.of slices cursor with
      | .blocked => (false, log)
      | .ended stop => (stop.atEnd, log)
      | .capture name captures rest =>
        firstSuccess (fun c => noting name c.value (search rest c.stop)) captures log
      | .group inner rest stop =>
        match search (inner :: rest) stop log with
        | (true, log) => (true, log)
        | (false, log) => search rest stop log := by
  rw [search]
  split <;> simp_all

section

variable (ts : List Token) (below : List (List Token)) (cursor : Cursor) (log : Log)

theorem search_nil : search [] cursor log = (cursor.atEnd, log) := by
  rw [search_eq]
  rfl

theorem search_nil_cons : search ([] :: below) cursor log = search below cursor log := by
  rw [search_eq, search_eq]
  rfl

theorem search_literal (text : String) :
    search ((.literal text :: ts) :: below) cursor log =
      match cursor.skip? text.toList with
      | none => (false, log)
      | some next => search (ts :: below) next log := by
  rw [search_eq, Turn.of, Turn.ofSlice]
  cases cursor.skip? text.toList with
  | none => rfl
  | some next =>
    dsimp only
    rw [search_eq, Turn.of]

theorem search_var (name : Option String) :
    search ((.var name :: ts) :: below) cursor log =
      firstSuccess (fun k => noting name k.value (search (ts :: below) k.stop)) cursor.varCaptures
        log := by
  rw [search_eq]
  rfl

theorem search_splat (name : Option String) :
    search ((.splat name :: ts) :: below) cursor log =
      firstSuccess (fun k => noting name k.value (search (ts :: below) k.stop))
        cursor.splatCaptures log := by
  rw [search_eq]
  rfl

theorem search_group (inner : List Token) :
    search ((.group inner :: ts) :: below) cursor log =
      match search (inner :: ts :: below) cursor log with
      | (true, log) => (true, log)
      | (false, log) => search (ts :: below) cursor log := by
  rw [search_eq]
  rfl

end

end Match

namespace Template

/-- The values captured from the path. Of two captures under one name the later counts. -/
def match? (t : Template) (path : String) : Option Bindings :=
  match Match.search [t.tokens] (Cursor.start path.toList) [] with
  | (true, log) => some (Bindings.ofList log)
  | (false, _) => none

end Template

end RouteTemplate
