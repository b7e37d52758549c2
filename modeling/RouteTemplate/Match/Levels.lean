import RouteTemplate.Match.Search

namespace RouteTemplate

namespace Match

abbrev Nested := List (List Token) → Cursor → Log → Option (Bool × Log)

def firstSuccess? {α : Type} (attempt : α → Log → Option (Bool × Log)) :
    List α → Log → Option (Bool × Log)
  | [], log => some (false, log)
  | x :: xs, log =>
    match attempt x log with
    | some (false, log) => firstSuccess? attempt xs log
    | outcome => outcome

def noting? (name : Option String) (value : Thunk Value) (go : Log → Option (Bool × Log))
    (log : Log) : Option (Bool × Log) :=
  let noted := match name with
    | some name => log ++ [(name, value.get)]
    | none => log
  match go noted with
  | some (false, left) => some (false, left.take log.length)
  | outcome => outcome

def level (nested : Nested) (slices : List (List Token)) (cursor : Cursor) (log : Log) :
    Option (Bool × Log) :=
  match Turn.of slices cursor with
  | .blocked => some (false, log)
  | .ended stop => some (stop.atEnd, log)
  | .capture name captures rest =>
    firstSuccess? (fun c => noting? name c.value (nested rest c.stop)) captures log
  | .group inner rest stop =>
    match nested (inner :: rest) stop log with
    | some (false, log) => nested rest stop log
    | outcome => outcome

/-- The search with so many levels at most. -/
def searchWithin : Nat → Nested
  | 0 => fun _ _ _ => none
  | levels + 1 => level (searchWithin levels)

/-- The searches that one level may ask for: behind a capture, with a group, and without it. -/
inductive Calls (slices : List (List Token)) (cursor : Cursor) :
    List (List Token) → Cursor → Prop where
  | behind {name : Option String} {captures : List Capture} {rest : List (List Token)} {k : Capture}
    (turn : Turn.of slices cursor = .capture name captures rest) (mem : k ∈ captures) :
    Calls slices cursor rest k.stop
  | inside {inner : List Token} {rest : List (List Token)} {stop : Cursor}
    (turn : Turn.of slices cursor = .group inner rest stop) :
    Calls slices cursor (inner :: rest) stop
  | past {inner : List Token} {rest : List (List Token)} {stop : Cursor}
    (turn : Turn.of slices cursor = .group inner rest stop) : Calls slices cursor rest stop

theorem firstSuccess?_eq_some {α : Type} {attempt? : α → Log → Option (Bool × Log)}
    {attempt : α → Log → Bool × Log} {xs : List α}
    (h : ∀ x ∈ xs, ∀ log, attempt? x log = some (attempt x log)) (log : Log) :
    firstSuccess? attempt? xs log = some (firstSuccess attempt xs log) := by
  induction xs generalizing log with
  | nil => rfl
  | cons x xs ih =>
    obtain ⟨hx, hxs⟩ := List.forall_mem_cons.1 h
    rw [firstSuccess?, firstSuccess, hx]
    rcases attempt x log with ⟨_ | _, left⟩
    · exact ih hxs left
    · rfl

theorem noting?_eq_some {go? : Log → Option (Bool × Log)} {go : Log → Bool × Log}
    (h : ∀ log, go? log = some (go log)) (name : Option String) (value : Thunk Value) (log : Log) :
    noting? name value go? log = some (noting name value go log) := by
  cases name with
  | none =>
    rw [noting?, noting, h]
    rcases go log with ⟨_ | _, left⟩ <;> rfl
  | some name =>
    rw [noting?, noting, h]
    rcases go (log ++ [(name, value.get)]) with ⟨_ | _, left⟩ <;> rfl

end Match

namespace Template

/-- There is no outcome if more levels are needed. -/
def matchWithin? (levels : Nat) (t : Template) (path : String) : Option (Option Bindings) :=
  (Match.searchWithin levels [t.tokens] (Cursor.start path.toList) []).map fun
    | (true, log) => some (Bindings.ofList log)
    | (false, _) => none

end Template

end RouteTemplate
