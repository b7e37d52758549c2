import RouteTemplate.Proofs.Recovery

namespace RouteTemplate.Match

/-- A call that fails leaves the log as it was. One that succeeds adds the bindings of the first
way. -/
def LogsFirstWay (names : List String) (ways : List Way) (call : Log → Bool × Log) : Prop :=
  ∀ log, ((call log).1 = false → (call log).2 = log ∧ ∀ w ∈ ways, w.stop.atEnd = false) ∧
    ((call log).1 = true → ∃ w, ways.find? (·.stop.atEnd) = some w ∧ (call log).2 = log ++ w.log ∧
      (w.log.map Prod.fst).Sublist names)

theorem logsFirstWay_of_outcome {names : List String} {ways : List Way} {call : Log → Bool × Log}
    (hcall : ∀ log, call log = outcome log ways)
    (hnames : ∀ w ∈ ways, (w.log.map Prod.fst).Sublist names) : LogsFirstWay names ways call := by
  intro log
  rw [hcall, outcome]
  cases h : ways.find? (·.stop.atEnd) with
  | none =>
    refine ⟨fun _ => ⟨rfl, fun w hw => ?_⟩, fun hfound => ?_⟩
    · simpa using List.find?_eq_none.1 h w hw
    · cases hfound
  | some w =>
    refine ⟨fun hfailed => ?_, fun _ => ⟨w, rfl, rfl, hnames w (List.mem_of_find?_eq_some h)⟩⟩
    cases hfailed

theorem noting_search_eq_outcome (name : Option String) (k : Capture) (rest : List (List Token))
    (log : Log) :
    noting name k.value (search rest k.stop) log =
      outcome log ((k.way name).onward rest.flatten) := by
  have hsearch : search rest k.stop = fun log => outcome log (Tokens.ways rest.flatten k.stop) :=
    funext (search_eq_outcome rest k.stop)
  rw [hsearch, noting_eq_outcome]

theorem firstSuccess_search_eq_outcome (name : Option String) (captures : List Capture)
    (rest : List (List Token)) (log : Log) :
    firstSuccess (fun k => noting name k.value (search rest k.stop)) captures log =
      outcome log ((captures.map (Capture.way name)).flatMap (Way.onward rest.flatten)) := by
  have hsearch : ∀ stop,
      search rest stop = fun log => outcome log (Tokens.ways rest.flatten stop) :=
    fun stop => funext (search_eq_outcome rest stop)
  simp only [hsearch, firstSuccess_noting]

theorem sublist_names_of_mem_onward {name : Option String} {value : Value} {stop : Cursor}
    {tokens : List Token} {w : Way} (hw : w ∈ (Way.taking name value stop).onward tokens) :
    (w.log.map Prod.fst).Sublist (name.toList ++ Tokens.names tokens) := by
  obtain ⟨v, hv, rfl⟩ := List.mem_map.1 hw
  have htaking : (Way.taking name value stop).log.map Prod.fst = name.toList := by
    cases name <;> rfl
  rw [Way.followedBy, List.map_append, htaking]
  exact (List.Sublist.refl _).append (Tokens.sublist_names_of_mem_ways hv)

/-- The log holds nothing but the bindings of the branch that succeeds, in the order of the
template. -/
theorem logsFirstWay_calls (slices : List (List Token)) (cursor : Cursor) (name : Option String) :
    LogsFirstWay (Tokens.names slices.flatten) (Tokens.ways slices.flatten cursor)
      (search slices cursor) ∧
    (∀ k : Capture, LogsFirstWay (name.toList ++ Tokens.names slices.flatten)
      ((k.way name).onward slices.flatten) (noting name k.value (search slices k.stop))) ∧
    LogsFirstWay (Tokens.names (.var name :: slices.flatten))
      (Tokens.ways (.var name :: slices.flatten) cursor)
      (firstSuccess (fun k => noting name k.value (search slices k.stop)) cursor.varCaptures) ∧
    LogsFirstWay (Tokens.names (.splat name :: slices.flatten))
      (Tokens.ways (.splat name :: slices.flatten) cursor)
      (firstSuccess (fun k => noting name k.value (search slices k.stop))
        cursor.splatCaptures) := by
  refine ⟨?_, fun k => ?_, ?_, ?_⟩
  · exact logsFirstWay_of_outcome (search_eq_outcome slices cursor)
      fun _ => Tokens.sublist_names_of_mem_ways
  · exact logsFirstWay_of_outcome (noting_search_eq_outcome name k slices)
      fun _ => sublist_names_of_mem_onward
  · refine logsFirstWay_of_outcome (fun log => ?_) fun _ => Tokens.sublist_names_of_mem_ways
    rw [firstSuccess_search_eq_outcome, map_way_varCaptures, Tokens.ways_cons, Token.ways]
  · refine logsFirstWay_of_outcome (fun log => ?_) fun _ => Tokens.sublist_names_of_mem_ways
    rw [firstSuccess_search_eq_outcome, map_way_splatCaptures, Tokens.ways_cons, Token.ways]

/-- What the group captured on the way to its missing dash is taken out again. -/
example :
    search [[.group [.var "a", .literal "-"], .var "b"]] (Cursor.start "xy".toList)
      [("c", .one "z")] = (true, [("c", .one "z"), ("b", .one "xy")]) := by
  rw [search_eq_outcome]
  rfl

end RouteTemplate.Match
