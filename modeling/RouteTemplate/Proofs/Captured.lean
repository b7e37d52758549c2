import RouteTemplate.Proofs.Recovery

namespace RouteTemplate

/-- A value under a name that a token can have taken from a path. -/
inductive Captured (path : List Char) : Token → String → Value → Prop
  | one {name text : String} (hsegment : isSegment text = true) (hpiece : text.toList <:+: path) :
      Captured path (.var (some name)) name (.one text)
  | many {name : String} {texts : List String} (hsegments : ∀ x ∈ texts, isSegment x = true)
      (hpiece : joinSegments texts <:+: path) :
      Captured path (.splat (some name)) name (.many texts)

theorem isInfix_path_of_skip? {text : List Char} {c d : Cursor} (h : c.skip? text = some d) :
    text <:+: c.path :=
  ⟨c.before.reverse, d.after, by
    rw [Cursor.path, (Cursor.skip?_eq_some_iff.1 h).1, List.append_assoc]⟩

theorem mem_log_taking_iff {token : Option String} {taken value : Value} {stop : Cursor}
    {name : String} :
    (name, value) ∈ (Way.taking token taken stop).log ↔ token = some name ∧ taken = value := by
  cases token <;> simp [Way.taking, eq_comm]

theorem Captured.of_mem_varWays {token : Option String} {c : Cursor} {v : Way}
    (hv : v ∈ c.varWays token) {name : String} {value : Value} (h : (name, value) ∈ v.log) :
    Captured c.path (.var token) name value := by
  obtain ⟨text, d, htext, hskip, rfl⟩ := mem_varWays.1 hv
  obtain ⟨rfl, rfl⟩ := mem_log_taking_iff.1 h
  exact .one htext (isInfix_path_of_skip? hskip)

theorem exists_taking_of_mem_splatWays {token : Option String} {c : Cursor} {v : Way}
    (hv : v ∈ c.splatWays token) :
    ∃ texts stop, v = .taking token (.many texts) stop ∧ (∀ x ∈ texts, isSegment x = true) ∧
      joinSegments texts <:+: c.path := by
  rcases mem_splatWays.1 hv with hv | rfl | ⟨d, -, rfl⟩
  · obtain ⟨x, xs, d, hseg, hskip, -, rfl⟩ := mem_segmentWays.1 hv
    refine ⟨x :: xs, d, rfl, hseg, ?_⟩
    rw [← c.path_pastSeparator]
    exact isInfix_path_of_skip? hskip
  · exact ⟨[], c, rfl, by simp, List.nil_infix⟩
  · exact ⟨[], d, rfl, by simp, List.nil_infix⟩

theorem Captured.of_mem_splatWays {token : Option String} {c : Cursor} {v : Way}
    (hv : v ∈ c.splatWays token) {name : String} {value : Value} (h : (name, value) ∈ v.log) :
    Captured c.path (.splat token) name value := by
  obtain ⟨texts, stop, rfl, hseg, hpiece⟩ := exists_taking_of_mem_splatWays hv
  obtain ⟨rfl, rfl⟩ := mem_log_taking_iff.1 h
  exact .many hseg hpiece

mutual

theorem Token.captured_of_mem_ways {name : String} {value : Value} :
    {t : Token} → (groups : List (List Token)) → {c : Cursor} → {v : Way} → v ∈ t.ways c →
    (name, value) ∈ v.log → ∃ leaf ∈ t.leaves groups, Captured c.path leaf.token name value
  | .literal _, _, _, _, hv, h => by
    obtain ⟨d, -, rfl⟩ := mem_ways_literal.1 hv
    cases h
  | .var _, _, _, _, hv, h => ⟨_, List.mem_singleton_self _, .of_mem_varWays hv h⟩
  | .splat _, _, _, _, hv, h => ⟨_, List.mem_singleton_self _, .of_mem_splatWays hv h⟩
  | .group inner, groups, _, _, hv, h => by
    rcases List.mem_append.1 hv with hv | hv
    · exact Tokens.captured_of_mem_ways (inner :: groups) hv h
    · obtain rfl := List.mem_singleton.1 hv
      cases h

/-- Each entry of a way was taken from the path by a variable or splat of that name. -/
theorem Tokens.captured_of_mem_ways {name : String} {value : Value} :
    {ts : List Token} → (groups : List (List Token)) → {c : Cursor} → {w : Way} →
    w ∈ Tokens.ways ts c → (name, value) ∈ w.log →
    ∃ leaf ∈ Tokens.leaves groups ts, Captured c.path leaf.token name value
  | [], _, _, _, hw, h => by
    obtain rfl := List.mem_singleton.1 hw
    cases h
  | _ :: _, groups, _, _, hw, h => by
    obtain ⟨v, hv, u, hu, rfl⟩ := mem_ways_cons.1 hw
    rcases List.mem_append.1 h with h | h
    · obtain ⟨leaf, hleaf, hcaptured⟩ := Token.captured_of_mem_ways groups hv h
      exact ⟨leaf, List.mem_append_left _ hleaf, hcaptured⟩
    · obtain ⟨leaf, hleaf, hcaptured⟩ := Tokens.captured_of_mem_ways groups hu h
      rw [Token.path_of_mem_ways hv] at hcaptured
      exact ⟨leaf, List.mem_append_right _ hleaf, hcaptured⟩

end

theorem Token.isCapture_of_name? {t : Token} {name : String} (h : t.name? = some name) :
    t.isCapture = true := by
  cases t with
  | literal text => cases h
  | var n => rfl
  | splat n => rfl
  | group inner => cases h

theorem Captured.name?_eq {path : List Char} {t : Token} {name : String} {value : Value}
    (h : Captured path t name value) : t.name? = some name := by
  cases h <;> rfl

namespace Template

theorem mem_names_of_mem_leaves {t : Template} {leaf : Leaf} {name : String} (h : leaf ∈ t.leaves)
    (hname : leaf.token.name? = some name) : name ∈ t.names := by
  rw [names, ← Tokens.filterMap_leaves []]
  exact List.mem_filterMap.2 ⟨leaf, h, hname⟩

/-- A match binds names of the template only, and each value is a piece of the path. -/
theorem captured_of_match? {t : Template} {path : String} {b : Bindings}
    (h : t.match? path = some b) :
    (∀ name ∈ b.names, name ∈ t.names) ∧
      (∀ u ∈ t.tokens, ∀ name, u.name? = some name → b.contains name = true) ∧
      ∀ name value, b.get? name = some value →
        ∃ leaf ∈ t.leaves, Captured path.toList leaf.token name value := by
  obtain ⟨w, hw, -, rfl⟩ := exists_way_of_match? h
  have hcaptured : ∀ name value, (Bindings.ofList w.log).get? name = some value →
      ∃ leaf ∈ t.leaves, Captured path.toList leaf.token name value := by
    intro name value hvalue
    have hleaf := Tokens.captured_of_mem_ways [] hw (Bindings.mem_of_get?_ofList hvalue)
    rwa [Cursor.path_start] at hleaf
  refine ⟨fun name hname => ?_, fun u hu name hname => ?_, hcaptured⟩
  · obtain ⟨value, hvalue⟩ := Option.isSome_iff_exists.1 (Bindings.contains_iff_mem_names.2 hname)
    obtain ⟨leaf, hleaf, hcaptured⟩ := hcaptured name value hvalue
    exact mem_names_of_mem_leaves hleaf hcaptured.name?_eq
  · rw [Bindings.contains_ofList_iff]
    exact mem_log_of_mem_ways hw hu (Token.isCapture_of_name? hname) hname

theorem captured_of_match?_given_back_slash :
    let t : Template := ⟨[.literal "/", .splat "c", .literal "/", .var "a",
      .group [.literal "/", .splat "b", .literal ".", .var "a"]]⟩
    let b := Bindings.ofList [("a", .one "q"), ("b", .many ["z"]), ("c", .many [])]
    t.match? "/y/z.q" = some b ∧ (∀ name ∈ b.names, name ∈ t.names) ∧
      (∀ u ∈ t.tokens, ∀ name, u.name? = some name → b.contains name = true) ∧
      ∀ name value, b.get? name = some value →
        ∃ leaf ∈ t.leaves, Captured "/y/z.q".toList leaf.token name value := by
  intro t b
  have hmatch : t.match? "/y/z.q" = some b := by
    rw [match?, Match.search_eq_outcome]
    rfl
  exact ⟨hmatch, captured_of_match? hmatch⟩

end Template

end RouteTemplate
