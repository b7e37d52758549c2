import RouteTemplate.Proofs.Recovery

namespace RouteTemplate

mutual

/-- A name without a new one is dropped. -/
def Token.renamed (f : String → Option String) : Token → Token
  | .literal text => .literal text
  | .var name => .var (name.bind f)
  | .splat name => .splat (name.bind f)
  | .group inner => .group (Tokens.renamed f inner)

def Tokens.renamed (f : String → Option String) : List Token → List Token
  | [] => []
  | t :: ts => t.renamed f :: Tokens.renamed f ts

end

def Match.Log.renamed (f : String → Option String) (log : Match.Log) : Match.Log :=
  log.filterMap fun e => (f e.1).map (·, e.2)

def Way.renamed (f : String → Option String) (w : Way) : Way := ⟨Match.Log.renamed f w.log, w.stop⟩

/-- Of two names with one new name the later keeps its value. -/
def Bindings.renamed (r : String → String) (b : Bindings) : Bindings :=
  ofList (b.toList.map fun e => (r e.1, e.2))

def FormatError.renamed (r : String → String) : FormatError → FormatError
  | .unboundVariable name => .unboundVariable (r name)
  | .anonymousVariable => .anonymousVariable

namespace Template

def renamed (r : String → String) (t : Template) : Template :=
  ⟨Tokens.renamed (fun name => some (r name)) t.tokens⟩

/-- The shape of a template: all that is left of it without its names. -/
def unnamed (t : Template) : Template := ⟨Tokens.renamed (fun _ => none) t.tokens⟩

end Template

section

variable {f : String → Option String}

theorem Way.renamed_followedBy (w v : Way) :
    (w.followedBy v).renamed f = (w.renamed f).followedBy (v.renamed f) := by
  simp [renamed, followedBy, Match.Log.renamed]

theorem Way.renamed_taking (name : Option String) (value : Value) (stop : Cursor) :
    (taking name value stop).renamed f = .taking (name.bind f) value stop := by
  cases name with
  | none => rfl
  | some n => cases h : f n <;> simp [renamed, taking, Match.Log.renamed, h]

theorem varWays_renamed (name : Option String) (c : Cursor) :
    c.varWays (name.bind f) = (c.varWays name).map (Way.renamed f) := by
  simp [Cursor.varWays, Way.renamed_taking, Function.comp_def]

theorem splatWays_renamed (name : Option String) (c : Cursor) :
    c.splatWays (name.bind f) = (c.splatWays name).map (Way.renamed f) := by
  simp [Cursor.splatWays, Cursor.segmentWays, Way.renamed_taking, Function.comp_def]

theorem Way.onward_renamed {ts us : List Token}
    (h : ∀ c, Tokens.ways us c = (Tokens.ways ts c).map (renamed f)) (w : Way) :
    (w.renamed f).onward us = (w.onward ts).map (renamed f) := by
  rw [onward, onward, h, List.map_map, List.map_map]
  apply List.map_congr_left
  intro v _
  exact (renamed_followedBy w v).symm

mutual

theorem Token.ways_renamed : (t : Token) → (c : Cursor) →
    (t.renamed f).ways c = (t.ways c).map (Way.renamed f)
  | .literal text, c => by
    rw [Token.renamed, Token.ways_literal, List.map_map]
    rfl
  | .var name, c => varWays_renamed name c
  | .splat name, c => splatWays_renamed name c
  | .group inner, c => by
    rw [Token.renamed, Token.ways, Token.ways, Tokens.ways_renamed inner c, List.map_append]
    rfl

theorem Tokens.ways_renamed : (ts : List Token) → (c : Cursor) →
    Tokens.ways (Tokens.renamed f ts) c = (Tokens.ways ts c).map (Way.renamed f)
  | [], _ => rfl
  | t :: ts, c => by
    rw [Tokens.renamed, Tokens.ways_cons, Tokens.ways_cons, Token.ways_renamed t c,
      List.flatMap_map, List.map_flatMap]
    congr 1
    funext w
    exact Way.onward_renamed (Tokens.ways_renamed ts) w

end

end

namespace Bindings

theorem get?_ofList_renamed {r : String → String} {name : String} {es : List (String × Value)}
    (h : ∀ e ∈ es, r e.1 = r name → e.1 = name) :
    (ofList (es.map fun e => (r e.1, e.2))).get? (r name) = (ofList es).get? name := by
  rw [get?_ofList_eq_lookup_reverse, get?_ofList_eq_lookup_reverse, ← List.map_reverse]
  exact lookup_map_fst fun e he => h e (List.mem_reverse.1 he)

theorem get?_renamed {r : String → String} {b : Bindings} {name : String}
    (h : ∀ k ∈ b.names, r k = r name → k = name) : (b.renamed r).get? (r name) = b.get? name := by
  have hentries : ∀ e ∈ b.toList, r e.1 = r name → e.1 = name :=
    fun e he => h e.1 (List.mem_map_of_mem he)
  rw [renamed, get?_ofList_renamed hentries, ofList_toList]

theorem get?_renamed_eq_none {r : String → String} {b : Bindings} {name : String}
    (h : name ∉ b.names.map r) : (b.renamed r).get? name = none := by
  apply get?_ofList_eq_none
  rw [names, List.map_map] at h
  rwa [List.map_map]

theorem renamed_ofList {r : String → String} {es : List (String × Value)}
    (h : ∀ x ∈ es.map Prod.fst, ∀ y ∈ es.map Prod.fst, r x = r y → x = y) :
    (ofList es).renamed r = ofList (es.map fun e => (r e.1, e.2)) := by
  apply ext_get?
  intro name
  by_cases hname : name ∈ (es.map Prod.fst).map r
  · obtain ⟨k, hk, rfl⟩ := List.mem_map.1 hname
    rw [get?_renamed fun x hx => h x (mem_names_ofList_iff.1 hx) k hk,
      get?_ofList_renamed fun e he => h e.1 (List.mem_map_of_mem he) k hk]
  · have hold : name ∉ (ofList es).names.map r := by
      intro hmem
      obtain ⟨k, hk, rfl⟩ := List.mem_map.1 hmem
      exact hname (List.mem_map_of_mem (mem_names_ofList_iff.1 hk))
    have hnew : name ∉ (es.map fun e => (r e.1, e.2)).map Prod.fst := by
      rw [List.map_map]
      rwa [List.map_map] at hname
    rw [get?_renamed_eq_none hold, get?_ofList_eq_none hnew]

end Bindings

namespace Template

theorem match?_unnamed_isSome_iff {t : Template} {path : String} :
    (t.unnamed.match? path).isSome = true ↔ (t.match? path).isSome = true := by
  rw [match?_isSome_iff, match?_isSome_iff, unnamed, Tokens.ways_renamed]
  constructor
  · rintro ⟨w, hw, hstop⟩
    obtain ⟨v, hv, rfl⟩ := List.mem_map.1 hw
    exact ⟨v, hv, hstop⟩
  · rintro ⟨w, hw, hstop⟩
    exact ⟨_, List.mem_map_of_mem hw, hstop⟩

theorem match?_renamed {t : Template} {r : String → String}
    (h : ∀ m ∈ t.names, ∀ n ∈ t.names, r m = r n → m = n) (path : String) :
    (t.renamed r).match? path = (t.match? path).map (Bindings.renamed r) := by
  have hlog : ∀ log : Match.Log, Match.Log.renamed (fun name => some (r name)) log =
      log.map fun e => (r e.1, e.2) := fun log => by simp [Match.Log.renamed]
  have hatEnd : ((fun w : Way => w.stop.atEnd) ∘ Way.renamed fun name => some (r name)) =
      fun w => w.stop.atEnd := rfl
  simp only [match?, Match.search_eq_outcome, List.flatten_singleton, Match.outcome, renamed,
    Tokens.ways_renamed, List.find?_map, hatEnd]
  cases hfind : (Tokens.ways t.tokens (Cursor.start path.toList)).find? (·.stop.atEnd) with
  | none => rfl
  | some w =>
    -- The first way through stays the first, and only names of the template are in its log.
    have hnames := Tokens.sublist_names_of_mem_ways (List.mem_of_find?_eq_some hfind)
    have hinjective : ∀ m ∈ w.log.map Prod.fst, ∀ n ∈ w.log.map Prod.fst, r m = r n → m = n :=
      fun m hm n hn => h m (hnames.subset hm) n (hnames.subset hn)
    simp only [Option.map_some, List.nil_append]
    rw [Bindings.renamed_ofList hinjective, Way.renamed, hlog]

end Template

theorem Tokens.rendered_cons_of_mapError {g : FormatError → FormatError} {b c : Bindings}
    {t u : Token} {ts us : List Token} (ht : u.rendered c = (t.rendered b).mapError g)
    (hts : rendered c us = (rendered b ts).mapError g) :
    rendered c (u :: us) = (rendered b (t :: ts)).mapError g := by
  rw [rendered, rendered, ht, hts]
  cases t.rendered b <;> cases rendered b ts <;> rfl

section

variable {r : String → String} {b c : Bindings}

theorem bind_renamed (name : Option String) (h : ∀ n ∈ name.toList, c.get? (r n) = b.get? n) :
    (name.bind fun n => some (r n)).bind c.get? = name.bind b.get? := by
  cases name with
  | none => rfl
  | some n => exact h n List.mem_cons_self

theorem satisfies_renamed {ts : List Token} (h : ∀ n ∈ Tokens.names ts, c.get? (r n) = b.get? n) :
    c.satisfies (Tokens.renamed (fun n => some (r n)) ts) = b.satisfies ts := by
  induction ts with
  | nil => rfl
  | cons t ts ih =>
    obtain ⟨ht, hts⟩ := List.forall_mem_append.1 h
    have hfirst : c.satisfies [t.renamed fun n => some (r n)] = b.satisfies [t] := by
      cases t with
      | literal text => rfl
      | var name =>
        rw [Token.renamed, Bindings.satisfies_var, Bindings.satisfies_var, bind_renamed name ht]
      | splat name =>
        rw [Token.renamed, Bindings.satisfies_splat, Bindings.satisfies_splat,
          bind_renamed name ht]
      | group inner => rfl
    rw [Tokens.renamed, Bindings.satisfies_cons, hfirst, ih hts, ← Bindings.satisfies_cons]

theorem Tokens.rendered_renamed {ts : List Token} (h : ∀ n ∈ names ts, c.get? (r n) = b.get? n) :
    rendered c (renamed (fun n => some (r n)) ts) =
      (rendered b ts).mapError (FormatError.renamed r) := by
  induction ts using Tokens.induction with
  | nil => rfl
  | literal text ts ih => exact rendered_cons_of_mapError rfl (ih h)
  | var name ts ih =>
    obtain ⟨hname, hts⟩ := List.forall_mem_append.1 h
    refine rendered_cons_of_mapError ?_ (ih hts)
    rw [Token.renamed, rendered_var, rendered_var, bind_renamed name hname]
    cases name.bind b.get? with
    | some value => rfl
    | none => cases name <;> rfl
  | splat name ts ih =>
    obtain ⟨hname, hts⟩ := List.forall_mem_append.1 h
    refine rendered_cons_of_mapError ?_ (ih hts)
    rw [Token.renamed, rendered_splat, rendered_splat, bind_renamed name hname]
    rfl
  | group inner ts hinner ih =>
    obtain ⟨hnames, hts⟩ := List.forall_mem_append.1 h
    refine rendered_cons_of_mapError ?_ (ih hts)
    rw [Token.renamed, Token.rendered, Token.rendered, satisfies_renamed hnames]
    split
    · exact hinner hnames
    · rfl

end

namespace Template

theorem format_renamed {t : Template} {r : String → String} {b : Bindings}
    (h : ∀ m ∈ t.names, ∀ n ∈ t.names, r m = r n → m = n) (hb : ∀ n ∈ b.names, n ∈ t.names) :
    (t.renamed r).format (b.renamed r) = (t.format b).mapError (FormatError.renamed r) := by
  have hvalues : ∀ n ∈ t.names, (b.renamed r).get? (r n) = b.get? n :=
    fun n hn => Bindings.get?_renamed fun k hk => h k (hb k hk) n hn
  rw [format, format, renamed, Tokens.rendered_renamed hvalues]
  cases Tokens.rendered b t.tokens <;> rfl

/-- Names do not matter to a match or a path, as long as no two become one. -/
theorem match?_format_renamed :
    (∀ (t u : Template) (path : String), t.unnamed = u.unnamed →
      ((t.match? path).isSome = true ↔ (u.match? path).isSome = true)) ∧
    ∀ (t : Template) (r : String → String),
      (∀ m ∈ t.names, ∀ n ∈ t.names, r m = r n → m = n) →
        (∀ path, (t.renamed r).match? path = (t.match? path).map (Bindings.renamed r)) ∧
        ∀ b : Bindings, (∀ n ∈ b.names, n ∈ t.names) →
          (t.renamed r).format (b.renamed r) = (t.format b).mapError (FormatError.renamed r) := by
  constructor
  · intro t u path hshape
    rw [← match?_unnamed_isSome_iff, hshape, match?_unnamed_isSome_iff]
  · intro t r h
    exact ⟨match?_renamed h, fun b hb => format_renamed h hb⟩

theorem match?_format_renamed_exchanged :
    let t : Template :=
      ⟨[.literal "/", .var "a", .group [.literal "/", .splat "b"], .literal ".", .var "a"]⟩
    let u : Template :=
      ⟨[.literal "/", .var "q", .group [.literal "/", .splat none], .literal ".", .var none]⟩
    let r := fun name => if name = "a" then "b" else "a"
    let b := Bindings.ofList [("b", .many ["x"])]
    t.unnamed = u.unnamed ∧ (u.match? "/p/x/y.q").isSome = true ∧
      (∀ m ∈ t.names, ∀ n ∈ t.names, r m = r n → m = n) ∧
      (t.renamed r).match? "/p/x/y.q" =
        some (Bindings.ofList [("a", .many ["x", "y"]), ("b", .one "q")]) ∧
      (∀ n ∈ b.names, n ∈ t.names) ∧
      (t.renamed r).format (b.renamed r) = .error (.unboundVariable "b") := by
  intro t u r b
  have hshape : t.unnamed = u.unnamed := rfl
  have hmatch : t.match? "/p/x/y.q" =
      some (Bindings.ofList [("a", .one "q"), ("b", .many ["x", "y"])]) := by
    rw [match?, Match.search_eq_outcome]
    rfl
  have hinjective : ∀ m ∈ t.names, ∀ n ∈ t.names, r m = r n → m = n := by decide
  have hnames : ∀ n ∈ b.names, n ∈ t.names := by decide
  have hformat : t.format b = .error (.unboundVariable "a") := rfl
  obtain ⟨hshapes, hrenamed⟩ := match?_format_renamed
  obtain ⟨hmatches, hformats⟩ := hrenamed t r hinjective
  refine ⟨hshape, ?_, hinjective, ?_, hnames, ?_⟩
  · rw [← hshapes t u _ hshape, hmatch]
    rfl
  · rw [hmatches, hmatch]
    decide
  · rw [hformats b hnames, hformat]
    rfl

end Template

end RouteTemplate
