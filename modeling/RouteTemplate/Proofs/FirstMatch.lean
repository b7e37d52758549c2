import Mathlib.Data.List.Basic
import RouteTemplate.Proofs.FirstWay
import RouteTemplate.Proofs.RoundTrip
import RouteTemplate.TemplateSet

namespace RouteTemplate

namespace TemplateSet

variable {s : TemplateSet} {path : String} {front back : List Template} {t : Template}
  {b : Bindings}

theorem findFrom?_append (hfront : ∀ u ∈ front, u.match? path = none) (n : Nat)
    (ts : List Template) :
    findFrom? path n (front ++ ts) = findFrom? path (n + front.length) ts := by
  induction front generalizing n with
  | nil => rfl
  | cons u front ih =>
    obtain ⟨hu, hfront⟩ := List.forall_mem_cons.1 hfront
    rw [List.cons_append, findFrom?, hu]
    dsimp only
    rw [ih hfront, List.length_cons, Nat.add_assoc, Nat.add_comm 1]

theorem findFrom?_eq_none_iff {n : Nat} {ts : List Template} :
    findFrom? path n ts = none ↔ ∀ u ∈ ts, u.match? path = none := by
  induction ts generalizing n with
  | nil => simp [findFrom?]
  | cons u ts ih =>
    rw [findFrom?, List.forall_mem_cons]
    cases hu : u.match? path with
    | none => simpa using ih
    | some b => simp

theorem find?_eq_none_iff : s.find? path = none ↔ ∀ u ∈ s.templates, u.match? path = none :=
  findFrom?_eq_none_iff

/-- A template is found behind those that do not match. -/
theorem find?_of_split (hs : s.templates = front ++ t :: back)
    (hfront : ∀ u ∈ front, u.match? path = none) (ht : t.match? path = some b) :
    s.find? path = some ⟨front.length, t, b⟩ := by
  rw [find?, hs, findFrom?_append hfront, Nat.zero_add, findFrom?, ht]

theorem split_of_getElem? {ts : List Template} {i : Nat} (h : ts[i]? = some t) :
    ts = ts.take i ++ t :: ts.drop (i + 1) ∧ (ts.take i).length = i := by
  obtain ⟨hi, rfl⟩ := List.getElem?_eq_some_iff.1 h
  rw [List.getElem_cons_drop, List.take_append_drop]
  exact ⟨rfl, List.length_take_of_le (Nat.le_of_lt hi)⟩

theorem IsFirst.length_take {ts : List Template} {found : Selection} (h : IsFirst ts path found) :
    (ts.take found.index).length = found.index :=
  (split_of_getElem? h.getElem?_index).2

theorem IsFirst.match?_of_mem_take {ts : List Template} {found : Selection}
    (h : IsFirst ts path found) :
    ∀ u ∈ ts.take found.index, u.match? path = none := by
  intro u hu
  obtain ⟨i, hi⟩ := List.mem_iff_getElem?.1 hu
  rw [List.getElem?_take] at hi
  split at hi
  · exact h.match?_before i u ‹_› hi
  · cases hi

theorem exists_split_of_findFrom? {n : Nat} {ts : List Template} {found : Selection}
    (h : findFrom? path n ts = some found) :
    ∃ front back, ts = front ++ found.template :: back ∧ found.index = n + front.length ∧
      found.template.match? path = some found.bindings ∧ ∀ u ∈ front, u.match? path = none := by
  induction ts generalizing n with
  | nil => cases h
  | cons u ts ih =>
    rw [findFrom?] at h
    cases hu : u.match? path with
    | some b =>
      rw [hu] at h
      cases h
      exact ⟨[], ts, rfl, rfl, hu, List.forall_mem_nil _⟩
    | none =>
      rw [hu] at h
      obtain ⟨front, back, rfl, hindex, hmatch, hfront⟩ := ih h
      refine ⟨u :: front, back, rfl, ?_, hmatch, List.forall_mem_cons.2 ⟨hu, hfront⟩⟩
      rw [hindex, List.length_cons, Nat.add_assoc, Nat.add_comm 1]

/-- The template found is the first one that matches. -/
theorem find?_eq_some_iff {found : Selection} :
    s.find? path = some found ↔ IsFirst s.templates path found := by
  constructor
  · intro h
    obtain ⟨front, back, hs, hindex, hmatch, hfront⟩ := exists_split_of_findFrom? h
    rw [Nat.zero_add] at hindex
    refine ⟨?_, hmatch, fun i u hi hu => ?_⟩
    · rw [hs, hindex, List.getElem?_append_right (Nat.le_refl _), Nat.sub_self]
      rfl
    · rw [hs, List.getElem?_append_left (hindex ▸ hi)] at hu
      exact hfront u (List.mem_of_getElem? hu)
  · intro h
    obtain ⟨hsplit, hlength⟩ := split_of_getElem? h.getElem?_index
    have hfind := find?_of_split hsplit h.match?_of_mem_take h.match?_template
    rw [hfind, hlength]

/-- A change that keeps a template takes templates out in front of it at most. -/
theorem exists_split_of_edit (hs : s.templates = front ++ t :: back) {e : SetEdit}
    (he : e.keeps t = true) :
    ∃ rest, (s.edit e).templates = front.filter (fun u => e ≠ .erase u) ++ t :: rest := by
  cases e with
  | parse texts => cases he
  | collect ts => cases he
  -- What is added comes behind every template that is there.
  | extend ts => exact ⟨back ++ ts, by simp [edit, append, hs, List.filter_true]⟩
  | push u => exact ⟨back ++ [u], by simp [edit, push, hs, List.filter_true]⟩
  | erase u =>
    have hne : t ≠ u := fun h => by simp [SetEdit.keeps, h] at he
    refine ⟨back.filter (· ≠ u), ?_⟩
    simp [edit, eraseAll, ofList, hs, hne, eq_comm]

theorem exists_split_of_edited (hs : s.templates = front ++ t :: back) {edits : List SetEdit}
    (hedits : ∀ e ∈ edits, e.keeps t = true) :
    ∃ rest, (s.edited edits).templates =
      front.filter (fun u => .erase u ∉ edits) ++ t :: rest := by
  induction edits generalizing s front back with
  | nil => exact ⟨back, by simpa [edited, List.filter_true] using hs⟩
  | cons e edits ih =>
    obtain ⟨he, hedits⟩ := List.forall_mem_cons.1 hedits
    obtain ⟨rest, hrest⟩ := exists_split_of_edit hs he
    obtain ⟨rest, hrest⟩ := ih hrest hedits
    refine ⟨rest, hrest.trans ?_⟩
    rw [List.filter_filter]
    congr 2
    funext u
    rw [Bool.and_comm]
    simp [eq_comm]

/-- A template that is kept stays the first match, behind those in front of it that are kept too. -/
theorem find?_edited_of_keeps {found : Selection} (h : s.find? path = some found)
    {edits : List SetEdit} (hedits : ∀ e ∈ edits, e.keeps found.template = true) :
    (s.edited edits).find? path = some { found with
      index := ((s.templates.take found.index).filter fun u => .erase u ∉ edits).length } := by
  have hfirst := find?_eq_some_iff.1 h
  obtain ⟨hsplit, -⟩ := split_of_getElem? hfirst.getElem?_index
  obtain ⟨rest, hrest⟩ := exists_split_of_edited hsplit hedits
  refine find?_of_split hrest (fun u hu => ?_) hfirst.match?_template
  exact hfirst.match?_of_mem_take u (List.mem_of_mem_filter hu)

theorem find?_edit_of_adds {found : Selection} (h : s.find? path = some found) {e : SetEdit}
    (he : e.keeps found.template = true) (hadds : ∀ u, e ≠ .erase u) :
    (s.edit e).find? path = some found := by
  have hkeeps : ∀ e' ∈ [e], e'.keeps found.template = true := by simpa using he
  have hfind := find?_edited_of_keeps h hkeeps
  -- Nothing is taken out in front, so the index stays.
  have hall : (s.templates.take found.index).filter (fun u => .erase u ∉ [e]) =
      s.templates.take found.index := by
    rw [List.filter_eq_self]
    intro u _
    simp [(hadds u).symm]
  rw [hall, (find?_eq_some_iff.1 h).length_take] at hfind
  exact hfind

theorem length_filter_ne (t : Template) (ts : List Template) :
    (ts.filter (· ≠ t)).length = ts.length - ts.count t := by
  have hcount := List.length_eq_countP_add_countP (· == t) (l := ts)
  rw [List.count, ← List.countP_eq_length_filter, hcount, Nat.add_sub_cancel_left]
  congr 1
  funext u
  simp

theorem templates_eraseAll (s : TemplateSet) (t : Template) :
    (s.eraseAll t).2.templates = s.templates.filter (· ≠ t) := rfl

theorem eraseAll_fst_iff : (s.eraseAll t).1 = true ↔ t ∈ s.templates := by
  have hlength :
      (s.eraseAll t).1 = true ↔ (s.templates.filter (· ≠ t)).length ≠ s.templates.length :=
    bne_iff_ne
  rw [hlength, Ne, List.length_filter_eq_length_iff]
  simp

theorem find?_eraseAll_of_ne {found : Selection} (h : s.find? path = some found)
    (hne : found.template ≠ t) :
    (s.eraseAll t).2.find? path =
      some { found with index := found.index - (s.templates.take found.index).count t } := by
  have hkeeps : ∀ e ∈ [SetEdit.erase t], e.keeps found.template = true := by
    simp [SetEdit.keeps, hne.symm]
  have hfilter : (s.templates.take found.index).filter (fun u => .erase u ∉ [SetEdit.erase t]) =
      (s.templates.take found.index).filter (· ≠ t) := by
    congr 1
    funext u
    simp
  have hfind := find?_edited_of_keeps h hkeeps
  rw [hfilter, length_filter_ne, (find?_eq_some_iff.1 h).length_take] at hfind
  exact hfind

theorem findFrom?_add (m n : Nat) (ts : List Template) :
    findFrom? path (m + n) ts =
      (findFrom? path n ts).map fun found => { found with index := m + found.index } := by
  induction ts generalizing n with
  | nil => rfl
  | cons u ts ih =>
    rw [findFrom?, findFrom?]
    cases u.match? path with
    | none => exact ih (n + 1)
    | some b => rfl

/-- When the first match is taken out, the first of the later matches comes in its place. -/
theorem find?_eraseAll_of_eq {found : Selection} (h : s.find? path = some found)
    (heq : found.template = t) :
    (s.eraseAll t).2.find? path =
      ((ofList ((s.templates.drop (found.index + 1)).filter (· ≠ t))).find? path).map fun next =>
        { next with
          index := found.index - (s.templates.take found.index).count t + next.index } := by
  have hfirst := find?_eq_some_iff.1 h
  -- The templates in front of the first match go on not to match.
  have hkept : (s.eraseAll t).2.templates = (s.templates.take found.index).filter (· ≠ t) ++
      (s.templates.drop (found.index + 1)).filter (· ≠ t) := by
    obtain ⟨hsplit, -⟩ := split_of_getElem? hfirst.getElem?_index
    have hfilter := congrArg (List.filter (· ≠ t)) hsplit
    rwa [List.filter_append, heq, List.filter_cons_of_neg (by simp)] at hfilter
  have hfront : ∀ u ∈ (s.templates.take found.index).filter (· ≠ t), u.match? path = none :=
    fun u hu => hfirst.match?_of_mem_take u (List.mem_of_mem_filter hu)
  rw [find?, hkept, findFrom?_append hfront, length_filter_ne, hfirst.length_take, Nat.zero_add]
  exact findFrom?_add _ 0 _

theorem find?_eraseAll_eq_none (h : s.find? path = none) (t : Template) :
    (s.eraseAll t).2.find? path = none := by
  rw [find?_eq_none_iff] at h ⊢
  exact fun u hu => h u (List.mem_of_mem_filter hu)

theorem parse_cons_of_error {text : String} {e : ParseError} (h : Template.parse text = .error e)
    (texts : List String) : parse (text :: texts) = .error e := by
  rw [parse, List.mapM_cons, h]
  rfl

theorem parse_cons_of_ok {text : String} (h : Template.parse text = .ok t) (texts : List String) :
    parse (text :: texts) = (parse texts).map fun s => ofList (t :: s.templates) := by
  rw [parse, List.mapM_cons, h, parse]
  cases texts.mapM Template.parse <;> rfl

theorem parse_eq_ok_iff {texts : List String} :
    parse texts = .ok s ↔ texts.map Template.parse = s.templates.map .ok := by
  induction texts generalizing s with
  | nil =>
    obtain ⟨ts⟩ := s
    cases ts <;> simp [parse, ofList, Except.map, pure, Except.pure]
  | cons text texts ih =>
    obtain ⟨ts⟩ := s
    cases h : Template.parse text with
    | error e =>
      rw [parse_cons_of_error h]
      cases ts <;> simp [h]
    | ok t =>
      rw [parse_cons_of_ok h]
      cases ts with
      | nil => cases parse texts <;> simp [Except.map, ofList]
      | cons u ts =>
        have hrest : texts.map Template.parse = ts.map .ok ↔ parse texts = .ok (ofList ts) :=
          ih.symm
        rw [List.map_cons, List.map_cons, List.cons.injEq, h, hrest]
        cases parse texts with
        | error e => simp [Except.map]
        | ok v =>
          obtain ⟨vs⟩ := v
          simp [Except.map, ofList]

theorem parse_append_of_error {text : String} {e : ParseError} (h : Template.parse text = .error e)
    (rest : List String) {texts : List String}
    (htexts : ∀ x ∈ texts, ∃ t, Template.parse x = .ok t) :
    parse (texts ++ text :: rest) = .error e := by
  induction texts with
  | nil => exact parse_cons_of_error h rest
  | cons x texts ih =>
    obtain ⟨⟨t, hx⟩, htexts⟩ := List.forall_mem_cons.1 htexts
    rw [List.cons_append, parse_cons_of_ok hx, ih htexts]
    rfl

theorem exists_split_of_parse_error {texts : List String} {e : ParseError}
    (h : parse texts = .error e) :
    ∃ front text back, texts = front ++ text :: back ∧
      (∀ x ∈ front, ∃ t, Template.parse x = .ok t) ∧ Template.parse text = .error e := by
  induction texts with
  | nil => cases h
  | cons text texts ih =>
    cases htext : Template.parse text with
    | error other =>
      rw [parse_cons_of_error htext] at h
      cases h
      exact ⟨[], text, texts, rfl, List.forall_mem_nil _, htext⟩
    | ok t =>
      have hrest : parse texts = .error e := by
        rw [parse_cons_of_ok htext] at h
        cases hparse : parse texts <;> simp_all [Except.map]
      obtain ⟨front, x, back, rfl, hfront, hx⟩ := ih hrest
      exact ⟨text :: front, x, back, rfl, List.forall_mem_cons.2 ⟨⟨t, htext⟩, hfront⟩, hx⟩

theorem parse_error_iff {texts : List String} {e : ParseError} :
    parse texts = .error e ↔ ∃ front text back, texts = front ++ text :: back ∧
      (∀ x ∈ front, ∃ t, Template.parse x = .ok t) ∧ Template.parse text = .error e := by
  constructor
  · exact exists_split_of_parse_error
  · rintro ⟨front, text, back, rfl, hfront, htext⟩
    exact parse_append_of_error htext back hfront

/-- A look-up finds the first template that matches, whatever changes made the set. -/
theorem find?_edited (edits : List SetEdit) (path : String) :
    let s := empty.edited edits
    (∀ found, s.find? path = some found ↔ IsFirst s.templates path found) ∧
    (s.find? path = none ↔ ∀ t ∈ s.templates, t.match? path = none) ∧
    (∀ found, s.find? path = some found →
      (∀ ts, (s.append ts).find? path = some found) ∧
      (∀ t, (s.push t).find? path = some found) ∧
      (∀ t, found.template ≠ t → (s.eraseAll t).2.find? path =
        some { found with index := found.index - (s.templates.take found.index).count t }) ∧
      (∀ t, found.template = t → (s.eraseAll t).2.find? path =
        ((ofList ((s.templates.drop (found.index + 1)).filter (· ≠ t))).find? path).map fun next =>
          { next with
            index := found.index - (s.templates.take found.index).count t + next.index }) ∧
      (∀ more : List SetEdit, (∀ e ∈ more, e.keeps found.template = true) →
        (s.edited more).find? path = some { found with
          index := ((s.templates.take found.index).filter fun u => .erase u ∉ more).length })) ∧
    (∀ t, (s.eraseAll t).2.templates = s.templates.filter (· ≠ t) ∧
      ((s.eraseAll t).1 = true ↔ t ∈ s.templates) ∧
      (s.find? path = none → (s.eraseAll t).2.find? path = none)) ∧
    (∀ texts, (∀ u, parse texts = .ok u ↔ texts.map Template.parse = u.templates.map .ok) ∧
      ∀ e, parse texts = .error e ↔ ∃ front text back, texts = front ++ text :: back ∧
        (∀ x ∈ front, ∃ t, Template.parse x = .ok t) ∧ Template.parse text = .error e) := by
  intro s
  refine ⟨fun _ => find?_eq_some_iff, find?_eq_none_iff, ?_, ?_, ?_⟩
  · intro found h
    refine ⟨fun ts => ?_, fun t => ?_, fun t => find?_eraseAll_of_ne h,
      fun t => find?_eraseAll_of_eq h,
      fun more => find?_edited_of_keeps h⟩
    · exact find?_edit_of_adds h (e := .extend ts) rfl (by simp)
    · exact find?_edit_of_adds h (e := .push t) rfl (by simp)
  · intro t
    exact ⟨templates_eraseAll s t, eraseAll_fst_iff, fun h => find?_eraseAll_eq_none h t⟩
  · intro texts
    exact ⟨fun _ => parse_eq_ok_iff, fun _ => parse_error_iff⟩

theorem find?_edited_winner_erased :
    let one : Template := ⟨[.literal "/", .var "x"]⟩
    let many : Template := ⟨[.literal "/", .splat "xs"]⟩
    let other : Template := ⟨[.literal "/", .literal "bar"]⟩
    let edits : List SetEdit :=
      [.push one, .parse ["/bar", "/:x", "/bar", "/:x"], .erase many, .extend [many], .push one]
    let s := empty.edited edits
    let found : Selection := ⟨1, one, Bindings.ofList [("x", .one "foo")]⟩
    s.templates = [other, one, other, one, many, one] ∧ s.find? "/foo" = some found ∧
      (s.eraseAll other).2.find? "/foo" = some { found with index := 0 } ∧
      (s.eraseAll one).2.find? "/foo" =
        some ⟨2, many, Bindings.ofList [("xs", .many ["foo"])]⟩ := by
  intro one many other edits s found
  have hparse : parse ["/bar", "/:x", "/bar", "/:x"] = .ok ⟨[other, one, other, one]⟩ := by
    have hone : Template.parse "/:x" = .ok one := Template.parse_eq_ok_iff.2 ⟨rfl, rfl⟩
    have hother : Template.parse "/bar" = .ok other := Template.parse_eq_ok_iff.2 ⟨rfl, rfl⟩
    rw [parse_eq_ok_iff, List.map_cons, List.map_cons, List.map_cons, List.map_cons, hone, hother]
    rfl
  have hs : s.templates = [other, one, other, one, many, one] := by
    have hread : (empty.push one).edit (.parse ["/bar", "/:x", "/bar", "/:x"]) =
        ⟨[other, one, other, one]⟩ := by
      rw [edit, hparse]
      rfl
    have hsession : s = TemplateSet.edited ⟨[other, one, other, one]⟩
        [.erase many, .extend [many], .push one] := by
      rw [← hread]
      rfl
    rw [hsession]
    decide
  have hone : one.match? "/foo" = some found.bindings := by
    rw [Template.match?, Match.search_eq_outcome]
    rfl
  have hmany : many.match? "/foo" = some (Bindings.ofList [("xs", .many ["foo"])]) := by
    rw [Template.match?, Match.search_eq_outcome]
    rfl
  have hother : other.match? "/foo" = none := by
    rw [Template.match?, Match.search_eq_outcome]
    rfl
  obtain ⟨hfirst, -, hedit, -⟩ := find?_edited edits "/foo"
  have hfind : s.find? "/foo" = some found := by
    refine (hfirst found).2 ⟨by rw [hs]; rfl, hone, fun i t hi ht => ?_⟩
    obtain rfl : i = 0 := Nat.lt_one_iff.1 hi
    rw [hs] at ht
    cases ht
    exact hother
  obtain ⟨-, -, hne, heq, -⟩ := hedit found hfind
  refine ⟨hs, hfind, ?_, ?_⟩
  · rw [hne other (by decide), hs]
    rfl
  · have hrest : ((s.templates.drop (found.index + 1)).filter (· ≠ one)) = [other, many] := by
      rw [hs]
      decide
    rw [heq one rfl, hrest, hs, ofList, find?, findFrom?, hother]
    dsimp only
    rw [findFrom?, hmany]
    rfl

end TemplateSet

end RouteTemplate
