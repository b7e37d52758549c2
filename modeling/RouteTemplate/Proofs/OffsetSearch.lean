import RouteTemplate.Match.Offsets
import RouteTemplate.Proofs.Decomposition

namespace RouteTemplate

open Grammar

variable {path : String} {c d : Cursor}

namespace Cursor

theorem skip?_take (c : Cursor) (n : Nat) : c.skip? (c.after.take n) = some (c.advance n) :=
  skip?_eq_some_iff.2 ⟨(List.take_append_drop n c.after).symm, rfl⟩

theorem offset_advance (c : Cursor) (n : Nat) :
    (c.advance n).offset = c.offset + byteWidth (c.after.take n) :=
  offset_of_skip? (c.skip?_take n)

theorem offset_advance_lt {m n : Nat} (hmn : m < n) (hn : n ≤ c.after.length) :
    (c.advance m).offset < (c.advance n).offset := by
  have hpos : 0 < byteWidth ((c.after.take n).drop m) := by
    refine Nat.lt_of_lt_of_le ?_ (length_le_byteWidth _)
    rw [List.length_drop, List.length_take]
    omega
  have htake : (c.after.take n).take m = c.after.take m := by
    rw [List.take_take, Nat.min_eq_left (Nat.le_of_lt hmn)]
  rw [offset_advance, offset_advance, ← List.take_append_drop m (c.after.take n), htake,
    byteWidth_append]
  omega

theorem length_run_le (c : Cursor) : c.run.length ≤ c.after.length :=
  (List.takeWhile_sublist _).length_le

end Cursor

theorem shrinkingWithin?_offset {rounds n : Nat} (h : c.path = path.toList)
    (hn : n ≤ c.after.length) (hrounds : n < rounds) :
    shrinkingWithin? path c.offset rounds (c.advance n).offset =
      some ((List.range n).reverse.map fun k =>
        (c.after.take (k + 1), (c.advance (k + 1)).offset)) := by
  induction n generalizing rounds with
  | zero =>
    obtain ⟨rounds, rfl⟩ : ∃ r, rounds = r + 1 := ⟨rounds - 1, by omega⟩
    have hzero : (c.advance 0).offset = c.offset := c.offset_advance 0
    rw [shrinkingWithin?, hzero, if_neg (Nat.lt_irrefl _)]
    rfl
  | succ n ih =>
    obtain ⟨rounds, rfl⟩ : ∃ r, rounds = r + 1 := ⟨rounds - 1, by omega⟩
    -- A round takes the last character off, and the offset goes down by its width.
    have hlt : c.offset < (c.advance (n + 1)).offset := Cursor.offset_advance_lt n.succ_pos hn
    have htext := textBetween?_of_skip? h (c.skip?_take (n + 1))
    have hshorter : (c.after.take (n + 1)).dropLast = c.after.take n := by
      rw [List.dropLast_eq_take, List.length_take_of_le hn, List.take_take, Nat.add_sub_cancel,
        Nat.min_eq_left n.le_succ]
    rw [shrinkingWithin?, if_pos hlt, htext, List.range_succ, List.reverse_append]
    simp only [Option.bind_eq_bind, Option.bind_some, hshorter, ← c.offset_advance]
    rw [ih (Nat.le_of_succ_le hn) (Nat.lt_of_succ_lt_succ hrounds)]
    rfl

theorem runsAt?_offset {rounds : Nat} (h : c.path = path.toList)
    (hrounds : c.after.length < rounds) :
    runsAt? path rounds c.offset = some ((List.range c.run.length).reverse.map fun k =>
      (c.after.take (k + 1), (c.advance (k + 1)).offset)) := by
  have hstop : c.offset + runWidth c.after = (c.advance c.run.length).offset := by
    rw [c.offset_advance, ← Cursor.take_run (Nat.le_refl _), List.take_length]
    rfl
  rw [runsAt?, textFrom?_offset h]
  simp only [Option.bind_eq_bind, Option.bind_some, hstop]
  exact shrinkingWithin?_offset h c.length_run_le (Nat.lt_of_le_of_lt c.length_run_le hrounds)

/-- The ends that a variable tries are the places up to which no boundary comes. -/
theorem mem_ends_iff (h : c.path = path.toList) {stop : Nat} :
    (∃ k < c.run.length, (c.advance (k + 1)).offset = stop) ↔
      c.offset < stop ∧ String.Pos.Raw.IsValid path ⟨stop⟩ ∧
        ∃ text, textBetween? path c.offset stop = some text ∧ ∀ x ∈ text, isBoundary x = false := by
  constructor
  · rintro ⟨k, hk, rfl⟩
    have hle : k + 1 ≤ c.after.length := Nat.le_trans hk c.length_run_le
    refine ⟨Cursor.offset_advance_lt k.succ_pos hle, Cursor.isValid_offset ?_, _,
      textBetween?_of_skip? h (c.skip?_take _), fun x hx => ?_⟩
    · rw [Cursor.path_advance, h]
    · rw [← Cursor.take_run hk] at hx
      exact Cursor.isBoundary_of_mem_run (List.mem_of_mem_take hx)
  · rintro ⟨hlt, -, text, hbetween, hall⟩
    obtain ⟨c', d, hc', hskip, rfl⟩ := textBetween?_eq_some_iff.1 hbetween
    rw [Cursor.at?_eq_some_iff.2 ⟨h, rfl⟩] at hc'
    obtain rfl := Option.some.inj hc'
    obtain ⟨hbegins, rfl⟩ := skip?_eq_some_iff_advance.1 hskip
    have hne : text ≠ [] := by
      rintro rfl
      exact Nat.lt_irrefl _ hlt
    have hrun : text <+: c.run := isPrefix_takeWhile hbegins fun x hx => by simp [hall x hx]
    have hpos : 0 < text.length := List.length_pos_iff.2 hne
    have hle := hrun.length_le
    exact ⟨text.length - 1, by omega, by rw [Nat.sub_add_cancel hpos]⟩

theorem pairwise_ends (c : Cursor) :
    ((List.range c.run.length).reverse.map fun k => (c.advance (k + 1)).offset).Pairwise
      (· > ·) := by
  rw [List.pairwise_map, List.pairwise_reverse]
  apply List.pairwise_lt_range.imp_of_mem
  intro m n _ hn hmn
  have hle : n + 1 ≤ c.after.length := Nat.le_trans (List.mem_range.1 hn) c.length_run_le
  exact Cursor.offset_advance_lt (Nat.succ_lt_succ hmn) hle

theorem Cursor.offset_of_giveBack? (h : c.giveBack? = some d) : d.offset + 1 = c.offset := by
  rw [offset, offset, (giveBack?_eq_some_iff.1 h).1, byteWidth, Nat.add_comm]
  rfl

theorem giveBackAt?_offset (h : c.path = path.toList) :
    giveBackAt? path c.offset = some (c.giveBack?.map Cursor.offset) := by
  rw [giveBackAt?, textTo?_offset h]
  cases hback : c.giveBack? with
  | none =>
    have hlast : c.before.head? ≠ some '/' := by
      intro hhead
      obtain ⟨before, hbefore⟩ := List.head?_eq_some_iff.1 hhead
      have hsome := Cursor.giveBack?_eq_some_iff (d := ⟨before, '/' :: c.after⟩).2 ⟨hbefore, rfl⟩
      rw [hback] at hsome
      cases hsome
    split
    · rfl
    · simp [hlast]
  | some d =>
    have hoffset := Cursor.offset_of_giveBack? hback
    have hlast : c.before.head? = some '/' := by
      rw [(Cursor.giveBack?_eq_some_iff.1 hback).1, List.head?_cons]
    have hminus : minus? c.offset 1 = some d.offset := by
      rw [minus?, ← hoffset, if_pos (Nat.le_add_left 1 _), Nat.add_sub_cancel]
    rw [if_neg (by omega)]
    simp [hlast, hminus]

namespace Match

def atOffset (k : Capture) : Value × Nat := (k.value.get, k.stop.offset)

theorem varCapturesAt?_offset (h : c.path = path.toList) :
    varCapturesAt? path c.offset = some (c.varCaptures.map atOffset) := by
  have hrounds : c.after.length < path.utf8ByteSize + 1 :=
    Nat.lt_succ_of_le (length_after_le_utf8ByteSize h)
  rw [varCapturesAt?, runsAt?_offset h hrounds, Cursor.varCaptures, c.zipIdx_stops]
  simp [Function.comp_def, atOffset, Thunk.get]

theorem fewerSegments?_eq_some {segments : List Segment} {n : Nat} (hn : n ≤ segments.length) :
    fewerSegments? (segments.map Segment.ended) n =
      some ((segments.take n).zipIdx.reverse.map fun p =>
        (.many ((segments.take (p.2 + 1)).map (String.ofList ·.text)), p.1.stop.offset)) := by
  induction n with
  | zero => rfl
  | succ n ih =>
    have hlast : (segments.map Segment.ended)[n]? = some segments[n].ended := by
      rw [List.getElem?_map, List.getElem?_eq_getElem hn]
      rfl
    have hzip : (segments.take (n + 1)).zipIdx.reverse =
        (segments[n], n) :: (segments.take n).zipIdx.reverse := by
      rw [List.take_succ_eq_append_getElem hn, List.zipIdx_append, List.reverse_append,
        List.length_take_of_le (Nat.le_of_succ_le hn)]
      simp
    rw [fewerSegments?, hlast, ih (Nat.le_of_succ_le hn), hzip, ← List.map_take, List.map_map]
    rfl

theorem splatCapturesAt?_offset (h : c.path = path.toList) :
    splatCapturesAt? path c.offset = some (c.splatCaptures.map atOffset) := by
  have hrounds : c.after.length < path.utf8ByteSize + 1 :=
    Nat.lt_succ_of_le (length_after_le_utf8ByteSize h)
  rw [splatCapturesAt?, segmentsAt?_offset h hrounds]
  simp only [Option.bind_eq_bind, Option.bind_some, List.length_map,
    fewerSegments?_eq_some (Nat.le_refl _), giveBackAt?_offset h]
  have hpure : (Thunk.pure (Value.many [])).get = .many [] := rfl
  have hmake : ∀ f : Unit → Value, (Thunk.mk f).get = f () := fun _ => rfl
  cases hback : c.giveBack? <;>
    simp [Cursor.splatCaptures, hback, atOffset, Function.comp_def, hpure, hmake]

theorem path_stop_of_mem_captures {t : Token} {name : Option String} {captures : List Capture}
    (hways : captures.map (Capture.way name) = t.ways c) {k : Capture} (hk : k ∈ captures) :
    k.stop.path = c.path := by
  have hway : k.way name ∈ t.ways c := by
    rw [← hways]
    exact List.mem_map_of_mem hk
  exact Token.path_of_mem_ways hway

theorem firstSuccess?_map {α β : Type} (attempt : β → Log → Option (Bool × Log)) (f : α → β)
    (xs : List α) (log : Log) :
    firstSuccess? attempt (xs.map f) log = firstSuccess? (fun x => attempt (f x)) xs log := by
  induction xs generalizing log with
  | nil => rfl
  | cons x xs ih =>
    rw [List.map_cons, firstSuccess?, firstSuccess?]
    simp only [ih]

theorem firstSuccess?_atOffset {captures : List Capture} {rest : List (List Token)}
    (hcaptures : ∀ k ∈ captures, k.stop.path = path.toList)
    (hrest : ∀ {d : Cursor}, d.path = path.toList →
      ∀ log, searchAt? path rest d.offset log = some (search rest d log))
    (name : Option String) (log : Log) :
    firstSuccess? (fun k => noting? name (.pure k.1) (searchAt? path rest k.2))
      (captures.map atOffset) log =
        some (firstSuccess (fun k => noting name k.value (search rest k.stop)) captures log) := by
  rw [firstSuccess?_map]
  apply firstSuccess?_eq_some
  intro k hk log
  exact noting?_eq_some (hrest (hcaptures k hk)) name (.pure k.value.get) log

theorem offset_eq_utf8ByteSize_iff (h : c.path = path.toList) :
    c.offset = path.utf8ByteSize ↔ c.after = [] := by
  rw [← byteWidth_toList, ← h, Cursor.path, byteWidth_append, byteWidth_reverse,
    ← byteWidth_eq_zero_iff, Cursor.offset]
  omega

/-- From each place of the path the search by offsets gives what the search by places gives. -/
theorem searchAt?_offset {slices : List (List Token)} (h : c.path = path.toList) (log : Log) :
    searchAt? path slices c.offset log = some (search slices c log) := by
  -- The slices settle which branch is taken; a search inside it is from a place of the same path.
  induction slices using slices_induction generalizing c log with
  | nil =>
    have hend : (c.offset == path.utf8ByteSize) = c.atEnd := by
      rw [Bool.eq_iff_iff, beq_iff_eq, offset_eq_utf8ByteSize_iff h, Cursor.atEnd, List.isEmpty_iff]
    rw [searchAt?, textFrom?_offset h, search_nil, ← hend]
    rfl
  | nil_cons below ih =>
    rw [searchAt?, textFrom?_offset h, search_nil_cons]
    exact ih h log
  | literal text ts below ih =>
    rw [searchAt?, textFrom?_offset h, search_literal]
    simp only [Option.bind_eq_bind, Option.bind_some]
    cases hskip : c.skip? text.toList with
    | none =>
      rw [if_neg fun hbegins => by simp [skip?_eq_ite, hbegins] at hskip]
    | some next =>
      have hbegins := (skip?_eq_some_iff_advance.1 hskip).1
      have hoffset := Cursor.offset_of_skip? hskip
      rw [byteWidth_toList] at hoffset
      rw [if_pos (List.isPrefixOf_iff_prefix.2 hbegins), ← hoffset]
      exact ih ((Cursor.path_of_skip? hskip).trans h) log
  | var name ts below ih =>
    rw [searchAt?, textFrom?_offset h, varCapturesAt?_offset h, search_var]
    have hstop : ∀ k ∈ c.varCaptures, k.stop.path = c.path := fun _ =>
      path_stop_of_mem_captures (t := .var name) (map_way_varCaptures name c)
    exact firstSuccess?_atOffset (fun k hk => (hstop k hk).trans h) ih name log
  | splat name ts below ih =>
    rw [searchAt?, textFrom?_offset h, splatCapturesAt?_offset h, search_splat]
    have hstop : ∀ k ∈ c.splatCaptures, k.stop.path = c.path := fun _ =>
      path_stop_of_mem_captures (t := .splat name) (map_way_splatCaptures name c)
    exact firstSuccess?_atOffset (fun k hk => (hstop k hk).trans h) ih name log
  | group inner ts below hinner ih =>
    rw [searchAt?, textFrom?_offset h, search_group]
    simp only [Option.bind_eq_bind, Option.bind_some, hinner h log]
    rcases search (inner :: ts :: below) c log with ⟨_ | _, left⟩
    · exact ih h left
    · rfl

theorem searchAt?_eq_none {offset : Nat} (h : ¬ String.Pos.Raw.IsValid path ⟨offset⟩)
    (slices : List (List Token)) (log : Log) : searchAt? path slices offset log = none := by
  have hnone : textFrom? path offset = none := by
    rw [textFrom?, Option.map_eq_none_iff, ← Option.not_isSome_iff_eq_none, Cursor.isSome_at?_iff]
    exact h
  rw [searchAt?, hnone]
  rfl

end Match

open Match

theorem isValid_of_mem_map_atOffset (h : c.path = path.toList) {captures : List Capture}
    (hcaptures : ∀ k ∈ captures, k.stop.path = c.path) :
    ∀ k ∈ captures.map atOffset, String.Pos.Raw.IsValid path ⟨k.2⟩ := by
  intro k hk
  obtain ⟨k, hmem, rfl⟩ := List.mem_map.1 hk
  exact Cursor.isValid_offset ((hcaptures k hmem).trans h)

theorem isValid_of_mem_segments (h : c.path = path.toList) :
    ∀ s ∈ c.segments.map Segment.ended, String.Pos.Raw.IsValid path ⟨s.2⟩ := by
  intro ended hended
  obtain ⟨s, hs, rfl⟩ := List.mem_map.1 hended
  obtain ⟨k, hk⟩ := List.getElem?_of_mem hs
  exact Cursor.isValid_offset ((Cursor.path_stop_of_getElem? hk).trans h)

theorem isValid_of_mem_giveBack? (h : c.path = path.toList) :
    ∀ stop ∈ c.giveBack?.map Cursor.offset,
      stop + 1 = c.offset ∧ String.Pos.Raw.IsValid path ⟨stop⟩ := by
  intro stop hstop
  obtain ⟨d, hd, rfl⟩ := Option.map_eq_some_iff.1 hstop
  refine ⟨Cursor.offset_of_giveBack? hd, Cursor.isValid_offset ?_⟩
  obtain ⟨hbefore, hafter⟩ := Cursor.giveBack?_eq_some_iff.1 hd
  rw [← h, Cursor.path, Cursor.path, hbefore, hafter]
  simp

theorem Template.matchAt?_eq_some (t : Template) (path : String) :
    t.matchAt? path = some (t.match? path) := by
  have hstart : Cursor.at? path 0 = some (Cursor.start path.toList) :=
    Cursor.at?_eq_some_iff.2 ⟨Cursor.path_start _, rfl⟩
  have hsearch : searchAt? path [t.tokens] 0 [] =
      some (search [t.tokens] (Cursor.start path.toList) []) :=
    searchAt?_offset (Cursor.at?_eq_some_iff.1 hstart).1 []
  rw [matchAt?, match?, hsearch]
  rcases search [t.tokens] (Cursor.start path.toList) [] with ⟨_ | _, log⟩ <;> rfl

/-- From a place the search by offsets comes to places only, so it never fails. -/
theorem Template.matchAt?_never_fails (path : String) :
    (∀ t : Template, t.matchAt? path = some (t.match? path)) ∧
    (∀ slices offset log,
      (¬ String.Pos.Raw.IsValid path ⟨offset⟩ → searchAt? path slices offset log = none) ∧
      ∀ c, Cursor.at? path offset = some c →
        searchAt? path slices offset log = some (search slices c log)) ∧
    ∀ offset, String.Pos.Raw.IsValid path ⟨offset⟩ →
      (∃ captures, varCapturesAt? path offset = some captures ∧
        ∀ k ∈ captures, String.Pos.Raw.IsValid path ⟨k.2⟩) ∧
      (∃ captures, splatCapturesAt? path offset = some captures ∧
        ∀ k ∈ captures, String.Pos.Raw.IsValid path ⟨k.2⟩) ∧
      (∃ segments, segmentsAt? path (path.utf8ByteSize + 1) offset = some segments ∧
        ∀ s ∈ segments, String.Pos.Raw.IsValid path ⟨s.2⟩) ∧
      (∃ back, giveBackAt? path offset = some back ∧
        ∀ stop ∈ back, stop + 1 = offset ∧ String.Pos.Raw.IsValid path ⟨stop⟩) ∧
      ∃ runs, runsAt? path (path.utf8ByteSize + 1) offset = some runs ∧
        (runs.map Prod.snd).Pairwise (· > ·) ∧
        ∀ stop, stop ∈ runs.map Prod.snd ↔ offset < stop ∧ String.Pos.Raw.IsValid path ⟨stop⟩ ∧
          ∃ text, textBetween? path offset stop = some text ∧
            ∀ x ∈ text, isBoundary x = false := by
  refine ⟨fun t => ?_, fun slices offset log => ⟨fun h => searchAt?_eq_none h slices log, ?_⟩, ?_⟩
  · exact matchAt?_eq_some t path
  · intro c hc
    obtain ⟨hpath, rfl⟩ := Cursor.at?_eq_some_iff.1 hc
    exact searchAt?_offset hpath log
  · intro offset hvalid
    obtain ⟨c, hc⟩ := Option.isSome_iff_exists.1 (Cursor.isSome_at?_iff.2 hvalid)
    obtain ⟨h, rfl⟩ := Cursor.at?_eq_some_iff.1 hc
    have hrounds : c.after.length < path.utf8ByteSize + 1 :=
      Nat.lt_succ_of_le (length_after_le_utf8ByteSize h)
    refine ⟨⟨_, varCapturesAt?_offset h, ?_⟩, ⟨_, splatCapturesAt?_offset h, ?_⟩,
      ⟨_, segmentsAt?_offset h hrounds, isValid_of_mem_segments h⟩,
      ⟨_, giveBackAt?_offset h, isValid_of_mem_giveBack? h⟩, ⟨_, runsAt?_offset h hrounds, ?_⟩⟩
    · exact isValid_of_mem_map_atOffset h fun _ =>
        path_stop_of_mem_captures (t := .var none) (map_way_varCaptures none c)
    · exact isValid_of_mem_map_atOffset h fun _ =>
        path_stop_of_mem_captures (t := .splat none) (map_way_splatCaptures none c)
    · rw [List.map_map]
      refine ⟨pairwise_ends c, fun stop => ?_⟩
      rw [← mem_ends_iff h]
      simp

end RouteTemplate
