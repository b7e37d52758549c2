import RouteTemplate.Match.Levels
import RouteTemplate.Proofs.FirstWay
import RouteTemplate.Proofs.SoundTokens

namespace RouteTemplate

namespace Match

variable {slices other : List (List Token)} {cursor place : Cursor}

/-- A nested search has fewer choice points left. -/
theorem Calls.choicePoints_lt (h : Calls slices cursor other place) :
    choicePoints other < choicePoints slices := by
  cases h with
  | behind turn _ => exact choicePoints_lt_of_capture turn
  | inside turn => exact choicePoints_lt_of_group turn
  | past turn =>
    have hlt := choicePoints_lt_of_group turn
    rw [choicePoints] at hlt
    omega

theorem level_eq_some {nested : Nested}
    (h : ∀ other place, Calls slices cursor other place →
      ∀ log, nested other place log = some (search other place log)) (log : Log) :
    level nested slices cursor log = some (search slices cursor log) := by
  rw [level, search_eq]
  cases turn : Turn.of slices cursor with
  | blocked => rfl
  | ended stop => rfl
  | capture name captures rest =>
    apply firstSuccess?_eq_some
    intro k hk log
    exact noting?_eq_some (h rest k.stop (.behind turn hk)) name k.value log
  | group inner rest stop =>
    simp only [h _ _ (.inside turn), h _ _ (.past turn)]
    rcases search (inner :: rest) stop log with ⟨_ | _, left⟩ <;> rfl

/-- More levels than choice points are enough. -/
theorem searchWithin_eq_some {levels : Nat} (h : choicePoints slices < levels) (cursor : Cursor)
    (log : Log) : searchWithin levels slices cursor log = some (search slices cursor log) := by
  induction levels generalizing slices cursor log with
  | zero => exact absurd h (Nat.not_lt_zero _)
  | succ levels ih =>
    apply level_eq_some
    intro other place hcalls log
    exact ih (Nat.lt_of_lt_of_le hcalls.choicePoints_lt (Nat.le_of_lt_succ h)) place log

end Match

namespace Template

open Grammar

theorem matchWithin?_eq_some {t : Template} {levels : Nat} (h : t.choicePoints < levels)
    (path : String) : t.matchWithin? levels path = some (t.match? path) := by
  have hlt : Match.choicePoints [t.tokens] < levels := h
  rw [matchWithin?, Match.searchWithin_eq_some hlt, match?]
  rcases Match.search [t.tokens] (Cursor.start path.toList) [] with ⟨_ | _, log⟩ <;> rfl

theorem choicePoints_le_of_parse_or_append {t : Template}
    (h : (∃ text, parse text = .ok t) ∨ ∃ s fragment, append s fragment = .ok t) :
    t.choicePoints ≤ maxChoicePoints := by
  rcases h with ⟨text, h⟩ | ⟨s, fragment, h⟩
  · exact (isSound_of_parse h).choicePoints_le
  · obtain ⟨addition, -, hcount, rfl⟩ := append_eq_ok_iff.1 h
    exact hcount

/-- One level more than there are choice points is enough for any path. -/
theorem match?_within_levels (t : Template) (path : String) :
    (∀ slices cursor other place, Match.Calls slices cursor other place →
      Match.choicePoints other < Match.choicePoints slices) ∧
    (∀ slices cursor nested,
      (∀ other place, Match.Calls slices cursor other place →
        ∀ log, nested other place log = some (Match.search other place log)) →
      ∀ log, Match.level nested slices cursor log = some (Match.search slices cursor log)) ∧
    (∀ levels, t.choicePoints < levels → t.matchWithin? levels path = some (t.match? path)) ∧
    ((∃ text, parse text = .ok t) ∨ (∃ s fragment, append s fragment = .ok t) →
      t.matchWithin? (maxChoicePoints + 1) path = some (t.match? path)) := by
  refine ⟨fun _ _ _ _ hcalls => hcalls.choicePoints_lt, fun _ _ _ hnested log => ?_, ?_, ?_⟩
  · exact Match.level_eq_some hnested log
  · intro levels hlevels
    exact matchWithin?_eq_some hlevels path
  · intro hmade
    have hle := choicePoints_le_of_parse_or_append hmade
    exact matchWithin?_eq_some (Nat.lt_succ_of_le hle) path

theorem match?_within_levels_given_back_slash :
    let t : Template :=
      ⟨[.literal "/", .literal "foo", .literal "/", .splat "bar", .literal "/", .var "baz"]⟩
    let found := Bindings.ofList [("bar", .many []), ("baz", .one "qux")]
    parse "/foo/*bar/:baz" = .ok t ∧ t.choicePoints < 3 ∧
      t.matchWithin? 3 "/foo/qux" = some (some found) ∧
      t.matchWithin? 257 "/foo/qux" = some (some found) := by
  intro t found
  have hparse : parse "/foo/*bar/:baz" = .ok t := parse_eq_ok_iff.2 ⟨rfl, rfl⟩
  have hlt : t.choicePoints < 3 := by decide
  have hmatch : t.match? "/foo/qux" = some found := by
    rw [match?, Match.search_eq_outcome]
    rfl
  obtain ⟨-, -, hlevels, hmade⟩ := match?_within_levels t "/foo/qux"
  rw [hmatch] at hlevels hmade
  exact ⟨hparse, hlt, hlevels 3 hlt, hmade (.inl ⟨_, hparse⟩)⟩

/-- One level for each choice point is not enough. -/
example : matchWithin? 1 ⟨[.var "a"]⟩ "a" = none := by rfl

end Template

end RouteTemplate
