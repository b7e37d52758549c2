import RouteTemplate.Proofs.Descent

namespace RouteTemplate

open Grammar

theorem Token.spelling_of_lexemes {t : Token} {l : Lexeme} (h : t.lexemes = [l]) :
    t.spelling = l.chars := by
  have hspelling := Tokens.flatMap_chars_lexemes [t]
  rw [Tokens.lexemes, h] at hspelling
  simpa [Tokens.lexemes, Tokens.spelling] using hspelling.symm

namespace Reading

variable {text : String} {front ls : List Lexeme} {c d : Cursor} {r s : Reading}

theorem textBetween?_of_passes (hr : ComesTo text.toList front c r) (h : Passes c r ls d s) :
    textBetween? text r.offset s.offset = some (ls.flatMap Lexeme.chars) := by
  rw [hr.offset_eq, ComesTo.offset_eq (hr.trans h)]
  exact textBetween?_of_skip? hr.path_eq h.skip

theorem round_of_round? {round : Descent.Round} (hr : ComesTo text.toList front c r)
    (h : Descent.round? text r.opened.head? r.shared = some round) : Round c r round := by
  obtain ⟨round', hround', hwhat⟩ := exists_round hr.path_eq hr.offset_eq
  rwa [← Option.some.inj (hround'.symm.trans h)]

/-- A call that returns has read a group through the parenthesis that closes it. -/
theorem lexemes_of_call? {rounds levels : Nat} {inner : List Token} {back : Descent}
    (hr : ComesTo text.toList front c r) (hopen : Passes c r [.groupOpen] d s)
    (hgroups : s.groups = ⟨r.offset, r.tokens⟩ :: r.groups)
    (hcall : call? text rounds levels s = some (.ok (inner, back))) :
    ∃ e u, Passes d s (Tokens.lexemes inner ++ [.groupClose]) e u ∧ u.groups = r.groups ∧
      u.tokens = .group inner :: r.tokens ∧
      back = { u.shared with depth := u.groups.length + 1 } := by
  have hs := hr.trans hopen
  obtain ⟨ms, e, u, hpasses, hback, htokens, rfl⟩ := (call_of_call? hs hcall).exists_passes hgroups
  have hgroup := hs.trans hpasses
  rw [List.append_assoc, List.singleton_append] at hgroup
  obtain rfl := hr.lexemes_of_group hgroup hback htokens
  exact ⟨e, u, hpasses, hback, htokens, rfl⟩

end Reading

namespace Descent

open Reading

/-- What is in order at a round: where it begins, what it has counted, and what it moves over. -/
structure InOrder (text : String) (opened : List Nat) (d : Descent) : Prop where
  isValid_offset : String.Pos.Raw.IsValid text ⟨d.offset⟩
  depth_eq : d.depth = opened.length
  depth_le : d.depth ≤ maxDepth
  counts_before : ∃ before, textTo? text d.offset = some before ∧
    nesting before = d.depth ∧ marks before = d.choicePoints
  exists_round : ∃ round, round? text opened.head? d = some round
  token_moves : ∀ t next, round? text opened.head? d = some (.token t next) →
    t.spelling ≠ [] ∧ textBetween? text d.offset next.offset = some t.spelling ∧
      next.depth = d.depth
  closed_moves : ∀ next, round? text opened.head? d = some (.closed next) →
    textBetween? text d.offset next.offset = some [')'] ∧ next.depth = d.depth
  opened_moves : ∀ offset next, round? text opened.head? d = some (.opened offset next) →
    offset = d.offset ∧ textBetween? text d.offset next.offset = some ['('] ∧
      next.depth = d.depth + 1
  call_returns : ∀ offset next, round? text opened.head? d = some (.opened offset next) →
    ∀ rounds levels inner back,
      sequence? (round? text) rounds levels (some offset) [] next = some (.ok (inner, back)) →
      isBalanced (Tokens.spelling inner) = true ∧
        textBetween? text next.offset back.offset = some (Tokens.spelling inner ++ [')']) ∧
        back.depth = next.depth ∧ minus? back.depth 1 = some d.depth

/-- At each round that is reached a reading stands, with a group for each call. -/
theorem Reached.exists_comesTo {text : String} {opened : List Nat} {tokens : List Token}
    {d : Descent} (h : Reached text opened tokens d) :
    ∃ front c r, ComesTo text.toList front c r ∧ opened = r.opened ∧ tokens = r.tokens.reverse ∧
      d = r.shared := by
  induction h with
  | first => exact ⟨[], _, _, .refl _ _, rfl, rfl, rfl⟩
  | next _ hround ih =>
    obtain ⟨front, c, r, hr, rfl, rfl, rfl⟩ := ih
    cases round_of_round? hr hround with
    | token hpasses _ hgroups htokens =>
      exact ⟨_, _, _, hr.trans hpasses, (opened_eq_of_groups_eq hgroups).symm,
        by rw [htokens, List.reverse_cons], rfl⟩
  | inside _ hround ih =>
    obtain ⟨front, c, r, hr, rfl, rfl, rfl⟩ := ih
    cases round_of_round? hr hround with
    | opened hpasses hgroups htokens =>
      exact ⟨_, _, _, hr.trans hpasses, by rw [Reading.opened, Reading.opened, hgroups]; rfl,
        by rw [htokens]; rfl, rfl⟩
  | behind _ hround hcall hclosed ih =>
    obtain ⟨front, c, r, hr, rfl, rfl, rfl⟩ := ih
    cases round_of_round? hr hround with
    | opened hpasses hgroups htokens =>
      rw [sequence?_inside hgroups htokens] at hcall
      -- The call inside has read its group, and the reading goes on behind it.
      obtain ⟨e, u, hback, hgroups', htokens', rfl⟩ := lexemes_of_call? hr hpasses hgroups hcall
      obtain rfl := Option.some.inj ((minus?_depth u).symm.trans hclosed)
      exact ⟨_, _, _, (hr.trans hpasses).trans hback, (opened_eq_of_groups_eq hgroups').symm,
        by rw [htokens', List.reverse_cons], rfl⟩

theorem Reached.inOrder {text : String} {opened : List Nat} {tokens : List Token} {d : Descent}
    (h : Reached text opened tokens d) : InOrder text opened d := by
  obtain ⟨front, c, r, hr, rfl, rfl, rfl⟩ := h.exists_comesTo
  have htracks := hr.tracks
  have hoffset : r.shared.offset = c.offset := hr.offset_eq
  constructor
  case isValid_offset =>
    rw [hoffset]
    exact Cursor.isValid_offset hr.path_eq
  case depth_eq => exact (List.length_map _).symm
  case depth_le => exact hr.length_groups_le
  case counts_before =>
    refine ⟨c.before.reverse, ?_, htracks.length_groups.symm, htracks.choicePoints_eq.symm⟩
    rw [hoffset, textTo?_offset hr.path_eq]
  case exists_round =>
    obtain ⟨round, hround, -⟩ := Reading.exists_round hr.path_eq hr.offset_eq
    exact ⟨round, hround⟩
  case token_moves =>
    intro t next hround
    cases round_of_round? hr hround with
    | token hpasses hlexemes hgroups _ =>
      have hbetween := textBetween?_of_passes hr hpasses
      rw [List.flatMap_singleton] at hbetween
      rw [Token.spelling_of_lexemes hlexemes]
      exact ⟨Lexeme.chars_ne_nil (hpasses.isWhole _ List.mem_cons_self), hbetween,
        congrArg List.length hgroups⟩
  case closed_moves =>
    intro next hround
    cases round_of_round? hr hround with
    | closed hopen hpasses _ =>
      exact ⟨textBetween?_of_passes hr hpasses, (congrArg List.length hopen).symm⟩
  case opened_moves =>
    intro offset next hround
    cases round_of_round? hr hround with
    | opened hpasses hgroups _ =>
      exact ⟨rfl, textBetween?_of_passes hr hpasses, congrArg List.length hgroups⟩
  case call_returns =>
    intro offset next hround rounds levels inner back hcall
    cases round_of_round? hr hround with
    | opened hpasses hgroups htokens =>
      rw [sequence?_inside hgroups htokens] at hcall
      obtain ⟨e, u, hback, hgroups', -, rfl⟩ := lexemes_of_call? hr hpasses hgroups hcall
      have hbetween := textBetween?_of_passes (hr.trans hpasses) hback
      rw [List.flatMap_append, Tokens.flatMap_chars_lexemes] at hbetween
      have hwhole : ∀ l ∈ Tokens.lexemes inner, l.isWhole = true := fun l hl =>
        hback.isWhole l (List.mem_append_left _ hl)
      have hdepth : u.shared.depth = r.shared.depth := congrArg List.length hgroups'
      have hinside := congrArg List.length hgroups
      refine ⟨Tokens.isBalanced_spelling hwhole, hbetween, ?_, ?_⟩
      · exact (congrArg (· + 1) hdepth).trans hinside.symm
      · rw [← hdepth]
        exact minus?_depth u

end Descent

theorem Reading.Call.map_fst {text : List Char} {outcome : Except ParseError (List Token × Descent)}
    (h : Call (Cursor.start text) start outcome) : outcome.map Prod.fst = Tokens.parse text := by
  cases h with
  | failed hread => exact hread.symm
  | ended _ hpasses hafter hgroups =>
    have hread := hpasses.foldlM_lexemes
    rw [hafter, lexemes, List.foldlM_nil] at hread
    rw [Tokens.parse, show (lexemes text).foldlM step start = _ from hread]
    simp [Except.map, pure, Except.pure, bind, Except.bind, finish, hgroups]
  | closed hopen _ _ => cases hopen

namespace Template

open Descent

/-- One round more than characters and as many calls as groups may be nested are enough. -/
theorem parseWithin?_eq_some {text : String} {rounds levels : Nat} (hrounds : text.length < rounds)
    (hlevels : maxDepth ≤ levels) : parseWithin? rounds levels text = some (parse text) := by
  have hstart : Reading.ComesTo text.toList [] (Cursor.start text.toList) Reading.start :=
    .refl _ _
  have hahead : text.toList.length < rounds := by rwa [String.length_toList]
  obtain ⟨outcome, hcall⟩ := Reading.exists_call? hstart hahead (Nat.le_add_right_of_le hlevels)
  have hsequence : sequence? (round? text) rounds levels none [] .start = some outcome := hcall
  rw [parseWithin?, hsequence, parse, ← (Reading.call_of_call? hstart hcall).map_fst]
  cases outcome <;> rfl

/-- Reading by descent ends for every text, and gives what the text is read as. -/
theorem parseWithin?_rounds_inOrder (text : String) :
    (∀ rounds levels, text.length < rounds → maxDepth ≤ levels →
      parseWithin? rounds levels text = some (parse text)) ∧
    (∀ other : Rounds, (∀ opened tokens d, Reached text opened tokens d →
        other opened.head? d = round? text opened.head? d) →
      ∀ rounds levels, sequence? other rounds levels none [] .start =
        sequence? (round? text) rounds levels none [] .start) ∧
    ∀ opened tokens d, Reached text opened tokens d →
      (∃ front back r, lexemes text.toList = front ++ back ∧
        front.foldlM Reading.step Reading.start = .ok r ∧ r.opened = opened ∧
        r.tokens.reverse = tokens ∧ r.shared = d) ∧
      InOrder text opened d := by
  refine ⟨fun rounds levels => parseWithin?_eq_some, fun other hother rounds levels => ?_,
    fun opened tokens d hd => ⟨?_, hd.inOrder⟩⟩
  · exact sequence?_eq_of_reached (hother _ _ _) .first rounds levels
  · obtain ⟨front, c, r, hr, hopened, htokens, hshared⟩ := hd.exists_comesTo
    exact ⟨front, lexemes c.after, r, hr.lexemes_eq, hr.read, hopened.symm, htokens.symm,
      hshared.symm⟩

/-- The call for the inner group begins at byte 6 and returns at byte 9. -/
theorem parseWithin?_rounds_inOrder_nested :
    let text := "é(:a(-b))c"
    let t : Template :=
      ⟨[.literal "é", .group [.var "a", .group [.literal "-b"]], .literal "c"]⟩
    let other : Rounds := fun opened d => if d.depth ≤ 32 then round? text opened d else none
    parseWithin? 11 32 text = some (.ok t) ∧
      sequence? other 11 32 none [] .start = sequence? (round? text) 11 32 none [] .start ∧
      Reached text [2] [.var "a"] ⟨5, 1, 2⟩ ∧
      round? text (some 2) ⟨5, 1, 2⟩ = some (.opened 5 ⟨6, 2, 3⟩) ∧
      sequence? (round? text) 3 0 (some 5) [] ⟨6, 2, 3⟩ = some (.ok ([.literal "-b"], ⟨9, 2, 3⟩)) ∧
      InOrder text [2] ⟨5, 1, 2⟩ ∧ textBetween? text 6 9 = some ['-', 'b', ')'] := by
  have hfirst : Reached "é(:a(-b))c" [] [.literal "é"] ⟨2, 0, 0⟩ := .next .first rfl
  have hinside : Reached "é(:a(-b))c" [2] [] ⟨3, 1, 1⟩ := .inside hfirst rfl
  have hreached : Reached "é(:a(-b))c" [2] [.var "a"] ⟨5, 1, 2⟩ := .next hinside rfl
  have hround : round? "é(:a(-b))c" (some 2) ⟨5, 1, 2⟩ = some (.opened 5 ⟨6, 2, 3⟩) := rfl
  have hcall : sequence? (round? "é(:a(-b))c") 3 0 (some 5) [] ⟨6, 2, 3⟩ =
      some (.ok ([.literal "-b"], ⟨9, 2, 3⟩)) := rfl
  intro text t other
  have hparse : parse text = .ok t := parse_eq_ok_iff.2 ⟨rfl, rfl⟩
  have hlength : text.length < 11 := by decide
  obtain ⟨hends, hsame, hinOrder⟩ := parseWithin?_rounds_inOrder text
  have hother : ∀ opened tokens d, Reached text opened tokens d →
      other opened.head? d = round? text opened.head? d :=
    fun opened tokens d hd => if_pos (hinOrder opened tokens d hd).2.depth_le
  obtain ⟨-, hbetween, -, -⟩ :=
    (hinOrder [2] _ _ hreached).2.call_returns 5 ⟨6, 2, 3⟩ hround 3 0 _ _ hcall
  refine ⟨?_, hsame other hother 11 32, hreached, hround, hcall,
    (hinOrder [2] _ _ hreached).2, hbetween⟩
  rw [hends 11 32 hlength (Nat.le_refl _), hparse]

end Template

end RouteTemplate
