import RouteTemplate.Proofs.Passages
import RouteTemplate.Text.Descent

namespace RouteTemplate

open Grammar

theorem Descent.takeWhile?_offset {text : String} {c : Cursor} {d : Descent}
    (hpath : c.path = text.toList) (hoffset : d.offset = c.offset) (p : Char → Bool) :
    d.takeWhile? text p =
      some (c.after.takeWhile p,
        { d with offset := d.offset + byteWidth (c.after.takeWhile p) }) := by
  have hskip : c.skip? (c.after.takeWhile p) = some (c.advance (c.after.takeWhile p).length) :=
    skip?_eq_some_iff_advance.2 ⟨List.takeWhile_prefix p, rfl⟩
  have hbetween := textBetween?_of_skip? hpath hskip
  rw [Cursor.offset_of_skip? hskip] at hbetween
  rw [takeWhile?, hoffset, textFrom?_offset hpath]
  simp only [Option.bind_eq_bind, Option.bind_some, hbetween]
  rfl

namespace Reading

def shared (r : Reading) : Descent := ⟨r.offset, r.groups.length, r.choicePoints⟩

/-- The offsets of the groups that are open, the innermost first. -/
def opened (r : Reading) : List Nat := r.groups.map OpenGroup.offset

theorem opened_eq_of_groups_eq {r s : Reading} (h : s.groups = r.groups) : s.opened = r.opened := by
  rw [opened, h, opened]

/-- A round does to a reading what the lexeme ahead does. -/
inductive Round (c : Cursor) (r : Reading) : Descent.Round → Prop where
  | ended (after_eq : c.after = []) : Round c r .ended
  | failed {l : Lexeme} {ls : List Lexeme} {e : ParseError} (lexemes_eq : lexemes c.after = l :: ls)
    (step_eq : r.step l = .error e) : Round c r (.failed e)
  | token {t : Token} {l : Lexeme} {d : Cursor} {s : Reading} (passes : Passes c r [l] d s)
    (lexemes_eq : t.lexemes = [l]) (groups_eq : s.groups = r.groups)
    (tokens_eq : s.tokens = t :: r.tokens) : Round c r (.token t s.shared)
  | opened {d : Cursor} {s : Reading} (passes : Passes c r [.groupOpen] d s)
    (groups_eq : s.groups = ⟨r.offset, r.tokens⟩ :: r.groups) (tokens_eq : s.tokens = []) :
    Round c r (.opened r.offset s.shared)
  | closed {g : OpenGroup} {d : Cursor} {s : Reading} (open_eq : r.groups = g :: s.groups)
    (passes : Passes c r [.groupClose] d s)
    (tokens_eq : s.tokens = .group r.tokens.reverse :: g.before) :
    Round c r (.closed { s.shared with depth := s.groups.length + 1 })

section

variable {c : Cursor} {r : Reading} {l : Lexeme} {t : Token} {rest : List Char}

theorem round_token (hl : l.IsAhead c rest) (hplace : r.place l = .ok (r.push t))
    (ht : t.lexemes = [l]) :
    Round c r (.token t { r.shared with offset := r.offset + l.width }) :=
  .token (Passes.single hl (step_of_place hplace)) ht rfl rfl

theorem round_failed {e : ParseError} (hl : l.IsAhead c rest) (hplace : r.place l = .error e) :
    Round c r (.failed e) :=
  .failed hl.lexemes_eq (step_of_place_error hplace)

theorem round_counted (hl : l.IsAhead c rest) (hplace : r.place l = r.count.map (push t))
    (ht : t.lexemes = [l]) :
    Round c r (.counted t { r.shared with offset := r.offset + l.width }) := by
  by_cases hlt : r.choicePoints < maxChoicePoints
  · rw [map_count_of_lt hlt] at hplace
    rw [Descent.Round.counted, Descent.count_of_lt hlt]
    exact .token (Passes.single hl (step_of_place hplace)) ht rfl rfl
  · rw [map_count_of_not_lt hlt] at hplace
    rw [Descent.Round.counted, Descent.count_of_not_lt hlt]
    exact round_failed hl hplace

theorem round_var (hafter : c.after = ':' :: rest) :
    Round c r (.var r.offset (rest.takeWhile isNameChar)
      { r.shared with offset := r.offset + byteWidth (':' :: rest.takeWhile isNameChar) }) := by
  have hl : (Lexeme.var (rest.takeWhile isNameChar)).IsAhead c (rest.dropWhile isNameChar) := by
    refine .of_isWhole ?_ List.all_takeWhile (head?_dropWhile_any isNameChar rest)
    rw [hafter, Lexeme.chars, List.cons_append, List.takeWhile_append_dropWhile]
  cases hname : rest.takeWhile isNameChar with
  | nil =>
    rw [hname] at hl
    exact round_failed hl rfl
  | cons x name =>
    rw [hname] at hl
    refine round_counted hl rfl ?_
    rw [Token.lexemes, Option.getD_some, String.toList_ofList]

theorem round_splat (hafter : c.after = '*' :: rest) :
    Round c r (.counted (.splat (nameOf? (rest.takeWhile isNameChar)))
      { r.shared with offset := r.offset + byteWidth ('*' :: rest.takeWhile isNameChar) }) := by
  have hl : (Lexeme.splat (rest.takeWhile isNameChar)).IsAhead c (rest.dropWhile isNameChar) := by
    refine .of_isWhole ?_ List.all_takeWhile (head?_dropWhile_any isNameChar rest)
    rw [hafter, Lexeme.chars, List.cons_append, List.takeWhile_append_dropWhile]
  refine round_counted hl ?_ ?_
  · cases rest.takeWhile isNameChar <;> rfl
  · cases rest.takeWhile isNameChar with
    | nil => rfl
    | cons x name => simp [nameOf?, Token.lexemes]

/-- A character that is no mark begins a run, so the run is not empty. -/
theorem round_run {x : Char} (hafter : c.after = x :: rest) (hx : isDelimiter x = false) :
    Round c r (.token (.literal (String.ofList (c.after.takeWhile (!isDelimiter ·))))
      { r.shared with
        offset := r.offset + byteWidth (c.after.takeWhile (!isDelimiter ·)) }) := by
  have hwhole : (Lexeme.run (c.after.takeWhile (!isDelimiter ·))).isWhole = true := by
    simp [Lexeme.isWhole, hafter, hx]
  have hl : (Lexeme.run (c.after.takeWhile (!isDelimiter ·))).IsAhead c
      (c.after.dropWhile (!isDelimiter ·)) :=
    .of_isWhole List.takeWhile_append_dropWhile.symm hwhole (head?_dropWhile_any _ c.after)
  refine round_token hl rfl ?_
  rw [Token.lexemes, Lexeme.ofLiteral_ofList hwhole]

theorem round_opening (hafter : c.after = '(' :: rest) : Round c r (.opening r.shared) := by
  have hl : Lexeme.groupOpen.IsAhead c rest := .of_isWhole hafter rfl rfl
  by_cases hd : r.groups.length < maxDepth
  · have hplace : r.place .groupOpen = r.count.map openGroup := if_pos hd
    have hdepth : ¬ r.shared.depth ≥ maxDepth := Nat.not_le.2 hd
    rw [Descent.Round.opening, if_neg hdepth]
    by_cases hlt : r.choicePoints < maxChoicePoints
    · rw [map_count_of_lt hlt] at hplace
      rw [Descent.count_of_lt hlt]
      exact .opened (Passes.single hl (step_of_place hplace)) rfl rfl
    · rw [map_count_of_not_lt hlt] at hplace
      rw [Descent.count_of_not_lt hlt]
      exact round_failed hl hplace
  · have hplace : r.place .groupOpen = .error (.nestingTooDeep r.offset) := if_neg hd
    have hdepth : r.shared.depth ≥ maxDepth := Nat.not_lt.1 hd
    rw [Descent.Round.opening, if_pos hdepth]
    exact round_failed hl hplace

theorem round_closing (hafter : c.after = ')' :: rest) :
    Round c r (.closing r.opened.head? r.shared) := by
  have hl : Lexeme.groupClose.IsAhead c rest := .of_isWhole hafter rfl rfl
  rw [Descent.Round.closing, opened, List.head?_map]
  cases hg : r.groups with
  | nil =>
    have hplace : r.place .groupClose = .error (.unexpectedGroupClose r.offset) := by
      rw [place, hg]
    exact round_failed hl hplace
  | cons g gs =>
    have hplace : r.place .groupClose =
        .ok ⟨r.offset, r.choicePoints, gs, .group r.tokens.reverse :: g.before⟩ := by
      rw [place, hg]
    have hround := Round.closed hg (Passes.single hl (step_of_place hplace)) rfl
    have hdepth : r.shared.depth = gs.length + 1 := congrArg List.length hg
    rw [Descent.bump, hdepth]
    exact hround

theorem takeWhile?_bump {text : String} {x : Char} (hpath : c.path = text.toList)
    (hoffset : r.offset = c.offset) (hafter : c.after = x :: rest) (p : Char → Bool) :
    (r.shared.bump x).takeWhile? text p = some (rest.takeWhile p,
      { r.shared with offset := r.offset + byteWidth (x :: rest.takeWhile p) }) := by
  have hskip : c.skip? [x] = some ⟨x :: c.before, rest⟩ :=
    Cursor.skip?_eq_some_iff.2 ⟨hafter, rfl⟩
  have hplace : (r.shared.bump x).offset = (⟨x :: c.before, rest⟩ : Cursor).offset := by
    rw [Cursor.offset_of_skip? hskip, ← hoffset]
    rfl
  rw [Descent.takeWhile?_offset ((Cursor.path_of_skip? hskip).trans hpath) hplace p, byteWidth,
    ← Nat.add_assoc]
  rfl

/-- Each character is met by a round and by a lexeme, and both do the same with it. -/
theorem exists_round {text : String} (hpath : c.path = text.toList)
    (hoffset : r.offset = c.offset) :
    ∃ round, Descent.round? text r.opened.head? r.shared = some round ∧ Round c r round := by
  have hfrom : textFrom? text r.shared.offset = some c.after := by
    rw [shared, hoffset, textFrom?_offset hpath]
  have hrun := Descent.takeWhile?_offset (d := r.shared) hpath hoffset (!isDelimiter ·)
  rw [Descent.round?, hfrom]
  simp only [Option.bind_eq_bind, Option.bind_some]
  split
  case h_1 hafter => exact ⟨_, rfl, .ended hafter⟩
  case h_2 rest hafter =>
    have hl : Lexeme.separator.IsAhead c rest := .of_isWhole hafter rfl rfl
    exact ⟨_, rfl, round_token hl rfl rfl⟩
  case h_3 rest hafter =>
    have hl : Lexeme.extension.IsAhead c rest := .of_isWhole hafter rfl rfl
    exact ⟨_, rfl, round_token hl rfl rfl⟩
  case h_4 rest hafter =>
    rw [takeWhile?_bump hpath hoffset hafter]
    exact ⟨_, rfl, round_var hafter⟩
  case h_5 rest hafter =>
    rw [takeWhile?_bump hpath hoffset hafter]
    exact ⟨_, rfl, round_splat hafter⟩
  case h_6 rest hafter => exact ⟨_, rfl, round_opening hafter⟩
  case h_7 rest hafter => exact ⟨_, rfl, round_closing hafter⟩
  case h_8 x rest _ _ _ _ _ _ hafter =>
    have hx : isDelimiter x = false := by simp_all [isDelimiter]
    rw [hrun]
    exact ⟨_, rfl, round_run hafter hx⟩

end

/-- A call ends with the fault of the reading, at the end of the text, or at the parenthesis that
closes the innermost group. -/
inductive Call (c : Cursor) (r : Reading) : Except ParseError (List Token × Descent) → Prop where
  | failed {e : ParseError} (read_eq : (lexemes c.after).foldlM step r >>= finish = .error e) :
    Call c r (.error e)
  | ended {ls : List Lexeme} {d : Cursor} {s : Reading} (open_eq : r.groups = [])
    (passes : Passes c r ls d s) (after_eq : d.after = []) (groups_eq : s.groups = []) :
    Call c r (.ok (s.tokens.reverse, s.shared))
  | closed {g : OpenGroup} {ls : List Lexeme} {d : Cursor} {s : Reading} {inner : List Token}
    (open_eq : r.groups = g :: s.groups) (passes : Passes c r ls d s)
    (tokens_eq : s.tokens = .group inner :: g.before) :
    Call c r (.ok (inner, { s.shared with depth := s.groups.length + 1 }))

theorem Call.of_passes {c d : Cursor} {r s : Reading} {ls : List Lexeme}
    {outcome : Except ParseError (List Token × Descent)} (hpasses : Passes c r ls d s)
    (hgroups : s.groups = r.groups) (h : Call d s outcome) : Call c r outcome := by
  cases h with
  | failed hread =>
    rw [← hpasses.foldlM_lexemes] at hread
    exact .failed hread
  | ended hopen hmore hafter hend =>
    exact .ended (hgroups.symm.trans hopen) (hpasses.trans hmore) hafter hend
  | closed hopen hmore htokens =>
    exact .closed (hgroups.symm.trans hopen) (hpasses.trans hmore) htokens

theorem Call.failed_of_passes {c d : Cursor} {r s : Reading} {ls : List Lexeme} {e : ParseError}
    (hpasses : Passes c r ls d s) (h : Call d s (.error e)) : Call c r (.error e) := by
  cases h with
  | failed hread =>
    rw [← hpasses.foldlM_lexemes] at hread
    exact .failed hread

/-- Where a call inside another one returns, the reading has closed the group. -/
theorem Call.exists_passes {c : Cursor} {r : Reading} {g : OpenGroup} {gs : List OpenGroup}
    {inner : List Token} {back : Descent} (h : Call c r (.ok (inner, back)))
    (hgroups : r.groups = g :: gs) :
    ∃ ls d s, Passes c r ls d s ∧ s.groups = gs ∧ s.tokens = .group inner :: g.before ∧
      back = { s.shared with depth := s.groups.length + 1 } := by
  cases h with
  | ended hopen _ _ _ =>
    rw [hgroups] at hopen
    cases hopen
  | @closed g' ls d s _ hopen hpasses htokens =>
    rw [hgroups] at hopen
    obtain ⟨rfl, rfl⟩ := List.cons.inj hopen
    exact ⟨ls, d, s, hpasses, rfl, htokens, rfl⟩

theorem minus?_depth (s : Reading) : minus? (s.groups.length + 1) 1 = some s.shared.depth :=
  if_pos (Nat.le_add_left 1 _)

theorem call_finish {c : Cursor} {r : Reading} (hafter : c.after = []) :
    Call c r (Descent.finish r.opened.head? r.tokens.reverse r.shared) := by
  cases hg : r.groups with
  | nil =>
    rw [opened, hg]
    exact .ended hg (.refl c r) hafter hg
  | cons g gs =>
    rw [opened, hg]
    refine .failed ?_
    rw [hafter, lexemes, List.foldlM_nil]
    exact (by simp [finish, hg] : r.finish = .error (.unclosedGroup g.offset))

def call? (text : String) (rounds levels : Nat) (r : Reading) :
    Option (Except ParseError (List Token × Descent)) :=
  Descent.sequence? (Descent.round? text) rounds levels r.opened.head? r.tokens.reverse r.shared

section

variable {text : String} {r s : Reading}

theorem sequence?_token {t : Token} (hgroups : s.groups = r.groups)
    (htokens : s.tokens = t :: r.tokens) (rounds levels : Nat) :
    Descent.sequence? (Descent.round? text) rounds levels r.opened.head? (r.tokens.reverse ++ [t])
      s.shared = call? text rounds levels s := by
  rw [call?, opened, opened, hgroups, htokens, List.reverse_cons]

theorem sequence?_inside (hgroups : s.groups = ⟨r.offset, r.tokens⟩ :: r.groups)
    (htokens : s.tokens = []) (rounds levels : Nat) :
    Descent.sequence? (Descent.round? text) rounds levels (some r.offset) [] s.shared =
      call? text rounds levels s := by
  rw [call?, opened, hgroups, htokens]
  rfl

variable {rounds levels : Nat} {c : Cursor} {front : List Lexeme}

/-- A call that has an outcome comes to what the reading comes to. -/
theorem call_of_call? {outcome : Except ParseError (List Token × Descent)}
    (hr : ComesTo text.toList front c r) (h : call? text rounds levels r = some outcome) :
    Call c r outcome := by
  induction rounds generalizing levels c r outcome front with
  | zero => cases h
  | succ rounds ih =>
    obtain ⟨round, hround, hwhat⟩ := exists_round hr.path_eq hr.offset_eq
    rw [call?, Descent.sequence?, hround] at h
    simp only [Option.bind_eq_bind, Option.bind_some] at h
    cases hwhat with
    | ended hafter =>
      cases h
      exact call_finish hafter
    | failed hlexemes hstep =>
      cases h
      refine .failed ?_
      rw [hlexemes, List.foldlM_cons, hstep]
      rfl
    | token hpasses hlexemes hgroups htokens =>
      dsimp only at h
      rw [sequence?_token hgroups htokens] at h
      exact (ih (hr.trans hpasses) h).of_passes hpasses hgroups
    | opened hpasses hgroups htokens =>
      have hs := hr.trans hpasses
      cases levels with
      | zero => cases h
      | succ levels =>
        obtain ⟨call, hcall, h⟩ := Option.bind_eq_some_iff.1 h
        rw [sequence?_inside hgroups htokens] at hcall
        have hinside := ih hs hcall
        rcases call with e | ⟨inner, back⟩
        · cases h
          exact hinside.failed_of_passes hpasses
        · obtain ⟨ls, d', s', hpasses', hgroups', htokens', rfl⟩ := hinside.exists_passes hgroups
          dsimp only at h
          rw [minus?_depth] at h
          dsimp only [Option.bind_some] at h
          rw [sequence?_token hgroups' htokens'] at h
          exact (ih (hs.trans hpasses') h).of_passes (hpasses.trans hpasses') hgroups'
    | closed hopen hpasses htokens =>
      cases h
      exact .closed hopen hpasses htokens

/-- More rounds than characters ahead are enough, with a call for each group that may still open. -/
theorem exists_call? (hr : ComesTo text.toList front c r) (hrounds : c.after.length < rounds)
    (hlevels : maxDepth ≤ levels + r.groups.length) :
    ∃ outcome, call? text rounds levels r = some outcome := by
  induction rounds generalizing levels c r front with
  | zero => exact absurd hrounds (Nat.not_lt_zero _)
  | succ rounds ih =>
    obtain ⟨round, hround, hwhat⟩ := exists_round hr.path_eq hr.offset_eq
    rw [call?, Descent.sequence?, hround]
    simp only [Option.bind_eq_bind, Option.bind_some]
    cases hwhat with
    | ended hafter => exact ⟨_, rfl⟩
    | failed hlexemes hstep => exact ⟨_, rfl⟩
    | token hpasses hlexemes hgroups htokens =>
      have hlt := hpasses.length_after_lt
      dsimp only
      rw [sequence?_token hgroups htokens]
      exact ih (hr.trans hpasses) (by omega) (by rwa [hgroups])
    | opened hpasses hgroups htokens =>
      have hs := hr.trans hpasses
      have hlt := hpasses.length_after_lt
      have hdepth := ComesTo.length_groups_le hs
      have hlength := congrArg List.length hgroups
      rw [List.length_cons] at hlength
      -- The limit on nested groups leaves a level for the call inside.
      obtain ⟨levels, rfl⟩ : ∃ n, levels = n + 1 := ⟨levels - 1, by omega⟩
      obtain ⟨call, hcall⟩ : ∃ outcome, call? text rounds levels _ = some outcome :=
        ih hs (by omega) (by omega)
      have hinside := call_of_call? hs hcall
      dsimp only
      rw [sequence?_inside hgroups htokens, hcall]
      rcases call with e | ⟨inner, back⟩
      · exact ⟨_, rfl⟩
      · obtain ⟨ls, d', s', hpasses', hgroups', htokens', rfl⟩ := hinside.exists_passes hgroups
        have hle := hpasses'.length_after_le
        dsimp only [Option.bind_some]
        rw [minus?_depth]
        dsimp only [Option.bind_some]
        rw [sequence?_token hgroups' htokens']
        exact ih (hs.trans hpasses') (by omega) (by rwa [hgroups'])
    | closed hopen hpasses htokens => exact ⟨_, rfl⟩

end

end Reading

end RouteTemplate
