import RouteTemplate.Proofs.Spelling
import RouteTemplate.Template.Basic

namespace RouteTemplate

open Grammar

namespace Tokens

/-- The tokens read so far, with the open groups around them closed behind them. -/
def closeAll : List OpenGroup → List Token → List Token
  | [], tokens => tokens.reverse
  | g :: gs, tokens => closeAll gs (.group tokens.reverse :: g.before)

theorem choicePoints_closeAll_cons (gs : List OpenGroup) (t : Token) (ts : List Token) :
    choicePoints (closeAll gs (t :: ts)) = choicePoints (closeAll gs ts) + t.choicePoints := by
  induction gs generalizing t ts with
  | nil => simp [closeAll, choicePoints_append, choicePoints]
  | cons g gs ih =>
    rw [closeAll, closeAll, ih, ih]
    simp only [Token.choicePoints, List.reverse_cons, choicePoints_append, choicePoints]
    omega

theorem depth_closeAll_cons (gs : List OpenGroup) (t : Token) (ts : List Token) :
    depth (closeAll gs (t :: ts)) = max (depth (closeAll gs ts)) (t.depth + gs.length) := by
  induction gs generalizing t ts with
  | nil => simp [closeAll, depth_append, depth]
  | cons g gs ih =>
    rw [closeAll, closeAll, ih, ih]
    simp only [Token.depth, List.reverse_cons, depth_append, depth, List.length_cons]
    omega

theorem length_le_depth_closeAll (gs : List OpenGroup) (ts : List Token) :
    gs.length ≤ depth (closeAll gs ts) := by
  cases gs with
  | nil => exact Nat.zero_le _
  | cons g gs =>
    rw [closeAll, depth_closeAll_cons, Token.depth, List.length_cons]
    omega

theorem isNamed_closeAll_cons (gs : List OpenGroup) (t : Token) (ts : List Token) :
    isNamed (closeAll gs (t :: ts)) = (isNamed (closeAll gs ts) && t.isNamed) := by
  induction gs generalizing t ts with
  | nil => simp [closeAll, isNamed_append, isNamed]
  | cons g gs ih =>
    rw [closeAll, closeAll, ih, ih]
    simp [Token.isNamed, isNamed_append, isNamed, Bool.and_assoc]

theorem exists_lexemes_closeAll (gs : List OpenGroup) :
    ∃ front, ∀ ts, lexemes (closeAll gs ts) =
      front ++ lexemes ts.reverse ++ List.replicate gs.length .groupClose := by
  -- What is written in front of the innermost sequence is the same for every such sequence.
  induction gs with
  | nil => exact ⟨[], fun ts => by simp [closeAll]⟩
  | cons g gs ih =>
    obtain ⟨front, h⟩ := ih
    refine ⟨front ++ lexemes g.before.reverse ++ [.groupOpen], fun ts => ?_⟩
    rw [closeAll, h, List.reverse_cons, lexemes_append]
    simp [lexemes, Token.lexemes, List.replicate_succ]

theorem lexemes_closeAll_cons {gs : List OpenGroup} {ts : List Token} {ls : List Lexeme}
    (h : lexemes (closeAll gs ts) = ls ++ List.replicate gs.length .groupClose) (t : Token) :
    lexemes (closeAll gs (t :: ts)) =
      ls ++ t.lexemes ++ List.replicate gs.length .groupClose := by
  obtain ⟨front, hfront⟩ := exists_lexemes_closeAll gs
  have hls : front ++ lexemes ts.reverse = ls :=
    List.append_cancel_right ((hfront ts).symm.trans h)
  rw [hfront, List.reverse_cons, lexemes_append, ← List.append_assoc, hls]
  simp [lexemes]

end Tokens

theorem Lexeme.ofLiteral_ofList {text : List Char} (h : (Lexeme.run text).isWhole = true) :
    ofLiteral (String.ofList text) = .run text := by
  have hne : ∀ c, isDelimiter c = true → String.ofList text ≠ String.ofList [c] := by
    intro c hc heq
    have htext : text = [c] := String.ofList_injective heq
    simp [htext, isWhole, hc] at h
  have hsep : String.ofList text ≠ "/" := hne '/' rfl
  have hext : String.ofList text ≠ "." := hne '.' rfl
  simp [ofLiteral, hsep, hext]

namespace Reading

theorem map_count_eq_ok_iff {r s : Reading} {f : Reading → Reading} :
    r.count.map f = .ok s ↔ r.choicePoints < maxChoicePoints ∧
      f { r with choicePoints := r.choicePoints + 1 } = s := by
  by_cases hlt : r.choicePoints < maxChoicePoints
  · simp [map_count_of_lt hlt, hlt]
  · simp [map_count_of_not_lt hlt, hlt]

/-- A lexeme adds a token of its own, or opens a group, or closes the innermost one. -/
theorem place_eq_ok {r s : Reading} {l : Lexeme} (hl : l.isWhole = true)
    (hr : r.choicePoints ≤ maxChoicePoints) (h : r.place l = .ok s) :
    (∃ t : Token, t.lexemes = [l] ∧ t.isNamed = true ∧ t.depth = 0 ∧
      r.choicePoints + t.choicePoints ≤ maxChoicePoints ∧
      s = ⟨r.offset, r.choicePoints + t.choicePoints, r.groups, t :: r.tokens⟩) ∨
    (l = .groupOpen ∧ r.groups.length < maxDepth ∧ r.choicePoints < maxChoicePoints ∧
      s = ⟨r.offset, r.choicePoints + 1, ⟨r.offset, r.tokens⟩ :: r.groups, []⟩) ∨
    (l = .groupClose ∧ ∃ g gs, r.groups = g :: gs ∧
      s = ⟨r.offset, r.choicePoints, gs, .group r.tokens.reverse :: g.before⟩) := by
  cases l with
  | separator =>
    cases h
    exact .inl ⟨.separator, rfl, rfl, rfl, hr, rfl⟩
  | extension =>
    cases h
    exact .inl ⟨.extension, rfl, rfl, rfl, hr, rfl⟩
  | run text =>
    cases h
    refine .inl ⟨.literal (String.ofList text), ?_, rfl, rfl, hr, rfl⟩
    rw [Token.lexemes, Lexeme.ofLiteral_ofList hl]
  | var name =>
    cases name with
    | nil => simp [place] at h
    | cons c cs =>
      obtain ⟨hlt, rfl⟩ := map_count_eq_ok_iff.1 h
      exact .inl ⟨.var (some (String.ofList (c :: cs))), by simp [Token.lexemes],
        by simp [Token.isNamed], rfl, hlt, rfl⟩
  | splat name =>
    cases name with
    | nil =>
      obtain ⟨hlt, rfl⟩ := map_count_eq_ok_iff.1 h
      exact .inl ⟨.splat none, rfl, rfl, rfl, hlt, rfl⟩
    | cons c cs =>
      obtain ⟨hlt, rfl⟩ := map_count_eq_ok_iff.1 h
      exact .inl ⟨.splat (some (String.ofList (c :: cs))), by simp [Token.lexemes],
        by simp [Token.isNamed], rfl, hlt, rfl⟩
  | groupOpen =>
    by_cases hd : r.groups.length < maxDepth
    · rw [place, if_pos hd] at h
      obtain ⟨hlt, rfl⟩ := map_count_eq_ok_iff.1 h
      exact .inr (.inl ⟨rfl, hd, hlt, rfl⟩)
    · rw [place, if_neg hd] at h
      cases h
  | groupClose =>
    cases hg : r.groups with
    | nil => simp [place, hg] at h
    | cons g gs =>
      refine .inr (.inr ⟨rfl, g, gs, rfl, ?_⟩)
      simpa [place, hg, eq_comm] using h

theorem exists_place_of_step {r s : Reading} {l : Lexeme} (h : r.step l = .ok s) :
    ∃ p, r.place l = .ok p ∧ advance l p = s := by
  cases hp : r.place l with
  | error e => simp [step_of_place_error hp] at h
  | ok p => exact ⟨p, rfl, by simpa [step_of_place hp] using h⟩

theorem exists_step_of_foldlM_cons {r s : Reading} {l : Lexeme} {ls : List Lexeme}
    (h : (l :: ls).foldlM Reading.step r = .ok s) :
    ∃ p, r.step l = .ok p ∧ ls.foldlM Reading.step p = .ok s := by
  rw [List.foldlM_cons] at h
  cases hstep : r.step l with
  | error e => simp [hstep, bind, Except.bind] at h
  | ok p =>
    rw [hstep] at h
    exact ⟨p, rfl, h⟩

def closed (r : Reading) : List Token := Tokens.closeAll r.groups r.tokens

/-- What holds of a reading of some lexemes, up to any place. -/
structure IsOf (r : Reading) (ls : List Lexeme) : Prop where
  lexemes_closed :
    Tokens.lexemes r.closed = ls ++ List.replicate r.groups.length .groupClose
  isNamed_closed : Tokens.isNamed r.closed = true
  choicePoints_closed : Tokens.choicePoints r.closed = r.choicePoints
  choicePoints_le : r.choicePoints ≤ maxChoicePoints
  depth_closed : Tokens.depth r.closed ≤ maxDepth

theorem isOf_start : start.IsOf [] := by
  refine ⟨rfl, rfl, rfl, ?_, ?_⟩ <;> simp [start, closed, Tokens.closeAll, Tokens.depth]

theorem IsOf.step {r s : Reading} {ls : List Lexeme} {l : Lexeme} (hr : r.IsOf ls)
    (hl : l.isWhole = true) (h : r.step l = .ok s) : s.IsOf (ls ++ [l]) := by
  obtain ⟨hlex, hnamed, hcount, hle, hdepth⟩ := hr
  unfold closed at hlex hnamed hcount hdepth
  obtain ⟨p, hp, rfl⟩ := exists_place_of_step h
  obtain ⟨t, htl, htn, htd, htc, rfl⟩ | ⟨rfl, hlt, hc, rfl⟩ | ⟨rfl, g, gs, hg, rfl⟩ :=
    place_eq_ok hl hle hp
  · refine ⟨?_, ?_, ?_, htc, ?_⟩ <;> dsimp only [advance, closed]
    · rw [Tokens.lexemes_closeAll_cons hlex, htl]
    · rw [Tokens.isNamed_closeAll_cons, hnamed, htn]
      rfl
    · rw [Tokens.choicePoints_closeAll_cons, hcount]
    · have := Tokens.length_le_depth_closeAll r.groups r.tokens
      rw [Tokens.depth_closeAll_cons, htd]
      omega
  -- An open group without tokens is closed to an empty group of the sequence around it.
  · refine ⟨?_, ?_, ?_, hc, ?_⟩ <;> dsimp only [advance, closed, Tokens.closeAll, List.reverse_nil]
    · rw [Tokens.lexemes_closeAll_cons hlex]
      simp [Token.lexemes, Tokens.lexemes, List.replicate_succ]
    · rw [Tokens.isNamed_closeAll_cons, hnamed]
      rfl
    · rw [Tokens.choicePoints_closeAll_cons, hcount]
      rfl
    · rw [Tokens.depth_closeAll_cons, Token.depth, Tokens.depth]
      omega
  · rw [hg] at hlex hnamed hcount hdepth
    refine ⟨?_, hnamed, hcount, hle, hdepth⟩
    refine hlex.trans ?_
    simp [advance, List.replicate_succ]

theorem IsOf.foldlM {r s : Reading} {ls ms : List Lexeme} (hr : r.IsOf ls)
    (hms : ∀ m ∈ ms, m.isWhole = true) (h : ms.foldlM Reading.step r = .ok s) :
    s.IsOf (ls ++ ms) := by
  induction ms generalizing r ls with
  | nil =>
    cases h
    rwa [List.append_nil]
  | cons m ms ih =>
    obtain ⟨hm, hms⟩ := List.forall_mem_cons.1 hms
    obtain ⟨p, hstep, hrest⟩ := exists_step_of_foldlM_cons h
    have hs := ih (hr.step hm hstep) hms hrest
    rwa [List.append_assoc, List.singleton_append] at hs

end Reading

end RouteTemplate
