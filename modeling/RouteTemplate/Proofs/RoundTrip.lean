import RouteTemplate.Proofs.Reading

namespace RouteTemplate

open Grammar

namespace Reading

def adding (r : Reading) (ts : List Token) : Reading where
  offset := r.offset + byteWidth (Tokens.spelling ts)
  choicePoints := r.choicePoints + Tokens.choicePoints ts
  groups := r.groups
  tokens := ts.reverse ++ r.tokens

theorem adding_cons (r : Reading) (t : Token) (ts : List Token) :
    (r.adding [t]).adding ts = r.adding (t :: ts) := by
  simp [adding, Tokens.spelling, Tokens.choicePoints, byteWidth_append, Nat.add_assoc]

theorem advance_push {l : Lexeme} {t : Token} (h : t.spelling = l.chars) (r : Reading) :
    advance l { r.push t with choicePoints := r.choicePoints + t.choicePoints } = r.adding [t] := by
  simp [advance, push, adding, Lexeme.width, Tokens.spelling, Tokens.choicePoints, h]

theorem place_literal (r : Reading) (text : String) :
    r.place (.ofLiteral text) = .ok (r.push (.literal text)) := by
  by_cases hsep : text = "/"
  · simp [hsep, Lexeme.ofLiteral, place, Token.separator]
  · by_cases hext : text = "."
    · simp [hext, Lexeme.ofLiteral, place, Token.extension]
    · simp [hsep, hext, Lexeme.ofLiteral, place]

theorem place_var (r : Reading) {name : Option String} (h : (Token.var name).isNamed = true) :
    r.place (.var (name.getD "").toList) = r.count.map (push (.var name)) := by
  cases name with
  | none => cases h
  | some name =>
    obtain ⟨_ | ⟨c, cs⟩, rfl⟩ : ∃ cs, name = String.ofList cs := ⟨name.toList, by simp⟩
    · cases h
    · simp [place]

theorem place_splat (r : Reading) {name : Option String} (h : (Token.splat name).isNamed = true) :
    r.place (.splat (name.getD "").toList) = r.count.map (push (.splat name)) := by
  cases name with
  | none => rfl
  | some name =>
    obtain ⟨_ | ⟨c, cs⟩, rfl⟩ : ∃ cs, name = String.ofList cs := ⟨name.toList, by simp⟩
    · cases h
    · simp [place]

theorem step_literal (r : Reading) (text : String) :
    r.step (.ofLiteral text) = .ok (r.adding [.literal text]) := by
  have hspelling : (Token.literal text).spelling = (Lexeme.ofLiteral text).chars := by
    rw [Token.spelling, Lexeme.chars_ofLiteral]
  rw [step_of_place (r.place_literal text), ← advance_push hspelling]
  rfl

theorem step_counted {r : Reading} {l : Lexeme} {t : Token}
    (hplace : r.place l = r.count.map (push t)) (hspelling : t.spelling = l.chars)
    (hcount : t.choicePoints = 1) (h : r.choicePoints < maxChoicePoints) :
    r.step l = .ok (r.adding [t]) := by
  rw [step_of_place (hplace.trans (map_count_of_lt h _)), ← advance_push hspelling, hcount]
  rfl

/-- A group is read if its content is: its parentheses put the reading inside and out again. -/
theorem foldlM_group {r : Reading} {inner : List Token} (hd : r.groups.length < maxDepth)
    (hc : r.choicePoints < maxChoicePoints)
    (h : ∀ {s : Reading}, s.groups.length = r.groups.length + 1 →
      s.choicePoints = r.choicePoints + 1 →
      (Tokens.lexemes inner).foldlM Reading.step s = .ok (s.adding inner)) :
    (Token.group inner).lexemes.foldlM Reading.step r = .ok (r.adding [.group inner]) := by
  let s : Reading := ⟨r.offset + Lexeme.groupOpen.width, r.choicePoints + 1,
    ⟨r.offset, r.tokens⟩ :: r.groups, []⟩
  have hopen : r.step .groupOpen = .ok s := by
    have hplace : r.place .groupOpen = r.count.map openGroup := if_pos hd
    exact step_of_place (hplace.trans (map_count_of_lt hc openGroup))
  have hclose : (s.adding inner).step .groupClose = .ok (r.adding [.group inner]) := by
    simp [Reading.step, place, Except.map, advance, adding, s, Lexeme.width, Lexeme.chars,
      Tokens.spelling, Token.spelling, Tokens.choicePoints, Token.choicePoints, byteWidth,
      byteWidth_append, Nat.add_assoc]
  rw [Token.lexemes, List.foldlM_cons, hopen]
  change (Tokens.lexemes inner ++ [Lexeme.groupClose]).foldlM Reading.step s = _
  rw [List.foldlM_append, h rfl rfl]
  change [Lexeme.groupClose].foldlM Reading.step (s.adding inner) = _
  rw [List.foldlM_cons, hclose]
  rfl

theorem foldlM_cons {r : Reading} {t : Token} {ts : List Token}
    (hd : Tokens.depth (t :: ts) + r.groups.length ≤ maxDepth)
    (hc : r.choicePoints + Tokens.choicePoints (t :: ts) ≤ maxChoicePoints)
    (ht : t.lexemes.foldlM Reading.step r = .ok (r.adding [t]))
    (hts : ∀ {s : Reading}, Tokens.depth ts + s.groups.length ≤ maxDepth →
      s.choicePoints + Tokens.choicePoints ts ≤ maxChoicePoints →
      (Tokens.lexemes ts).foldlM Reading.step s = .ok (s.adding ts)) :
    (Tokens.lexemes (t :: ts)).foldlM Reading.step r = .ok (r.adding (t :: ts)) := by
  have hdepth : Tokens.depth ts + (r.adding [t]).groups.length ≤ maxDepth := by
    simp only [Tokens.depth] at hd
    dsimp only [adding]
    omega
  have hcount : (r.adding [t]).choicePoints + Tokens.choicePoints ts ≤ maxChoicePoints := by
    simp only [Tokens.choicePoints] at hc
    simp only [adding, Tokens.choicePoints]
    omega
  have h := hts hdepth hcount
  rw [adding_cons] at h
  rw [Tokens.lexemes, List.foldlM_append, ht]
  exact h

/-- Reading the lexemes of tokens that keep the limits adds these tokens. -/
theorem foldlM_lexemes {ts : List Token} {r : Reading} (hn : Tokens.isNamed ts = true)
    (hd : Tokens.depth ts + r.groups.length ≤ maxDepth)
    (hc : r.choicePoints + Tokens.choicePoints ts ≤ maxChoicePoints) :
    (Tokens.lexemes ts).foldlM Reading.step r = .ok (r.adding ts) := by
  -- What was read before counts against the limits, so a sequence is read from any place that
  -- leaves room.
  induction ts using Tokens.induction generalizing r with
  | nil => rfl
  | literal text ts ih =>
    refine foldlM_cons hd hc ?_ (ih hn)
    simp [Token.lexemes, step_literal]
  | var name ts ih =>
    obtain ⟨hname, hts⟩ := Bool.and_eq_true_iff.1 hn
    refine foldlM_cons hd hc ?_ (ih hts)
    have hlt : r.choicePoints < maxChoicePoints := by
      simp only [Tokens.choicePoints, Token.choicePoints] at hc
      omega
    simp [Token.lexemes, step_counted (r.place_var hname) rfl rfl hlt]
  | splat name ts ih =>
    obtain ⟨hname, hts⟩ := Bool.and_eq_true_iff.1 hn
    refine foldlM_cons hd hc ?_ (ih hts)
    have hlt : r.choicePoints < maxChoicePoints := by
      simp only [Tokens.choicePoints, Token.choicePoints] at hc
      omega
    simp [Token.lexemes, step_counted (r.place_splat hname) rfl rfl hlt]
  | group inner ts hinner ih =>
    obtain ⟨hin, hts⟩ := Bool.and_eq_true_iff.1 hn
    refine foldlM_cons hd hc ?_ (ih hts)
    simp only [Tokens.depth, Token.depth, Tokens.choicePoints, Token.choicePoints] at hd hc
    apply foldlM_group (by omega) (by omega)
    intro s hgroups hcount
    exact hinner hin (by omega) (by omega)

end Reading

namespace Tokens

theorem parse_of_isCanonical {ts : List Token} (h : isCanonical ts = true) :
    parse (spelling ts) = .ok ts := by
  simp only [isCanonical, Bool.and_eq_true, decide_eq_true_eq] at h
  obtain ⟨⟨hw, hd⟩, hc⟩ := h
  have hn := isNamed_of_isWritable hw
  have hcut : Lexeme.areCut (lexemes ts) = true := (areCut_lexemes hn).trans hw
  have hlex : RouteTemplate.lexemes (spelling ts) = lexemes ts :=
    lexemes_eq_iff.2 ⟨flatMap_chars_lexemes ts, hcut⟩
  have hfold := Reading.foldlM_lexemes (r := Reading.start) hn (by simpa [Reading.start] using hd)
    (by simpa [Reading.start] using hc)
  rw [parse, hlex, hfold]
  simp [bind, Except.bind, Reading.start, Reading.finish, Reading.adding]

theorem spelling_and_isCanonical_of_parse {text : List Char} {ts : List Token}
    (h : parse text = .ok ts) : spelling ts = text ∧ isCanonical ts = true := by
  rw [parse] at h
  cases hfold : (RouteTemplate.lexemes text).foldlM Reading.step Reading.start with
  | error e => simp [hfold, bind, Except.bind] at h
  | ok r =>
    have hcut := RouteTemplate.areCut_lexemes text
    have hr := Reading.isOf_start.foldlM (Lexeme.isWhole_of_areCut hcut) hfold
    simp only [hfold, bind, Except.bind, Reading.finish] at h
    cases hg : r.groups with
    | cons g gs => simp [hg] at h
    | nil =>
      -- No parenthesis is missing, so what the reading holds is written with the lexemes of the
      -- text alone.
      have hclosed : r.closed = ts := by simpa [hg, Reading.closed, closeAll] using h
      obtain ⟨hlex, hn, hcount, hle, hd⟩ := hr
      rw [hclosed] at hlex hn hcount hd
      have hlex : lexemes ts = RouteTemplate.lexemes text := by simpa [hg] using hlex
      have hw : isWritable ts = true := by
        rw [← areCut_lexemes hn, hlex]
        exact hcut
      refine ⟨?_, by simp [isCanonical, hw, hd, hcount, hle]⟩
      rw [← flatMap_chars_lexemes, hlex, RouteTemplate.flatMap_chars_lexemes]

theorem parse_eq_ok_iff {text : List Char} {ts : List Token} :
    parse text = .ok ts ↔ spelling ts = text ∧ isCanonical ts = true := by
  constructor
  · exact spelling_and_isCanonical_of_parse
  · rintro ⟨rfl, h⟩
    exact parse_of_isCanonical h

end Tokens

namespace Template

theorem parse_eq_ok_iff_tokens {text : String} {t : Template} :
    parse text = .ok t ↔ Tokens.parse text.toList = .ok t.tokens := by
  cases h : Tokens.parse text.toList with
  | error e => simp [parse, h, Except.map]
  | ok ts =>
    obtain ⟨us⟩ := t
    simp [parse, h, Except.map]

theorem parse_ofList_eq_ok_iff {text : List Char} {t : Template} :
    parse (String.ofList text) = .ok t ↔ Tokens.parse text = .ok t.tokens := by
  rw [parse_eq_ok_iff_tokens, String.toList_ofList]

theorem text_eq_iff {text : String} {t : Template} :
    t.text = text ↔ Tokens.spelling t.tokens = text.toList := by
  rw [Template.text, ← String.toList_inj, String.toList_ofList]

theorem parse_eq_ok_iff {text : String} {t : Template} :
    parse text = .ok t ↔ t.text = text ∧ Tokens.isCanonical t.tokens = true := by
  rw [parse_eq_ok_iff_tokens, text_eq_iff, Tokens.parse_eq_ok_iff]

/-- Nothing of a text is lost when it is read, so no two texts denote the same template. -/
theorem text_eq_of_parse {text : String} {t : Template} (h : parse text = .ok t) :
    t.text = text ∧ ∀ other, parse other = .ok t → other = text := by
  have ht := (parse_eq_ok_iff.1 h).1
  refine ⟨ht, fun other hother => ?_⟩
  exact (parse_eq_ok_iff.1 hother).1.symm.trans ht

theorem text_eq_of_parse_nested :
    let t : Template := ⟨[.literal "/", .literal "é",
      .group [.literal ".", .var "b", .group [.splat none], .group []], .literal "/", .splat "c"]⟩
    parse "/é(.:b(*)())/*c" = .ok t ∧ t.text = "/é(.:b(*)())/*c" ∧
      ∀ other, parse other = .ok t → other = "/é(.:b(*)())/*c" := by
  intro t
  have h : parse "/é(.:b(*)())/*c" = .ok t := parse_eq_ok_iff.2 ⟨rfl, rfl⟩
  exact ⟨h, text_eq_of_parse h⟩

/-- The templates that come back from their text are the canonical ones. -/
theorem parse_text_iff (t : Template) :
    (parse t.text = .ok t ↔ Tokens.isCanonical t.tokens = true) ∧
      ((∃ text, parse text = .ok t) ↔ Tokens.isCanonical t.tokens = true) := by
  constructor
  · rw [parse_eq_ok_iff]
    exact and_iff_right rfl
  · constructor
    · rintro ⟨text, h⟩
      exact (parse_eq_ok_iff.1 h).2
    · intro h
      exact ⟨t.text, parse_eq_ok_iff.2 ⟨rfl, h⟩⟩

end Template

end RouteTemplate
