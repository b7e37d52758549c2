import RouteTemplate.Proofs.Appending

namespace RouteTemplate

open Grammar

theorem excessAt_eq_none {before : List Char} {c : Char} (hc : marks [c] = 1)
    (h : marks before < maxChoicePoints) : excessAt before c = none := by
  rw [excessAt_eq_none_iff, marks_append, hc]
  exact h

theorem restFault?_marked {before name rest : List Char} {gs : List OpenGroup} {c : Char}
    (hopen : c ≠ '(') (hclose : c ≠ ')') (hname : ∀ d ∈ name, isPlain d = true)
    (h : faultAt before c (name ++ rest) = none) :
    restFault? before gs (c :: name ++ rest) = restFault? (before ++ c :: name) gs rest := by
  rw [List.cons_append, restFault?_other hopen hclose h, restFault?_append hname, List.append_assoc,
    List.singleton_append]

theorem head?_name_append {name : Option String} (h : name.any isName = true) (rest : List Char) :
    ((name.getD "").toList ++ rest).head?.any isNameChar = true := by
  cases name with
  | none => cases h
  | some name =>
    obtain ⟨hne, hall⟩ := Bool.and_eq_true_iff.1 h
    obtain ⟨c, cs, hcs⟩ := List.exists_cons_of_ne_nil (l := name.toList) (by simpa using hne)
    have hc : isNameChar c = true := List.all_eq_true.1 hall c (by simp [hcs])
    simp [hcs, hc]

mutual

theorem Token.restFault?_spelling_append : {t : Token} → {before rest : List Char} →
    {gs : List OpenGroup} → t.isSound = true → nesting before = gs.length →
    gs.length + t.depth ≤ maxDepth → marks before + t.choicePoints ≤ maxChoicePoints →
    restFault? before gs (t.spelling ++ rest) = restFault? (before ++ t.spelling) gs rest
  | .literal text, before, rest, gs, h, _, _, _ =>
    restFault?_append (isPlain_of_isSound h) before rest gs
  | .var name, before, rest, gs, h, _, _, hmarks => by
    have hplain := isPlain_of_isName (all_isName_of_any h)
    have hfirst := head?_name_append h rest
    have hfault : faultAt before ':' ((name.getD "").toList ++ rest) = none := by
      rw [faultAt, if_pos hfirst]
      exact excessAt_eq_none rfl hmarks
    exact restFault?_marked (by decide) (by decide) hplain hfault
  | .splat name, before, rest, gs, h, _, _, hmarks =>
    restFault?_marked (by decide) (by decide) (isPlain_of_isName h) (excessAt_eq_none rfl hmarks)
  | .group inner, before, rest, gs, h, hnesting, hdepth, hmarks => by
    rw [Token.depth] at hdepth
    rw [Token.choicePoints] at hmarks
    let inside := before ++ ['(']
    let behind := inside ++ Tokens.spelling inner
    let g : OpenGroup := ⟨byteWidth before, []⟩
    have hinside : nesting inside = (g :: gs).length := by
      rw [nesting_append, hnesting]
      rfl
    have hroom : marks inside + Tokens.choicePoints inner ≤ maxChoicePoints := by
      have hopen : marks ['('] = 1 := rfl
      rw [marks_append, hopen]
      omega
    have hbehind : nesting behind = (g :: gs).length := by
      rw [nesting_append, Tokens.nesting_spelling h, hinside, Int.add_zero]
    have hopen : faultAt before '(' (Tokens.spelling inner ++ ')' :: rest) = none := by
      rw [faultAt, if_neg (by omega)]
      exact excessAt_eq_none rfl (by omega)
    have hclose : faultAt behind ')' rest = none := by
      rw [List.length_cons] at hbehind
      rw [faultAt, if_neg (by omega)]
    calc restFault? before gs ((Token.group inner).spelling ++ rest)
      _ = restFault? before gs ('(' :: (Tokens.spelling inner ++ ')' :: rest)) := by
        simp [Token.spelling]
      _ = restFault? inside (g :: gs) (Tokens.spelling inner ++ ')' :: rest) :=
        restFault?_open hopen
      _ = restFault? behind (g :: gs) (')' :: rest) :=
        Tokens.restFault?_spelling_append h hinside (by rw [List.length_cons]; omega) hroom
      _ = restFault? (behind ++ [')']) gs rest := restFault?_close hclose
      _ = restFault? (before ++ (Token.group inner).spelling) gs rest := by
        simp [inside, behind, Token.spelling]

/-- Sound tokens have no fault in their text, behind a text that leaves room for them. -/
theorem Tokens.restFault?_spelling_append : {ts : List Token} → {before rest : List Char} →
    {gs : List OpenGroup} → Tokens.areSound ts = true → nesting before = gs.length →
    gs.length + Tokens.depth ts ≤ maxDepth →
    marks before + Tokens.choicePoints ts ≤ maxChoicePoints →
    restFault? before gs (Tokens.spelling ts ++ rest) =
      restFault? (before ++ Tokens.spelling ts) gs rest
  | [], _, _, _, _, _, _, _ => by simp [Tokens.spelling]
  | t :: ts, before, rest, gs, h, hnesting, hdepth, hmarks => by
    obtain ⟨ht, hts⟩ := Bool.and_eq_true_iff.1 h
    rw [Tokens.depth] at hdepth
    rw [Tokens.choicePoints] at hmarks
    have hnext : nesting (before ++ t.spelling) = gs.length := by
      rw [nesting_append, Token.nesting_spelling ht, hnesting, Int.add_zero]
    have hroom : marks (before ++ t.spelling) + Tokens.choicePoints ts ≤ maxChoicePoints := by
      rw [marks_append, Token.marks_spelling ht]
      omega
    rw [Tokens.spelling, List.append_assoc,
      Token.restFault?_spelling_append ht hnesting (by omega) (by omega),
      Tokens.restFault?_spelling_append hts hnext (by omega) hroom, List.append_assoc]

end

theorem textFault?_spelling {ts : List Token} (h : Tokens.areSound ts = true)
    (hdepth : Tokens.depth ts ≤ maxDepth) (hcount : Tokens.choicePoints ts ≤ maxChoicePoints) :
    textFault? (Tokens.spelling ts) = none := by
  have hstart : textFault? (Tokens.spelling ts) = restFault? [] [] (Tokens.spelling ts ++ []) := by
    simp [textFault?, restFault?, stillOpenFrom?]
  have hmarks : marks [] = 0 := rfl
  rw [hstart, Tokens.restFault?_spelling_append h rfl (by simpa using hdepth) (by omega),
    restFault?_nil]
  rfl

namespace Template

/-- Each token can be written by itself, and the limits of template text are kept. -/
structure IsSound (t : Template) : Prop where
  areSound_tokens : Tokens.areSound t.tokens = true
  depth_le : Tokens.depth t.tokens ≤ maxDepth
  choicePoints_le : Tokens.choicePoints t.tokens ≤ maxChoicePoints

theorem isSound_of_parse {text : String} {t : Template} (h : parse text = .ok t) : t.IsSound := by
  obtain ⟨-, hwritable, hdepth, hcount⟩ := parse_eq_ok_iff_written.1 h
  exact ⟨Tokens.areSound_of_isWritable hwritable, hdepth, hcount⟩

theorem IsSound.exists_parse {t : Template} (h : t.IsSound) :
    ∃ u, parse t.text = .ok u ∧ u.text = t.text := by
  have hfault := textFault?_spelling h.areSound_tokens h.depth_le h.choicePoints_le
  have hparse := errorOf?_parse t.text
  rw [Template.text, String.toList_ofList, hfault, ← Template.text] at hparse
  obtain ⟨u, hu⟩ := errorOf?_eq_none_iff.1 hparse
  exact ⟨u, hu, (parse_eq_ok_iff.1 hu).1⟩

theorem IsSound.parse_text_eq_ok_iff {t : Template} (h : t.IsSound) :
    parse t.text = .ok t ↔ Tokens.standApart t.tokens = true := by
  rw [parse_eq_ok_iff_written, Tokens.isWritable, h.areSound_tokens, Bool.true_and]
  constructor
  · intro hwritten
    exact hwritten.2.1
  · intro happart
    exact ⟨text_eq_iff.1 rfl, happart, h.depth_le, h.choicePoints_le⟩

theorem IsSound.append {t u : Template} {fragment : String} (ht : t.IsSound)
    (hu : t.append fragment = .ok u) : u.IsSound := by
  obtain ⟨addition, hparse, hcount, rfl⟩ := append_eq_ok_iff.1 hu
  have haddition := isSound_of_parse (parse_ofList_eq_ok_iff.2 hparse)
  refine ⟨?_, ?_, hcount⟩
  · dsimp only [joinTokens]
    rw [Tokens.areSound_append, ht.areSound_tokens, Bool.true_and]
    split
    · exact haddition.areSound_tokens
    · exact haddition.areSound_tokens
  · rw [depth_joinTokens]
    exact Nat.max_le.2 ⟨ht.depth_le, haddition.depth_le⟩

end Template

end RouteTemplate
