import RouteTemplate.Proofs.RoundTrip
import RouteTemplate.Proofs.Seams
import RouteTemplate.Template.Edit

namespace RouteTemplate

open Grammar

theorem excessAt_eq_none_iff {before : List Char} {c : Char} :
    excessAt before c = none ↔ marks (before ++ [c]) ≤ maxChoicePoints := by
  simp [excessAt]

theorem faultAt_eq_none_of_le {before before' after : List Char} {c : Char}
    (hnesting : nesting before' = nesting before) (hmarks : marks before' ≤ marks before)
    (h : faultAt before c after = none) : faultAt before' c after = none := by
  -- Of the text in front only its open parentheses and its marks matter.
  have hexcess : ∀ d, excessAt before d = none → excessAt before' d = none := by
    intro d hd
    rw [excessAt_eq_none_iff, marks_append] at hd ⊢
    omega
  unfold faultAt at h ⊢
  rw [hnesting]
  split at h
  · split at h
    · rename_i hname
      rw [if_pos hname]
      exact hexcess _ h
    · cases h
  · exact hexcess _ h
  · split at h
    · cases h
    · rename_i hdepth
      rw [if_neg hdepth]
      exact hexcess _ h
  · split at h
    · cases h
    · rename_i hopen
      rw [if_neg hopen]
  · rfl

theorem firstFaultFrom?_eq_none_of_le {before before' text : List Char}
    (hnesting : nesting before' = nesting before) (hmarks : marks before' ≤ marks before)
    (h : firstFaultFrom? before text = none) : firstFaultFrom? before' text = none := by
  induction text generalizing before before' with
  | nil => rfl
  | cons c text ih =>
    rw [firstFaultFrom?, Option.or_eq_none_iff] at h ⊢
    refine ⟨faultAt_eq_none_of_le hnesting hmarks h.1, ih ?_ ?_ h.2⟩
    · rw [nesting_append, nesting_append, hnesting]
    · rw [marks_append, marks_append]
      omega

theorem firstFaultFrom?_append {before front back : List Char}
    (h : firstFaultFrom? before (front ++ back) = none) :
    firstFaultFrom? (before ++ front) back = none := by
  induction front generalizing before with
  | nil => simpa using h
  | cons c front ih =>
    rw [List.cons_append, firstFaultFrom?, Option.or_eq_none_iff] at h
    simpa using ih h.2

theorem lastOpenFrom?_append {before front back : List Char}
    (h : lastOpenFrom? before (front ++ back) = none) :
    lastOpenFrom? (before ++ front) back = none := by
  induction front generalizing before with
  | nil => simpa using h
  | cons c front ih =>
    rw [List.cons_append, lastOpenFrom?, Option.or_eq_none_iff] at h
    simpa using ih h.1

/-- Whether a parenthesis stays open does not depend on where the text begins. -/
theorem lastOpenFrom?_eq_none {before text : List Char} (h : lastOpenFrom? before text = none)
    (before' : List Char) : lastOpenFrom? before' text = none := by
  induction text generalizing before before' with
  | nil => rfl
  | cons c text ih =>
    rw [lastOpenFrom?, Option.or_eq_none_iff] at h ⊢
    have hclosed : ¬(c = '(' ∧ leavesOpen text = true) := by simpa using h.2
    exact ⟨ih h.1 _, if_neg hclosed⟩

/-- Behind a text that closes its parentheses, a text is as much in order as by itself. -/
theorem textFault?_eq_none_of_append {front back : List Char} (hfront : nesting front = 0)
    (h : textFault? (front ++ back) = none) : textFault? back = none := by
  rw [textFault?, Option.or_eq_none_iff, Option.map_eq_none_iff] at h ⊢
  refine ⟨?_, lastOpenFrom?_eq_none (lastOpenFrom?_append h.2) []⟩
  exact firstFaultFrom?_eq_none_of_le hfront.symm (Nat.zero_le _) (firstFaultFrom?_append h.1)

/-- A slash joins the texts, unless the first ends with one or the second begins with a dot. -/
def joinTexts (front back : List Char) : List Char :=
  front ++ if front.getLast? = some '/' ∨ back.head? = some '.' then back else '/' :: back

def Template.joinTokens (t : Template) (addition : List Token) : List Token :=
  t.tokens ++ if t.endsWithSeparator || addition.head?.any Token.isExtension then addition
    else .separator :: addition

section

variable {t : Template} {addition : List Token} (ht : Tokens.isWritable t.tokens = true)
  (haddition : Tokens.isWritable addition = true)
include ht haddition

theorem Template.spelling_joinTokens :
    Tokens.spelling (t.joinTokens addition) =
      joinTexts (Tokens.spelling t.tokens) (Tokens.spelling addition) := by
  have hjoins : (t.endsWithSeparator || addition.head?.any Token.isExtension) = true ↔
      (Tokens.spelling t.tokens).getLast? = some '/' ∨
        (Tokens.spelling addition).head? = some '.' := by
    rw [Tokens.getLast?_spelling ht, Tokens.head?_spelling haddition, Bool.or_eq_true]
    rfl
  rw [joinTokens, joinTexts, Tokens.spelling_append]
  simp only [← hjoins]
  split <;> rfl

theorem Template.isWritable_joinTokens : Tokens.isWritable (t.joinTokens addition) = true := by
  rw [joinTokens]
  split
  · rename_i hjoins
    apply Tokens.isWritable_append ht haddition
    rcases Bool.or_eq_true_iff.1 hjoins with hlast | hhead
    · exact .inl hlast
    · right
      cases hu : addition.head? with
      | none => simp [hu] at hhead
      | some u => simp_all [Token.isJoiner]
  · have hrest : Tokens.isWritable ([.separator] ++ addition) = true :=
      Tokens.isWritable_append rfl haddition (.inl rfl)
    exact Tokens.isWritable_append ht hrest (.inr rfl)

end

theorem Template.depth_joinTokens (t : Template) (addition : List Token) :
    Tokens.depth (t.joinTokens addition) = max (Tokens.depth t.tokens) (Tokens.depth addition) := by
  rw [joinTokens]
  split
  · rw [Tokens.depth_append]
  · rw [Tokens.depth_append, Tokens.depth]
    simp [Token.depth, Token.separator]

theorem Template.append_eq_ok_iff {t u : Template} {fragment : String} :
    t.append fragment = .ok u ↔ ∃ addition,
      Tokens.parse (withoutLeadingSeparator fragment.toList) = .ok addition ∧
      Tokens.choicePoints (t.joinTokens addition) ≤ maxChoicePoints ∧
      ⟨t.joinTokens addition⟩ = u := by
  rw [append]
  cases h : Tokens.parse (withoutLeadingSeparator fragment.toList) with
  | error e => simp [bind, Except.bind]
  | ok addition =>
    change (if Tokens.choicePoints (t.joinTokens addition) ≤ maxChoicePoints
      then Except.ok ⟨t.joinTokens addition⟩ else .error ParseError.tooManyChoicePoints) = .ok u ↔ _
    split <;> simp [*]

theorem Tokens.parse_eq_ok_iff_written {text : List Char} {ts : List Token} :
    parse text = .ok ts ↔ spelling ts = text ∧ isWritable ts = true ∧ depth ts ≤ maxDepth ∧
      choicePoints ts ≤ maxChoicePoints := by
  rw [parse_eq_ok_iff, isCanonical]
  simp [and_assoc]

theorem Tokens.marks_of_written {text : List Char} {ts : List Token} (htext : spelling ts = text)
    (hwritable : isWritable ts = true) : marks text = choicePoints ts := by
  rw [← htext, marks_spelling (areSound_of_isWritable hwritable)]

theorem Tokens.parse_eq_ok_iff_marks {text : List Char} {ts us : List Token}
    (htext : spelling ts = text) (hwritable : isWritable ts = true) (hdepth : depth ts ≤ maxDepth) :
    parse text = .ok us ↔ marks text ≤ maxChoicePoints ∧ ts = us := by
  have hread : marks text ≤ maxChoicePoints → parse text = .ok ts := by
    intro hle
    rw [marks_of_written htext hwritable] at hle
    exact parse_eq_ok_iff_written.2 ⟨htext, hwritable, hdepth, hle⟩
  constructor
  · intro hus
    obtain ⟨hutext, huwritable, -, hcount⟩ := parse_eq_ok_iff_written.1 hus
    have hle : marks text ≤ maxChoicePoints := (marks_of_written hutext huwritable).trans_le hcount
    exact ⟨hle, Except.ok.inj ((hread hle).symm.trans hus)⟩
  · rintro ⟨hle, rfl⟩
    exact hread hle

theorem Template.parse_eq_ok_iff_written {text : String} {t : Template} :
    parse text = .ok t ↔ Tokens.spelling t.tokens = text.toList ∧
      Tokens.isWritable t.tokens = true ∧ Tokens.depth t.tokens ≤ maxDepth ∧
      Tokens.choicePoints t.tokens ≤ maxChoicePoints := by
  rw [parse_eq_ok_iff_tokens, Tokens.parse_eq_ok_iff_written]

theorem Template.nesting_of_parse {text : String} {t : Template} (h : parse text = .ok t) :
    nesting text.toList = 0 := by
  obtain ⟨hspelling, hwritable, -⟩ := parse_eq_ok_iff_written.1 h
  rw [← hspelling, Tokens.nesting_spelling (Tokens.areSound_of_isWritable hwritable)]

/-- The end of a text is read where the whole text is, if the parentheses in front are closed. -/
theorem exists_parse_of_append {front back : List Char} {t : Template} (hfront : nesting front = 0)
    (h : Template.parse (String.ofList (front ++ back)) = .ok t) :
    ∃ u, Template.parse (String.ofList back) = .ok u := by
  have hwhole := errorOf?_parse (String.ofList (front ++ back))
  rw [h, String.toList_ofList] at hwhole
  have hback := errorOf?_parse (String.ofList back)
  rw [String.toList_ofList, textFault?_eq_none_of_append hfront hwhole.symm] at hback
  exact errorOf?_eq_none_iff.1 hback

theorem exists_parse_of_joinTexts {front back : List Char} {t : Template}
    (hfront : nesting front = 0)
    (h : Template.parse (String.ofList (joinTexts front back)) = .ok t) :
    ∃ u, Template.parse (String.ofList back) = .ok u := by
  rw [joinTexts] at h
  split at h
  · exact exists_parse_of_append hfront h
  · have hslash : nesting (front ++ ['/']) = 0 := by
      rw [nesting_append, hfront]
      rfl
    rw [List.append_cons] at h
    exact exists_parse_of_append hslash h

namespace Template

section

variable {text : String} {t u : Template} {addition : List Char} (ht : parse text = .ok t)
  (hu : parse (String.ofList addition) = .ok u)
include ht hu

theorem written_joinTokens :
    Tokens.spelling (t.joinTokens u.tokens) = joinTexts text.toList addition ∧
    Tokens.isWritable (t.joinTokens u.tokens) = true ∧
    Tokens.depth (t.joinTokens u.tokens) ≤ maxDepth ∧
    Tokens.choicePoints (t.joinTokens u.tokens) = marks (joinTexts text.toList addition) := by
  obtain ⟨htext, htwritable, htdepth, -⟩ := parse_eq_ok_iff_written.1 ht
  obtain ⟨hutext, huwritable, hudepth, -⟩ := parse_eq_ok_iff_written.1 hu
  have hspelling := spelling_joinTokens htwritable huwritable
  have hwritable := isWritable_joinTokens htwritable huwritable
  rw [htext, hutext, String.toList_ofList] at hspelling
  have hdepth : Tokens.depth (t.joinTokens u.tokens) ≤ maxDepth := by
    rw [depth_joinTokens]
    exact Nat.max_le.2 ⟨htdepth, hudepth⟩
  exact ⟨hspelling, hwritable, hdepth, (Tokens.marks_of_written hspelling hwritable).symm⟩

/-- Two texts are read together as their tokens joined, unless there are too many choice points. -/
theorem parse_joinTexts (v : Template) :
    parse (String.ofList (joinTexts text.toList addition)) = .ok v ↔
      marks (joinTexts text.toList addition) ≤ maxChoicePoints ∧ ⟨t.joinTokens u.tokens⟩ = v := by
  obtain ⟨hspelling, hwritable, hdepth, -⟩ := written_joinTokens ht hu
  obtain ⟨vs⟩ := v
  rw [parse_ofList_eq_ok_iff, Tokens.parse_eq_ok_iff_marks hspelling hwritable hdepth, mk.injEq]

end

theorem append_eq_ite {text fragment : String} {t u : Template} (ht : parse text = .ok t)
    (hu : parse (String.ofList (withoutLeadingSeparator fragment.toList)) = .ok u) :
    t.append fragment =
      if marks (joinTexts text.toList (withoutLeadingSeparator fragment.toList)) ≤ maxChoicePoints
      then .ok ⟨t.joinTokens u.tokens⟩ else .error .tooManyChoicePoints := by
  rw [append, parse_ofList_eq_ok_iff.1 hu, ← (written_joinTokens ht hu).2.2.2]
  rfl

theorem any_isExtension_iff_of_parse {addition : List Char} {u : Template}
    (hu : parse (String.ofList addition) = .ok u) :
    u.tokens.head?.any Token.isExtension = true ↔ addition.head? = some '.' := by
  obtain ⟨hspelling, hwritable, -⟩ := parse_eq_ok_iff_written.1 hu
  rw [← Tokens.head?_spelling hwritable, hspelling, String.toList_ofList]

theorem append_error {t : Template} {fragment : String} {e : ParseError}
    (he : parse (String.ofList (withoutLeadingSeparator fragment.toList)) = .error e) :
    t.append fragment = .error e := by
  rw [parse, String.toList_ofList] at he
  cases h : Tokens.parse (withoutLeadingSeparator fragment.toList) with
  | error e' =>
    rw [h] at he
    rw [append, h, Except.error.inj he]
    rfl
  | ok us => simp [h, Except.map] at he

/-- Appending a fragment comes to reading the text with the fragment behind it. -/
theorem append_eq_ok_iff_parse_joinTexts {text : String} {t : Template} (ht : parse text = .ok t)
    (fragment : String) :
    let addition := withoutLeadingSeparator fragment.toList
    let joined := joinTexts text.toList addition
    (∀ u, t.append fragment = .ok u ↔ parse (String.ofList joined) = .ok u) ∧
      (∀ e, parse (String.ofList addition) = .error e → t.append fragment = .error e) ∧
      ((∃ u, parse (String.ofList addition) = .ok u) → marks joined > maxChoicePoints →
        t.append fragment = .error .tooManyChoicePoints) := by
  intro addition joined
  refine ⟨fun v => ?_, fun e he => append_error he, ?_⟩
  · cases hu : parse (String.ofList addition) with
    | error e =>
      -- What is wrong with the fragment alone is wrong behind the text as well.
      have hnot : parse (String.ofList joined) ≠ .ok v := by
        intro hv
        obtain ⟨u, hu'⟩ := exists_parse_of_joinTexts (nesting_of_parse ht) hv
        rw [hu] at hu'
        cases hu'
      simp [append_error hu, hnot]
    | ok u =>
      rw [append_eq_ite ht hu, parse_joinTexts ht hu]
      by_cases hle : marks joined ≤ maxChoicePoints
      · rw [if_pos hle, Except.ok.injEq, and_iff_right hle]
      · rw [if_neg hle]
        constructor
        · intro h
          cases h
        · intro h
          exact absurd h.1 hle
  · rintro ⟨u, hu⟩ hmarks
    rw [append_eq_ite ht hu, if_neg (Nat.not_le.2 hmarks)]

theorem append_eq_ok_iff_parse_joinTexts_extension :
    let t : Template := ⟨[.literal "/", .var "id"]⟩
    let u : Template := ⟨[.literal "/", .var "id", .literal ".", .var "ext",
      .group [.literal "/", .splat none]]⟩
    parse "/:id" = .ok t ∧ parse "/:id.:ext(/*)" = .ok u ∧ t.append "/.:ext(/*)" = .ok u := by
  intro t u
  have ht : parse "/:id" = .ok t := parse_eq_ok_iff.2 ⟨rfl, rfl⟩
  have hu : parse "/:id.:ext(/*)" = .ok u := parse_eq_ok_iff.2 ⟨rfl, rfl⟩
  exact ⟨ht, hu, ((append_eq_ok_iff_parse_joinTexts ht "/.:ext(/*)").1 u).2 hu⟩

end Template

end RouteTemplate
