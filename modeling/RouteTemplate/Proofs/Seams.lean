import RouteTemplate.Proofs.Faults
import RouteTemplate.Token.Canonical

namespace RouteTemplate

open Grammar

theorem isPlain_of_isSound {text : String} (h : (Token.literal text).isSound = true) :
    ∀ c ∈ text.toList, isPlain c = true := by
  rcases Token.isSound_literal_iff.1 h with rfl | rfl | hrun
  · simp [isPlain]
  · simp [isPlain]
  · exact fun c hc => isPlain_of_isDelimiter (isDelimiter_of_isRun hrun c hc)

theorem isDelimiter_of_isName {name : Option String} (h : name.all isName = true) :
    ∀ c ∈ (name.getD "").toList, isDelimiter c = false := by
  intro c hc
  cases name with
  | none => cases hc
  | some name =>
    have hname := List.all_eq_true.1 (Bool.and_eq_true_iff.1 h).2 c hc
    exact isDelimiter_eq_false_of_isNameChar hname

theorem isPlain_of_isName {name : Option String} (h : name.all isName = true) :
    ∀ c ∈ (name.getD "").toList, isPlain c = true :=
  fun c hc => isPlain_of_isDelimiter (isDelimiter_of_isName h c hc)

theorem all_isName_of_any {name : Option String} (h : name.any isName = true) :
    name.all isName = true := by
  cases name with
  | none => rfl
  | some name => exact h

namespace Tokens

/-- Of characters that only choice points add, tokens hold as many as choice points tell. -/
theorem count_spelling {f : List Char → Int} {k : Int}
    (happend : ∀ xs ys, f (xs ++ ys) = f xs + f ys)
    (hplain : ∀ {xs}, (∀ c ∈ xs, isPlain c = true) → f xs = 0) (hvar : f [':'] = k)
    (hsplat : f ['*'] = k) (hgroup : f ['('] + f [')'] = k) {ts : List Token}
    (h : areSound ts = true) : f (spelling ts) = k * choicePoints ts := by
  have hcons : ∀ c xs, f (c :: xs) = f [c] + f xs := fun c xs => happend [c] xs
  induction ts using Tokens.induction with
  | nil =>
    have hnil : f [] = 0 := hplain (by simp)
    simp [spelling, choicePoints, hnil]
  | literal text ts ih =>
    obtain ⟨ht, hts⟩ := Bool.and_eq_true_iff.1 h
    have htext := hplain (isPlain_of_isSound ht)
    rw [spelling, Token.spelling, happend, htext, ih hts]
    simp [choicePoints, Token.choicePoints]
  | var name ts ih =>
    obtain ⟨ht, hts⟩ := Bool.and_eq_true_iff.1 h
    have hname := hplain (isPlain_of_isName (all_isName_of_any ht))
    rw [spelling, Token.spelling, happend, hcons, hvar, hname, ih hts]
    simp [choicePoints, Token.choicePoints, Int.mul_add]
  | splat name ts ih =>
    obtain ⟨ht, hts⟩ := Bool.and_eq_true_iff.1 h
    have hname := hplain (isPlain_of_isName ht)
    rw [spelling, Token.spelling, happend, hcons, hsplat, hname, ih hts]
    simp [choicePoints, Token.choicePoints, Int.mul_add]
  | group inner ts hinner ih =>
    obtain ⟨ht, hts⟩ := Bool.and_eq_true_iff.1 h
    rw [spelling, Token.spelling, happend, hcons, happend, hinner ht, ih hts]
    simp only [choicePoints, Token.choicePoints, Int.natCast_add, Int.natCast_one, Int.mul_add]
    omega

theorem marks_spelling {ts : List Token} (h : areSound ts = true) :
    marks (spelling ts) = choicePoints ts := by
  have hcount := count_spelling (f := fun text => marks text) (k := 1)
    (fun xs ys => by simp [marks_append]) (fun hxs => by simp [marks_of_isPlain hxs]) rfl rfl rfl h
  omega

theorem nesting_spelling {ts : List Token} (h : areSound ts = true) :
    nesting (spelling ts) = 0 := by
  have hcount := count_spelling (k := 0) nesting_append nesting_of_isPlain rfl rfl rfl h
  rwa [Int.zero_mul] at hcount

end Tokens

theorem Token.marks_spelling {t : Token} (h : t.isSound = true) :
    marks t.spelling = t.choicePoints := by
  have hsingle : Tokens.areSound [t] = true := by rw [Tokens.areSound, h]; rfl
  simpa [Tokens.spelling, Tokens.choicePoints] using Tokens.marks_spelling hsingle

theorem Token.nesting_spelling {t : Token} (h : t.isSound = true) : nesting t.spelling = 0 := by
  have hsingle : Tokens.areSound [t] = true := by rw [Tokens.areSound, h]; rfl
  simpa [Tokens.spelling] using Tokens.nesting_spelling hsingle

theorem runsInto_eq_false {t u : Token} (h : t.isSeparator = true ∨ u.isJoiner = true) :
    t.runsInto u = false := by
  have hjoiner : ∀ {text : String}, (Token.literal text).isJoiner = true → isRun text = false :=
    fun htext => Bool.eq_false_iff.2 fun hrun => by
      simp [isJoiner_eq_false_of_isRun hrun] at htext
  cases u with
  | literal text =>
    rcases h with h | h
    · cases t with
      | literal front =>
        have hfront : isRun front = false := hjoiner (by simp [Token.isJoiner, h])
        simp [Token.runsInto, hfront]
      | var name => cases h
      | splat name => cases h
      | group inner => cases h
    · cases t <;> simp [Token.runsInto, hjoiner h]
  | var name => cases t <;> rfl
  | splat name => cases t <;> rfl
  | group inner => cases t <;> rfl

/-- Tokens can be written behind others if there is a slash or dot at the seam. -/
theorem Tokens.isWritable_append {ts us : List Token} (hts : isWritable ts = true)
    (hus : isWritable us = true)
    (hseam : ts.getLast?.any Token.isSeparator = true ∨ us.head?.any Token.isJoiner = true) :
    isWritable (ts ++ us) = true := by
  induction ts with
  | nil => exact hus
  | cons t ts ih =>
    simp only [isWritable_cons, Bool.and_eq_true, Bool.not_eq_true'] at hts
    obtain ⟨⟨ht, hnext⟩, hts⟩ := hts
    cases ts with
    | nil =>
      have hnext : us.head?.any t.runsInto = false := by
        cases hu : us.head? with
        | none => rfl
        | some u => exact runsInto_eq_false (by simpa [hu] using hseam)
      simp [ht, hnext, hus]
    | cons u ts =>
      have hrest := ih hts (by simpa using hseam)
      simp_all

theorem Token.eq_of_isJoiner {t : Token} (h : t.isJoiner = true) :
    t = separator ∨ t = extension := by
  cases t with
  | literal text => simpa [isJoiner, isSeparator, isExtension, separator, extension] using h
  | var name => cases h
  | splat name => cases h
  | group inner => cases h

theorem Token.spelling_of_not_joiner {t : Token} (h : t.isWritable = true)
    (hjoiner : t.isJoiner = false) :
    t.spelling ≠ [] ∧ t.spelling.head? ≠ some '.' ∧ t.spelling.getLast? ≠ some '/' := by
  have hname : ∀ {name : Option String}, name.all isName = true → '/' ∉ (name.getD "").toList :=
    fun hname hmem => absurd (isDelimiter_of_isName hname _ hmem) (by decide)
  cases t with
  | literal text =>
    have hrun : isRun text = true := by
      rcases isWritable_literal_iff.1 h with rfl | rfl | hrun
      · cases hjoiner
      · cases hjoiner
      · exact hrun
    have hdelimiter := isDelimiter_of_isRun hrun
    refine ⟨toList_ne_nil_of_isRun hrun, fun hhead => ?_, fun hlast => ?_⟩
    · exact absurd (hdelimiter _ (List.mem_of_head? hhead)) (by decide)
    · exact absurd (hdelimiter _ (List.mem_of_getLast? hlast)) (by decide)
  | var name =>
    rw [isWritable_var] at h
    refine ⟨List.cons_ne_nil _ _, by simp [spelling], fun hlast => ?_⟩
    exact absurd (List.mem_of_getLast? hlast)
      (by simpa [spelling] using hname (all_isName_of_any h))
  | splat name =>
    rw [isWritable_splat] at h
    refine ⟨List.cons_ne_nil _ _, by simp [spelling], fun hlast => ?_⟩
    exact absurd (List.mem_of_getLast? hlast) (by simpa [spelling] using hname h)
  | group inner =>
    refine ⟨List.cons_ne_nil _ _, by simp [spelling], ?_⟩
    rw [spelling, ← List.cons_append, List.getLast?_concat]
    decide

theorem Token.spelling_ne_nil {t : Token} (h : t.isWritable = true) : t.spelling ≠ [] := by
  cases hjoiner : t.isJoiner with
  | true => rcases eq_of_isJoiner hjoiner with rfl | rfl <;> exact List.cons_ne_nil _ _
  | false => exact (spelling_of_not_joiner h hjoiner).1

theorem Token.getLast?_spelling {t : Token} (h : t.isWritable = true) :
    t.spelling.getLast? = some '/' ↔ t.isSeparator = true := by
  cases hjoiner : t.isJoiner with
  | true => rcases eq_of_isJoiner hjoiner with rfl | rfl <;> decide
  | false =>
    have hseparator : t.isSeparator = false := (Bool.or_eq_false_iff.1 hjoiner).1
    simp [(spelling_of_not_joiner h hjoiner).2.2, hseparator]

theorem Token.head?_spelling {t : Token} (h : t.isWritable = true) :
    t.spelling.head? = some '.' ↔ t.isExtension = true := by
  cases hjoiner : t.isJoiner with
  | true => rcases eq_of_isJoiner hjoiner with rfl | rfl <;> decide
  | false =>
    have hextension : t.isExtension = false := (Bool.or_eq_false_iff.1 hjoiner).2
    simp [(spelling_of_not_joiner h hjoiner).2.1, hextension]

theorem Tokens.getLast?_spelling {ts : List Token} (h : isWritable ts = true) :
    (spelling ts).getLast? = some '/' ↔ ts.getLast?.any Token.isSeparator = true := by
  cases hlast : ts.getLast? with
  | none =>
    obtain rfl := List.getLast?_eq_none_iff.1 hlast
    simp [spelling]
  | some t =>
    obtain ⟨front, rfl⟩ := List.getLast?_eq_some_iff.1 hlast
    have ht : t.isWritable = true := isWritable_of_mem h t (by simp)
    rw [spelling_append, spelling, spelling, List.append_nil,
      List.getLast?_append_of_ne_nil _ (Token.spelling_ne_nil ht), Token.getLast?_spelling ht]
    rfl

theorem Tokens.head?_spelling {ts : List Token} (h : isWritable ts = true) :
    (spelling ts).head? = some '.' ↔ ts.head?.any Token.isExtension = true := by
  cases ts with
  | nil => simp [spelling]
  | cons t ts =>
    have ht : t.isWritable = true := isWritable_of_mem h t List.mem_cons_self
    rw [spelling, List.head?_append_of_ne_nil _ (Token.spelling_ne_nil ht), Token.head?_spelling ht]
    rfl

end RouteTemplate
