import RouteTemplate.Proofs.SlashBytes

namespace RouteTemplate

@[simp] theorem squeeze_nil (flag : Bool) : squeeze flag [] = [] := by
  cases flag <;> rfl

@[simp] theorem squeeze_true_slash (rest : List Char) :
    squeeze true ('/' :: rest) = squeeze true rest := rfl

@[simp] theorem squeeze_false_slash (rest : List Char) :
    squeeze false ('/' :: rest) = '/' :: squeeze true rest := rfl

theorem squeeze_cons_of_ne {c : Char} (h : c ≠ '/') (flag : Bool) (rest : List Char) :
    squeeze flag (c :: rest) = c :: squeeze false rest := by
  have hc : (c == '/') = false := beq_false_of_ne h
  rw [squeeze, hc]
  intro _ heq
  exact absurd heq h

theorem head?_squeeze_false (text : List Char) : (squeeze false text).head? = text.head? := by
  cases text with
  | nil => rfl
  | cons c text => simp [squeeze]

theorem squeeze_true_of_head? {text : List Char} (h : text.head? ≠ some '/') :
    squeeze true text = squeeze false text := by
  cases text with
  | nil => rfl
  | cons c text =>
    have hc : c ≠ '/' := by simpa using h
    rw [squeeze_cons_of_ne hc, squeeze_cons_of_ne hc]

theorem squeeze_doubled (flag : Bool) (front back : List Char) :
    squeeze flag (front ++ '/' :: '/' :: back) = squeeze flag (front ++ '/' :: back) := by
  induction front generalizing flag with
  | nil => cases flag <;> simp
  | cons c front ih =>
    by_cases hc : c = '/'
    · subst hc
      cases flag <;> simp [ih]
    · simp [squeeze_cons_of_ne hc, ih]

theorem squeeze_slash_of_getLast? {front : List Char} (h : front.getLast? = some '/')
    (back : List Char) : squeeze false (front ++ '/' :: back) = squeeze false (front ++ back) := by
  obtain ⟨front, rfl⟩ := List.getLast?_eq_some_iff.1 h
  simp only [List.append_assoc, List.singleton_append]
  exact squeeze_doubled false front back

theorem squeeze_append_of_notMem {front : List Char} (hne : front ≠ []) (h : '/' ∉ front)
    (flag : Bool) (back : List Char) :
    squeeze flag (front ++ back) = front ++ squeeze false back := by
  induction front generalizing flag with
  | nil => contradiction
  | cons c front ih =>
    simp only [List.mem_cons, not_or] at h
    rw [List.cons_append, squeeze_cons_of_ne (Ne.symm h.1)]
    cases front with
    | nil => rfl
    | cons d front => exact congrArg (c :: ·) (ih (by simp) h.2 false)

theorem squeeze_eq_self {text : List Char} (h : ¬ ['/', '/'] <:+: text) :
    squeeze false text = text := by
  induction text with
  | nil => rfl
  | cons c text ih =>
    obtain ⟨hhead, htext⟩ := not_or.1 (mt doubled_infix_cons_iff.2 h)
    by_cases hc : c = '/'
    · subst hc
      have hhead : text.head? ≠ some '/' := fun hslash => hhead ⟨rfl, hslash⟩
      rw [squeeze_false_slash, squeeze_true_of_head? hhead, ih htext]
    · rw [squeeze_cons_of_ne hc, ih htext]

/-- What comes first may be collapsed beforehand. -/
theorem squeeze_append_left (flag : Bool) (front back : List Char) :
    squeeze flag (squeeze flag front ++ back) = squeeze flag (front ++ back) := by
  induction front generalizing flag with
  | nil => rw [squeeze_nil]
  | cons c front ih =>
    by_cases hc : c = '/'
    · subst hc
      cases flag
      · rw [squeeze_false_slash, List.cons_append, squeeze_false_slash, ih, List.cons_append,
          squeeze_false_slash]
      · rw [squeeze_true_slash, ih, List.cons_append, squeeze_true_slash]
    · rw [squeeze_cons_of_ne hc, List.cons_append, squeeze_cons_of_ne hc, ih, List.cons_append,
        squeeze_cons_of_ne hc]

theorem squeeze_squeeze (flag : Bool) (text : List Char) :
    squeeze flag (squeeze flag text) = squeeze flag text := by
  simpa using squeeze_append_left flag text []

/-- What comes last may be collapsed beforehand, as if nothing came before it. -/
theorem squeeze_append_right (flag : Bool) (front back : List Char) :
    squeeze flag (front ++ squeeze false back) = squeeze flag (front ++ back) := by
  induction front generalizing flag with
  | nil =>
    cases flag with
    | false => exact squeeze_squeeze false back
    | true =>
      cases back with
      | nil => rfl
      | cons c back =>
        by_cases hc : c = '/'
        · subst hc
          exact squeeze_squeeze true back
        · rw [List.nil_append, squeeze_cons_of_ne hc, squeeze_cons_of_ne hc, squeeze_squeeze,
            List.nil_append, squeeze_cons_of_ne hc]
  | cons c front ih =>
    by_cases hc : c = '/'
    · subst hc
      cases flag <;> simp [ih]
    · simp [squeeze_cons_of_ne hc, ih]

theorem squeeze_sublist (flag : Bool) (text : List Char) : (squeeze flag text).Sublist text := by
  induction text generalizing flag with
  | nil => exact List.nil_sublist _
  | cons c text ih =>
    by_cases hc : c = '/'
    · subst hc
      cases flag
      · exact (ih true).cons_cons '/'
      · exact (ih true).cons '/'
    · rw [squeeze_cons_of_ne hc]
      exact (ih false).cons_cons c

theorem doubled_notInfix_squeeze (flag : Bool) (text : List Char) :
    ¬ ['/', '/'] <:+: squeeze flag text := by
  rintro ⟨front, back, heq⟩
  rw [List.append_assoc] at heq
  -- Leaving out the second of them would make what is left shorter than itself.
  have hsame : squeeze flag (front ++ '/' :: back) = squeeze flag text := by
    rw [← squeeze_squeeze flag text, ← heq]
    exact (squeeze_doubled flag front back).symm
  have hle := (squeeze_sublist flag (front ++ '/' :: back)).length_le
  rw [hsame, ← heq, List.length_append, List.length_append] at hle
  simp only [List.length_append, List.length_cons, List.length_nil] at hle
  omega

theorem collapse_eq (path : String) :
    collapse path = String.ofList (squeeze false path.toList) := by
  unfold collapse collapse?
  split
  · rfl
  · rename_i h
    rw [squeeze_eq_self (mt hasRepeatedSeparators_iff.2 h), String.ofList_toList, Option.getD_none]

theorem toList_collapse (path : String) : (collapse path).toList = squeeze false path.toList := by
  rw [collapse_eq, String.toList_ofList]

/-- Collapsed parts need only be collapsed where they meet. -/
theorem collapse_append_collapse (front middle back : String) :
    collapse (collapse front ++ middle ++ collapse back) = collapse (front ++ middle ++ back) := by
  simp only [collapse_eq, String.toList_append, String.toList_ofList, squeeze_append_right]
  rw [List.append_assoc, squeeze_append_left, List.append_assoc]

end RouteTemplate
