import RouteTemplate.Proofs.Separators

namespace RouteTemplate

/-- The characters of a text, each with the one in front of it. -/
def withPrevious (text : List Char) : List (Option Char × Char) :=
  (none :: text.map some).zip text

theorem squeeze_eq_filter (previous : Option Char) (text : List Char) :
    squeeze (previous == some '/') text =
      (((previous :: text.map some).zip text).filter (· != (some '/', '/'))).map Prod.snd := by
  induction text generalizing previous with
  | nil => exact squeeze_nil _
  | cons c text ih =>
    rw [List.map_cons, List.zip_cons_cons, List.filter_cons]
    by_cases hc : c = '/'
    · subst hc
      by_cases hprevious : previous = some '/'
      · subst hprevious
        exact ih (some '/')
      · have hkept : ((previous, '/') != (some '/', '/')) = true := by simp [hprevious]
        rw [beq_false_of_ne hprevious, squeeze_false_slash, if_pos hkept, List.map_cons,
          ← ih (some '/')]
        rfl
    · have hkept : ((previous, c) != (some '/', '/')) = true := by simp [hc]
      have hflag : (some c == some '/') = false := by simp [hc]
      rw [squeeze_cons_of_ne hc, if_pos hkept, List.map_cons, ← ih (some c), hflag]

theorem squeeze_eq_self_iff {text : List Char} :
    squeeze false text = text ↔ ¬ ['/', '/'] <:+: text := by
  constructor
  · intro h
    rw [← h]
    exact doubled_notInfix_squeeze false text
  · exact squeeze_eq_self

theorem length_squeeze_lt_iff {text : List Char} :
    (squeeze false text).length < text.length ↔ ['/', '/'] <:+: text := by
  constructor
  · intro hlt
    refine Classical.byContradiction fun h => ?_
    rw [squeeze_eq_self h] at hlt
    exact Nat.lt_irrefl _ hlt
  · intro h
    refine Nat.lt_of_not_le fun hle => ?_
    exact squeeze_eq_self_iff.1 ((squeeze_sublist false text).eq_of_length_le hle) h

theorem byteWidth_squeeze (flag : Bool) (text : List Char) :
    byteWidth (squeeze flag text) + text.length = byteWidth text + (squeeze flag text).length := by
  have hslash : '/'.utf8Size = 1 := rfl
  induction text generalizing flag with
  | nil => rw [squeeze_nil]
  | cons c text ih =>
    have htrue := ih true
    have hfalse := ih false
    by_cases hc : c = '/'
    · subst hc
      cases flag with
      | false =>
        simp only [squeeze_false_slash, byteWidth, List.length_cons]
        omega
      | true =>
        simp only [squeeze_true_slash, byteWidth, List.length_cons]
        omega
    · simp only [squeeze_cons_of_ne hc, byteWidth, List.length_cons]
      omega

theorem collapse?_eq_none_iff {path : String} :
    collapse? path = none ↔ hasRepeatedSeparators path = false := by
  cases h : hasRepeatedSeparators path <;> simp [collapse?, h]

theorem collapse_eq_self_iff {path : String} :
    collapse path = path ↔ hasRepeatedSeparators path = false := by
  rw [← String.toList_inj, toList_collapse, squeeze_eq_self_iff, ← hasRepeatedSeparators_iff,
    Bool.not_eq_true]

theorem length_collapse_lt_iff {path : String} :
    (collapse path).length < path.length ↔ hasRepeatedSeparators path = true := by
  rw [← String.length_toList, toList_collapse, ← String.length_toList, length_squeeze_lt_iff,
    hasRepeatedSeparators_iff]

theorem utf8ByteSize_collapse_lt_iff {path : String} :
    (collapse path).utf8ByteSize < path.utf8ByteSize ↔ hasRepeatedSeparators path = true := by
  have hwidth := byteWidth_squeeze false path.toList
  rw [← length_collapse_lt_iff, ← byteWidth_toList, ← byteWidth_toList, ← String.length_toList,
    ← String.length_toList, toList_collapse]
  omega

theorem doubled_notInfix_collapse (path : String) : ¬ ['/', '/'] <:+: (collapse path).toList := by
  rw [toList_collapse]
  exact doubled_notInfix_squeeze false path.toList

theorem collapse_collapse (path : String) : collapse (collapse path) = collapse path := by
  rw [collapse_eq_self_iff, ← Bool.not_eq_true, hasRepeatedSeparators_iff]
  exact doubled_notInfix_collapse path

/-- What is left of a path are the characters other than slashes behind a slash. -/
theorem collapse_keeps_first_slashes (path : String) :
    (hasRepeatedSeparators path = true ↔ ['/', '/'] <:+: path.toList) ∧
      (collapse? path = none ↔ hasRepeatedSeparators path = false) ∧
      (collapse path = path ↔ hasRepeatedSeparators path = false) ∧
      ((collapse path).length < path.length ↔ hasRepeatedSeparators path = true) ∧
      ((collapse path).utf8ByteSize < path.utf8ByteSize ↔ hasRepeatedSeparators path = true) ∧
      (collapse path).toList =
        ((withPrevious path.toList).filter (· != (some '/', '/'))).map Prod.snd ∧
      ¬ ['/', '/'] <:+: (collapse path).toList ∧
      (∀ back, collapse (path ++ back) = collapse (collapse path ++ collapse back)) ∧
      collapse (collapse path) = collapse path := by
  refine ⟨hasRepeatedSeparators_iff, collapse?_eq_none_iff, collapse_eq_self_iff,
    length_collapse_lt_iff, utf8ByteSize_collapse_lt_iff, ?_, doubled_notInfix_collapse path,
    fun back => ?_, collapse_collapse path⟩
  · rw [toList_collapse]
    exact squeeze_eq_filter none path.toList
  · simpa using (collapse_append_collapse path "" back).symm

end RouteTemplate
