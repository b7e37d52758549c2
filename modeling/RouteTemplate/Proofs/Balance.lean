import RouteTemplate.Proofs.Counts

namespace RouteTemplate

open Grammar

theorem leavesOpen_iff {text : List Char} :
    leavesOpen text = true ↔ ∀ seen, seen <+: text → 0 ≤ nesting seen := by
  simp [leavesOpen]

theorem isBalanced_iff {text : List Char} :
    isBalanced text = true ↔ leavesOpen text = true ∧ nesting text = 0 := by
  simp [isBalanced]

theorem isBalanced_of_isPlain {text : List Char} (h : ∀ c ∈ text, isPlain c = true) :
    isBalanced text = true := by
  have hzero : ∀ seen, seen <+: text → nesting seen = 0 := fun seen hseen =>
    nesting_of_isPlain fun c hc => h c (hseen.subset hc)
  refine isBalanced_iff.2 ⟨leavesOpen_iff.2 fun seen hseen => ?_, hzero text List.prefix_rfl⟩
  exact Int.le_of_eq (hzero seen hseen).symm

theorem isBalanced_append {text rest : List Char} (h : isBalanced text = true)
    (hrest : isBalanced rest = true) : isBalanced (text ++ rest) = true := by
  obtain ⟨hopen, hnesting⟩ := isBalanced_iff.1 h
  obtain ⟨hrestOpen, hrestNesting⟩ := isBalanced_iff.1 hrest
  refine isBalanced_iff.2 ⟨leavesOpen_iff.2 fun seen hseen => ?_, ?_⟩
  · rcases List.prefix_or_prefix_of_prefix hseen (List.prefix_append text rest) with
      hin | ⟨more, rfl⟩
    · exact leavesOpen_iff.1 hopen seen hin
    · rw [nesting_append, hnesting, Int.zero_add]
      exact leavesOpen_iff.1 hrestOpen more ((List.prefix_append_right_inj text).1 hseen)
  · rw [nesting_append, hnesting, hrestNesting]
    rfl

theorem isBalanced_enclosed {text : List Char} (h : isBalanced text = true) :
    isBalanced ('(' :: (text ++ [')'])) = true := by
  obtain ⟨hopen, hnesting⟩ := isBalanced_iff.1 h
  have hcons : ∀ seen, nesting ('(' :: seen) = nesting seen + 1 := by
    intro seen
    rw [← List.singleton_append, nesting_append, Int.add_comm]
    rfl
  have hclose : nesting [')'] = -1 := rfl
  refine isBalanced_iff.2 ⟨leavesOpen_iff.2 fun seen hseen => ?_, ?_⟩
  · rcases seen with _ | ⟨c, seen⟩
    · exact Int.le_refl 0
    · obtain ⟨rfl, htail⟩ := List.cons_prefix_cons.1 hseen
      rw [hcons]
      rcases List.prefix_concat_iff.1 htail with rfl | hin
      · rw [nesting_append, hnesting, hclose]
        decide
      · have := leavesOpen_iff.1 hopen seen hin
        omega
  · rw [hcons, nesting_append, hnesting, hclose]
    rfl

theorem Lexeme.isBalanced_chars {l : Lexeme} (h : l.isWhole = true) (hopen : l ≠ .groupOpen)
    (hclose : l ≠ .groupClose) : isBalanced l.chars = true := by
  cases l with
  | separator => decide
  | extension => decide
  | run text => exact isBalanced_of_isPlain (isPlain_of_isWhole_run h)
  | var name =>
    have hmark : isBalanced [':'] = true := by decide
    exact isBalanced_append hmark (isBalanced_of_isPlain (isPlain_of_all_isNameChar h))
  | splat name =>
    have hmark : isBalanced ['*'] = true := by decide
    exact isBalanced_append hmark (isBalanced_of_isPlain (isPlain_of_all_isNameChar h))
  | groupOpen => exact absurd rfl hopen
  | groupClose => exact absurd rfl hclose

theorem Lexeme.ofLiteral_ne_parenthesis (text : String) :
    ofLiteral text ≠ .groupOpen ∧ ofLiteral text ≠ .groupClose := by
  rw [ofLiteral]
  split
  · simp
  · split <;> simp

/-- Tokens that can be written are written with matching parentheses. -/
theorem Tokens.isBalanced_spelling {ts : List Token}
    (h : ∀ l ∈ Tokens.lexemes ts, l.isWhole = true) : isBalanced (spelling ts) = true := by
  induction ts using Tokens.induction with
  | nil => decide
  | literal text ts ih =>
    obtain ⟨hl, hts⟩ := List.forall_mem_cons.1 h
    obtain ⟨hopen, hclose⟩ := Lexeme.ofLiteral_ne_parenthesis text
    rw [spelling, Token.spelling, ← Lexeme.chars_ofLiteral]
    exact isBalanced_append (Lexeme.isBalanced_chars hl hopen hclose) (ih hts)
  | var name ts ih =>
    obtain ⟨hl, hts⟩ := List.forall_mem_cons.1 h
    exact isBalanced_append (Lexeme.isBalanced_chars hl (by simp) (by simp)) (ih hts)
  | splat name ts ih =>
    obtain ⟨hl, hts⟩ := List.forall_mem_cons.1 h
    exact isBalanced_append (Lexeme.isBalanced_chars hl (by simp) (by simp)) (ih hts)
  | group inner ts hinner ih =>
    rw [lexemes, Token.lexemes] at h
    simp only [List.cons_append, List.append_assoc, List.mem_cons, List.mem_append] at h
    rw [spelling, Token.spelling]
    exact isBalanced_append
      (isBalanced_enclosed (hinner fun l hl => h l (.inr (.inl hl))))
      (ih fun l hl => h l (by simp [hl]))

end RouteTemplate
