import RouteTemplate.Proofs.Segments
import RouteTemplate.Template.Leaves
import RouteTemplate.Token.Canonical

namespace RouteTemplate

open Grammar

/-- Tokens whose values could be taken from a path, and their text. -/
inductive Filled (b : Bindings) : List Token → List Char → Prop
  | nil : Filled b [] []
  | separator {ts : List Token} {text : List Char} (hhead : ts.head?.all (!·.isSeparator) = true)
      (h : Filled b ts text) : Filled b (.separator :: ts) ('/' :: text)
  | extension {ts : List Token} {text : List Char} (h : Filled b ts text) :
      Filled b (.extension :: ts) ('.' :: text)
  | run {piece : String} {ts : List Token} {text : List Char} (hpiece : isRun piece = true)
      (h : Filled b ts text) : Filled b (.literal piece :: ts) (piece.toList ++ text)
  | var {name x : String} {ts : List Token} {text : List Char} (hx : isSegment x = true)
      (hvalue : b.get? name = some (.one x)) (hhead : ts.head?.all Token.isJoiner = true)
      (h : Filled b ts text) : Filled b (.var (some name) :: ts) (x.toList ++ text)
  | splat {name : Option String} {xs : List String} {ts : List Token} {text : List Char}
      (hxs : ∀ x ∈ xs, isSegment x = true)
      (hvalue : (name.bind b.get?).getD (.many []) = .many xs)
      (hhead : ts.head?.all Token.isJoiner = true) (h : Filled b ts text) :
      Filled b (.splat name :: ts) (joinSegments xs ++ text)

theorem Token.isPartedFrom_of_isCapture {t : Token} (h : t.isCapture = true) :
    t.isPartedFrom = Token.isJoiner := by
  funext u
  cases t with
  | literal text => cases h
  | group inner => cases h
  | var name => simp [isPartedFrom, isCapture, isSeparator]
  | splat name => simp [isPartedFrom, isCapture, isSeparator]

theorem Token.isPartedFrom_separator : separator.isPartedFrom = (!·.isSeparator) := by
  funext u
  simp [isPartedFrom, isCapture, isSeparator, separator]

theorem exists_of_suits_var {b : Bindings} {name : Option String} (h : b.suits (.var name) = true) :
    ∃ n x, name = some n ∧ b.get? n = some (.one x) ∧ isSegment x = true := by
  simp only [Bindings.suits, Option.any_eq_true] at h
  obtain ⟨v, hv, hseg⟩ := h
  obtain ⟨n, rfl, hn⟩ := Option.bind_eq_some_iff.1 hv
  cases v with
  | one x => exact ⟨n, x, rfl, hn, hseg⟩
  | many xs => cases hseg

theorem exists_of_suits_splat {b : Bindings} {name : Option String}
    (h : b.suits (.splat name) = true) :
    ∃ xs, (name.bind b.get?).getD (.many []) = .many xs ∧ ∀ x ∈ xs, isSegment x = true := by
  rw [Bindings.suits] at h
  cases hv : name.bind b.get? with
  | none => exact ⟨[], rfl, by simp⟩
  | some v =>
    rw [hv] at h
    cases v with
    | one x => cases h
    | many xs => exact ⟨xs, rfl, List.all_eq_true.1 h⟩

theorem rendered_cons_eq_ok {b : Bindings} {t : Token} {ts : List Token} {text : List Char}
    (h : Tokens.rendered b (t :: ts) = .ok text) :
    ∃ front back, t.rendered b = .ok front ∧ Tokens.rendered b ts = .ok back ∧
      text = front ++ back := by
  rw [Tokens.rendered] at h
  cases hfront : t.rendered b with
  | error e => simp [hfront, bind, Except.bind] at h
  | ok front =>
    cases hback : Tokens.rendered b ts with
    | error e => simp [hfront, hback, bind, Except.bind] at h
    | ok back =>
      refine ⟨front, back, rfl, rfl, ?_⟩
      simpa [hfront, hback, bind, Except.bind, pure, Except.pure, eq_comm] using h

theorem exists_rendered_of_suits {b : Bindings} {ts : List Token} (hflat : Tokens.depth ts = 0)
    (hsuits : ∀ t ∈ ts, b.suits t = true) : ∃ text, Tokens.rendered b ts = .ok text := by
  induction ts with
  | nil => exact ⟨[], rfl⟩
  | cons t ts ih =>
    have hdepth : t.depth = 0 ∧ Tokens.depth ts = 0 := by
      rw [Tokens.depth] at hflat
      omega
    obtain ⟨ht, hts⟩ := List.forall_mem_cons.1 hsuits
    obtain ⟨back, hback⟩ := ih hdepth.2 hts
    obtain ⟨front, hfront⟩ : ∃ front, t.rendered b = .ok front := by
      cases t with
      | literal piece => exact ⟨_, rfl⟩
      | var name =>
        obtain ⟨n, x, rfl, hvalue, -⟩ := exists_of_suits_var ht
        exact ⟨x.toList, by simp [Token.rendered, hvalue, Value.render]⟩
      | splat name => exact ⟨_, rendered_splat b name⟩
      | group inner => simp [Token.depth] at hdepth
    refine ⟨front ++ back, ?_⟩
    rw [Tokens.rendered, hfront, hback]
    rfl

theorem filled_of_rendered {b : Bindings} {ts : List Token} {text : List Char}
    (hflat : Tokens.depth ts = 0) (hwritable : ∀ t ∈ ts, t.isWritable = true)
    (hparted : Tokens.areParted ts = true) (hsuits : ∀ t ∈ ts, b.suits t = true)
    (h : Tokens.rendered b ts = .ok text) : Filled b ts text := by
  induction ts generalizing text with
  | nil =>
    cases h
    exact .nil
  | cons t ts ih =>
    obtain ⟨front, back, hfront, hback, rfl⟩ := rendered_cons_eq_ok h
    obtain ⟨hhead, hparted⟩ := Bool.and_eq_true_iff.1 hparted
    have hdepth : t.depth = 0 ∧ Tokens.depth ts = 0 := by
      rw [Tokens.depth] at hflat
      omega
    obtain ⟨hw, hwritable⟩ := List.forall_mem_cons.1 hwritable
    obtain ⟨hs, hsuits⟩ := List.forall_mem_cons.1 hsuits
    have hts : Filled b ts back := ih hdepth.2 hwritable hparted hsuits hback
    cases t with
    | literal piece =>
      obtain rfl : piece.toList = front := Except.ok.inj hfront
      rcases Token.isWritable_literal_iff.1 hw with rfl | rfl | hpiece
      · exact .separator (Token.isPartedFrom_separator ▸ hhead) hts
      · exact .extension hts
      · exact .run hpiece hts
    | var name =>
      rw [Token.isPartedFrom_of_isCapture rfl] at hhead
      obtain ⟨n, x, rfl, hvalue, hx⟩ := exists_of_suits_var hs
      obtain rfl : x.toList = front := by simpa [Token.rendered, hvalue, Value.render] using hfront
      exact .var hx hvalue hhead hts
    | splat name =>
      rw [Token.isPartedFrom_of_isCapture rfl] at hhead
      obtain ⟨xs, hvalue, hxs⟩ := exists_of_suits_splat hs
      rw [rendered_splat, hvalue, Value.toList_render_many] at hfront
      obtain rfl := Except.ok.inj hfront
      exact .splat hxs hvalue hhead hts
    | group inner => simp [Token.depth] at hdepth

theorem slash_notMem_of_isRun {piece : String} (h : isRun piece = true) : '/' ∉ piece.toList :=
  fun hmem => absurd (isDelimiter_of_isRun h _ hmem) (by decide)

theorem eq_false_of_separator {flag : Bool} {ts : List Token}
    (h : flag = true → (Token.separator :: ts).head?.all (!·.isSeparator) = true) :
    flag = false := by
  cases flag with
  | false => rfl
  | true => exact absurd (h rfl) (by simp [Token.isSeparator, Token.separator])

/-- Where a joiner comes first, or nothing, the text begins with a boundary or is empty. -/
theorem Filled.head?_text {b : Bindings} {ts : List Token} {text : List Char}
    (h : Filled b ts text) (hhead : ts.head?.all Token.isJoiner = true) :
    text.head?.all isBoundary = true := by
  cases h with
  | nil => rfl
  | separator => rfl
  | extension => rfl
  | run hpiece => exact absurd hhead (by simp [isJoiner_eq_false_of_isRun hpiece])
  | var => cases hhead
  | splat => cases hhead

theorem Filled.exists_eq_slash_cons {b : Bindings} {ts : List Token} {text : List Char}
    (h : Filled b ts text) (hhead : ts.head?.all (!·.isSeparator) = false) :
    ∃ back, text = '/' :: back := by
  cases h with
  | nil => cases hhead
  | separator => exact ⟨_, rfl⟩
  | extension => cases hhead
  | run hpiece =>
    have hjoiner := isJoiner_eq_false_of_isRun hpiece
    simp_all [Token.isJoiner]
  | var => cases hhead
  | splat => cases hhead

end RouteTemplate
