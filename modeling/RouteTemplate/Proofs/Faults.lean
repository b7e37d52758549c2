import RouteTemplate.Proofs.Lexemes
import RouteTemplate.Text.Marks

namespace RouteTemplate

open Grammar

theorem nesting_append (xs ys : List Char) : nesting (xs ++ ys) = nesting xs + nesting ys := by
  simp only [nesting, List.count_append]
  omega

theorem marks_append (xs ys : List Char) : marks (xs ++ ys) = marks xs + marks ys := by
  simp [marks]

theorem nesting_singleton {c : Char} (ho : c ≠ '(') (hc : c ≠ ')') : nesting [c] = 0 := by
  simp [nesting, ho, hc]

/-- Whether a text leaves a parenthesis in front of it open, with `inner` more to close first. -/
def leavesOpenAround (inner : Nat) (text : List Char) : Bool :=
  text.inits.all fun seen => 0 ≤ nesting seen + inner

theorem leavesOpenAround_zero (text : List Char) : leavesOpenAround 0 text = leavesOpen text := by
  simp [leavesOpenAround, leavesOpen]

theorem leavesOpenAround_nil (inner : Nat) : leavesOpenAround inner [] = true := by
  simp [leavesOpenAround, nesting]

theorem leavesOpenAround_cons {k n : Nat} {c : Char} (text : List Char) (h : k + nesting [c] = n) :
    leavesOpenAround k (c :: text) = leavesOpenAround n text := by
  have hcons : ∀ seen, nesting (c :: seen) + k = nesting seen + n := by
    intro seen
    have happend := nesting_append [c] seen
    rw [List.singleton_append] at happend
    omega
  have hnil : nesting [] = 0 := rfl
  simp [leavesOpenAround, List.all_map, Function.comp_def, hcons, hnil]

theorem leavesOpenAround_close (text : List Char) :
    leavesOpenAround 0 (')' :: text) = false := by
  rw [leavesOpenAround, List.all_eq_false]
  exact ⟨[')'], by simp, by decide⟩

/-- The innermost open group that a text does not close, with `inner` more to be closed first. -/
def stillOpenFrom? (inner : Nat) (text : List Char) : List OpenGroup → Option Nat
  | [] => none
  | g :: gs =>
    if leavesOpenAround inner text then some g.offset else stillOpenFrom? (inner + 1) text gs

/-- What is wrong with the rest of a text, behind `before` and inside the open groups. -/
def restFault? (before : List Char) (groups : List OpenGroup) (text : List Char) :
    Option ParseError :=
  (firstFaultFrom? before text).or
    (((lastOpenFrom? before text).or (stillOpenFrom? 0 text groups)).map .unclosedGroup)

theorem stillOpenFrom?_cons {k n : Nat} {c : Char} (text : List Char) (h : k + nesting [c] = n)
    (gs : List OpenGroup) : stillOpenFrom? k (c :: text) gs = stillOpenFrom? n text gs := by
  induction gs generalizing k n with
  | nil => rfl
  | cons g gs ih =>
    have hsucc : ((k + 1 : Nat) : Int) + nesting [c] = (n + 1 : Nat) := by omega
    rw [stillOpenFrom?, stillOpenFrom?, leavesOpenAround_cons text h, ih hsucc]

theorem restFault?_nil (before : List Char) (gs : List OpenGroup) :
    restFault? before gs [] = gs.head?.map (.unclosedGroup ·.offset) := by
  cases gs <;>
    simp [restFault?, firstFaultFrom?, lastOpenFrom?, stillOpenFrom?, leavesOpenAround_nil]

theorem restFault?_fault {before text : List Char} {gs : List OpenGroup} {c : Char}
    {e : ParseError} (h : faultAt before c text = some e) :
    restFault? before gs (c :: text) = some e := by
  simp [restFault?, firstFaultFrom?, h]

theorem restFault?_other {before text : List Char} {gs : List OpenGroup} {c : Char}
    (ho : c ≠ '(') (hc : c ≠ ')') (h : faultAt before c text = none) :
    restFault? before gs (c :: text) = restFault? (before ++ [c]) gs text := by
  have hstill := stillOpenFrom?_cons (k := 0) text (by rw [nesting_singleton ho hc]; rfl) gs
  simp [restFault?, firstFaultFrom?, lastOpenFrom?, h, ho, hstill]

theorem restFault?_open {before text : List Char} {gs : List OpenGroup} {ts : List Token}
    (h : faultAt before '(' text = none) :
    restFault? before gs ('(' :: text) =
      restFault? (before ++ ['(']) (⟨byteWidth before, ts⟩ :: gs) text := by
  have hstill := stillOpenFrom?_cons (k := 0) (n := 1) (c := '(') text rfl gs
  -- The parenthesis itself is the last one open if the text leaves it so, and no other comes
  -- behind it.
  cases hopen : leavesOpen text <;>
    simp [restFault?, firstFaultFrom?, lastOpenFrom?, h, hstill, stillOpenFrom?,
      leavesOpenAround_zero, hopen]

theorem restFault?_close {before text : List Char} {g : OpenGroup} {gs : List OpenGroup}
    (h : faultAt before ')' text = none) :
    restFault? before (g :: gs) (')' :: text) = restFault? (before ++ [')']) gs text := by
  have hstill := stillOpenFrom?_cons (k := 1) (n := 0) (c := ')') text rfl gs
  simp [restFault?, firstFaultFrom?, lastOpenFrom?, h, hstill, stillOpenFrom?,
    leavesOpenAround_close]

/-- A character that begins no choice point and is no parenthesis. -/
def isPlain (c : Char) : Bool := c != ':' && c != '*' && c != '(' && c != ')'

theorem isPlain_of_isDelimiter {c : Char} (h : isDelimiter c = false) : isPlain c = true := by
  simp_all [isDelimiter, isPlain]

theorem isPlain_of_mem_name (text : List Char) :
    ∀ c ∈ text.takeWhile isNameChar, isPlain c = true := by
  intro c hc
  have hname := List.all_eq_true.1 (List.all_takeWhile (p := isNameChar) (l := text)) c hc
  exact isPlain_of_isDelimiter (isDelimiter_eq_false_of_isNameChar hname)

theorem marks_of_isPlain {text : List Char} (h : ∀ c ∈ text, isPlain c = true) :
    marks text = 0 := by
  rw [marks, List.countP_eq_zero]
  intro c hc
  have hplain := h c hc
  simp_all [isPlain]

theorem nesting_of_isPlain {text : List Char} (h : ∀ c ∈ text, isPlain c = true) :
    nesting text = 0 := by
  have hopen : text.count '(' = 0 := List.count_eq_zero.2 fun hm => absurd (h _ hm) (by decide)
  have hclose : text.count ')' = 0 := List.count_eq_zero.2 fun hm => absurd (h _ hm) (by decide)
  simp [nesting, hopen, hclose]

theorem restFault?_append {front : List Char} (hfront : ∀ c ∈ front, isPlain c = true)
    (before text : List Char) (gs : List OpenGroup) :
    restFault? before gs (front ++ text) = restFault? (before ++ front) gs text := by
  induction front generalizing before with
  | nil => simp
  | cons c front ih =>
    have hc := hfront c List.mem_cons_self
    have hfault : faultAt before c (front ++ text) = none := by
      unfold faultAt
      split <;> first | contradiction | rfl
    simp only [isPlain, Bool.and_eq_true, bne_iff_ne] at hc
    rw [List.cons_append, restFault?_other hc.1.2 hc.2 hfault,
      ih (fun d hd => hfront d (List.mem_cons_of_mem _ hd)), List.append_assoc,
      List.singleton_append]

def errorOf? {α : Type} : Except ParseError α → Option ParseError
  | .ok _ => none
  | .error e => some e

theorem errorOf?_eq_none_iff {α : Type} {x : Except ParseError α} :
    errorOf? x = none ↔ ∃ a, x = .ok a := by
  cases x <;> simp [errorOf?]

theorem errorOf?_eq_some_iff {α : Type} {x : Except ParseError α} {e : ParseError} :
    errorOf? x = some e ↔ x = .error e := by
  cases x <;> simp [errorOf?]

namespace Reading

def fault? (r : Reading) (ls : List Lexeme) : Option ParseError :=
  errorOf? (ls.foldlM step r >>= finish)

theorem fault?_nil (r : Reading) : r.fault? [] = r.groups.head?.map (.unclosedGroup ·.offset) := by
  cases hg : r.groups <;> simp [fault?, pure, Except.pure, bind, Except.bind, finish, hg, errorOf?]

theorem fault?_cons_error {r : Reading} {l : Lexeme} {e : ParseError} (h : r.place l = .error e)
    (ls : List Lexeme) : r.fault? (l :: ls) = some e := by
  simp [fault?, step_of_place_error h, bind, Except.bind, errorOf?]

theorem fault?_cons_ok {r p : Reading} {l : Lexeme} (h : r.place l = .ok p) (ls : List Lexeme) :
    r.fault? (l :: ls) = (advance l p).fault? ls := by
  simp [fault?, step_of_place h, bind, Except.bind]

/-- What a reading counts is what stands in the text before its place. -/
structure Tracks (r : Reading) (before : List Char) : Prop where
  offset_eq : r.offset = byteWidth before
  choicePoints_eq : r.choicePoints = marks before
  length_groups : (r.groups.length : Int) = nesting before

theorem Tracks.count_cases {r : Reading} {before : List Char} (hr : r.Tracks before) {l : Lexeme}
    {f : Reading → Reading} (hplace : r.place l = r.count.map f) {c : Char} (hc : marks [c] = 1) :
    (excessAt before c = none ∧
      r.place l = .ok (f { r with choicePoints := r.choicePoints + 1 })) ∨
    (excessAt before c = some .tooManyChoicePoints ∧
      r.place l = .error .tooManyChoicePoints) := by
  have hmarks : marks (before ++ [c]) = r.choicePoints + 1 := by
    rw [marks_append, hc, hr.choicePoints_eq]
  unfold excessAt
  rw [hmarks, hplace]
  by_cases hlt : r.choicePoints < maxChoicePoints
  · left
    exact ⟨if_neg (by omega), map_count_of_lt hlt f⟩
  · right
    exact ⟨if_pos (by omega), map_count_of_not_lt hlt f⟩

section

variable {r : Reading} {before rest : List Char} (hr : r.Tracks before)
  (ih : ∀ {s : Reading} {before : List Char}, s.Tracks before →
    s.fault? (lexemes rest) = restFault? before s.groups rest)
include hr ih

theorem Tracks.fault?_cons {p : Reading} {l : Lexeme} (hplace : r.place l = .ok p)
    (hoffset : p.offset = r.offset) (hcount : p.choicePoints = r.choicePoints + marks l.chars)
    (hgroups : (p.groups.length : Int) = r.groups.length + nesting l.chars) :
    r.fault? (l :: lexemes rest) = restFault? (before ++ l.chars) p.groups rest := by
  have hp : (advance l p).Tracks (before ++ l.chars) := by
    refine ⟨?_, ?_, ?_⟩ <;> dsimp only [advance]
    · rw [hoffset, hr.offset_eq, byteWidth_append, Lexeme.width]
    · rw [hcount, hr.choicePoints_eq, marks_append]
    · rw [hgroups, hr.length_groups, nesting_append]
  rw [fault?_cons_ok hplace, ih hp]
  rfl

theorem Tracks.fault?_plain {l : Lexeme} {t : Token} (hplain : ∀ c ∈ l.chars, isPlain c = true)
    (hplace : r.place l = .ok (r.push t)) :
    r.fault? (l :: lexemes rest) = restFault? before r.groups (l.chars ++ rest) := by
  have hmarks := marks_of_isPlain hplain
  have hnesting := nesting_of_isPlain hplain
  have h := hr.fault?_cons ih hplace rfl (by simp [hmarks, push]) (by simp [hnesting, push])
  rw [h, restFault?_append hplain]
  rfl

theorem Tracks.fault?_counted {name : List Char} {c : Char} {l : Lexeme} {t : Token}
    (hl : l.chars = c :: name) (hc : marks [c] = 1) (hopen : c ≠ '(') (hclose : c ≠ ')')
    (hname : ∀ d ∈ name, isPlain d = true) (hplace : r.place l = r.count.map (push t))
    (hfault : faultAt before c (name ++ rest) = excessAt before c) :
    r.fault? (l :: lexemes rest) = restFault? before r.groups (c :: (name ++ rest)) := by
  rcases hr.count_cases hplace hc with ⟨hexcess, hp⟩ | ⟨hexcess, hp⟩
  · have hmarks : marks l.chars = 1 := by
      rw [hl, ← List.singleton_append, marks_append, hc, marks_of_isPlain hname]
    have hnesting : nesting l.chars = 0 := by
      rw [hl, ← List.singleton_append, nesting_append, nesting_singleton hopen hclose,
        nesting_of_isPlain hname]
      rfl
    have h := hr.fault?_cons ih hp rfl (by simp [hmarks, push]) (by simp [hnesting, push])
    rw [h, hl, restFault?_other hopen hclose (hfault.trans hexcess), restFault?_append hname,
      List.append_assoc, List.singleton_append]
    rfl
  · rw [fault?_cons_error hp, restFault?_fault (hfault.trans hexcess)]

theorem Tracks.fault?_open :
    r.fault? (.groupOpen :: lexemes rest) = restFault? before r.groups ('(' :: rest) := by
  have hlength := hr.length_groups
  by_cases hd : r.groups.length < maxDepth
  · have hfault : faultAt before '(' rest = excessAt before '(' := if_neg (by omega)
    have hplace : r.place .groupOpen = r.count.map openGroup := if_pos hd
    rcases hr.count_cases hplace (c := '(') rfl with ⟨hexcess, hp⟩ | ⟨hexcess, hp⟩
    · have h := hr.fault?_cons ih hp rfl rfl rfl
      rw [h, restFault?_open (hfault.trans hexcess), ← hr.offset_eq]
      rfl
    · rw [fault?_cons_error hp, restFault?_fault (hfault.trans hexcess)]
  · have hfault : faultAt before '(' rest = some (.nestingTooDeep (byteWidth before)) :=
      if_pos (by omega)
    have hp : r.place .groupOpen = .error (.nestingTooDeep (byteWidth before)) := by
      rw [place, if_neg hd, hr.offset_eq]
    rw [fault?_cons_error hp, restFault?_fault hfault]

theorem Tracks.fault?_close :
    r.fault? (.groupClose :: lexemes rest) = restFault? before r.groups (')' :: rest) := by
  have hlength := hr.length_groups
  cases hg : r.groups with
  | nil =>
    have hfault : faultAt before ')' rest = some (.unexpectedGroupClose (byteWidth before)) :=
      if_pos (by simpa [hg] using hlength.symm)
    have hp : r.place .groupClose = .error (.unexpectedGroupClose (byteWidth before)) := by
      simp [place, hg, hr.offset_eq]
    rw [fault?_cons_error hp, restFault?_fault hfault]
  | cons g gs =>
    rw [hg, List.length_cons] at hlength
    have hfault : faultAt before ')' rest = none := if_neg (by omega)
    have hp : r.place .groupClose =
        .ok ⟨r.offset, r.choicePoints, gs, .group r.tokens.reverse :: g.before⟩ := by
      simp [place, hg]
    have hnesting : nesting Lexeme.groupClose.chars = -1 := rfl
    have h := hr.fault?_cons ih hp rfl rfl (by
      rw [hnesting, hg, List.length_cons]
      dsimp only
      omega)
    rw [h, restFault?_close hfault]
    rfl

end

theorem head?_any_eq (p : Char → Bool) (text : List Char) :
    text.head?.any p = !(text.takeWhile p).isEmpty := by
  rcases text with _ | ⟨c, text⟩
  · rfl
  · cases hc : p c <;> simp [hc]

/-- A reading goes wrong where the text does. -/
theorem Tracks.fault?_lexemes {r : Reading} {before text : List Char} (hr : r.Tracks before) :
    r.fault? (lexemes text) = restFault? before r.groups text := by
  -- One lexeme at a time: the rest of the text is read from where the lexeme leaves the reading.
  fun_induction lexemes text generalizing r before with
  | case1 => rw [fault?_nil, restFault?_nil]
  | case2 rest ih =>
    exact hr.fault?_plain ih (l := .separator) (by simp [Lexeme.chars, isPlain]) rfl
  | case3 rest ih =>
    exact hr.fault?_plain ih (l := .extension) (by simp [Lexeme.chars, isPlain]) rfl
  | case4 rest ih =>
    have hplain := isPlain_of_mem_name rest
    have hhead := head?_any_eq isNameChar rest
    have hrest : rest.takeWhile isNameChar ++ rest.dropWhile isNameChar = rest :=
      List.takeWhile_append_dropWhile
    cases hname : rest.takeWhile isNameChar with
    | nil =>
      have hfault : faultAt before ':' rest = some (.missingVariableName (byteWidth before)) :=
        if_neg (by simp [hhead, hname])
      have hp : r.place (.var []) = .error (.missingVariableName (byteWidth before)) := by
        rw [place, hr.offset_eq]
      rw [fault?_cons_error hp, restFault?_fault hfault]
    | cons c cs =>
      have hfault : faultAt before ':' rest = excessAt before ':' :=
        if_pos (by simp [hhead, hname])
      rw [hname] at hplain hrest
      rw [← hrest] at hfault
      have h := hr.fault?_counted ih (l := .var (c :: cs)) rfl rfl (by decide) (by decide)
        hplain rfl hfault
      rwa [hrest] at h
  | case5 rest ih =>
    have hplain := isPlain_of_mem_name rest
    obtain ⟨t, hplace⟩ :
        ∃ t, r.place (.splat (rest.takeWhile isNameChar)) = r.count.map (push t) := by
      cases rest.takeWhile isNameChar <;> exact ⟨_, rfl⟩
    have h := hr.fault?_counted ih rfl rfl (by decide) (by decide) hplain hplace rfl
    rwa [List.takeWhile_append_dropWhile] at h
  | case6 rest ih => exact hr.fault?_open ih
  | case7 rest ih => exact hr.fault?_close ih
  | case8 c rest _ _ _ _ _ _ ih =>
    have hrun := List.all_eq_true.1 (List.all_takeWhile (p := (!isDelimiter ·)) (l := rest))
    have hplain : ∀ d ∈ c :: rest.takeWhile (!isDelimiter ·), isPlain d = true := by
      intro d hd
      rcases List.mem_cons.1 hd with rfl | hd
      · simp_all [isPlain]
      · exact isPlain_of_isDelimiter (by simpa using hrun d hd)
    have h := hr.fault?_plain ih (l := .run (c :: rest.takeWhile (!isDelimiter ·))) hplain rfl
    rwa [Lexeme.chars, List.cons_append, List.takeWhile_append_dropWhile] at h

end Reading

theorem errorOf?_parse (text : String) :
    errorOf? (Template.parse text) = textFault? text.toList := by
  have hstart : Reading.start.Tracks [] := ⟨rfl, rfl, rfl⟩
  have hmap : errorOf? (Template.parse text) = Reading.start.fault? (lexemes text.toList) := by
    rw [Template.parse, Tokens.parse, Reading.fault?]
    cases (lexemes text.toList).foldlM Reading.step Reading.start >>= Reading.finish <;> rfl
  rw [hmap, hstart.fault?_lexemes, restFault?, textFault?]
  simp [Reading.start, stillOpenFrom?]

/-- The error of a text is its first fault, if it has one. -/
theorem Template.parse_eq_error_iff (text : String) :
    (∀ e, parse text = .error e ↔ textFault? text.toList = some e) ∧
      ((∃ t, parse text = .ok t) ↔ textFault? text.toList = none) := by
  rw [← errorOf?_parse]
  cases parse text <;> simp [errorOf?]

example : textFault? ['é', '(', '(', 'a', ')'] = some (.unclosedGroup 2) := by decide

end RouteTemplate
