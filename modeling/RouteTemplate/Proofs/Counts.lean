import RouteTemplate.Proofs.SoundTokens

namespace RouteTemplate

open Grammar

def Lexeme.isCounted : Lexeme → Bool
  | var _ => true
  | splat _ => true
  | groupOpen => true
  | _ => false

theorem isPlain_of_all_isNameChar {name : List Char} (h : name.all isNameChar = true) :
    ∀ c ∈ name, isPlain c = true := by
  intro c hc
  have hname := List.all_eq_true.1 h c hc
  exact isPlain_of_isDelimiter (isDelimiter_eq_false_of_isNameChar hname)

theorem Lexeme.isPlain_of_isWhole_run {text : List Char} (h : (Lexeme.run text).isWhole = true) :
    ∀ c ∈ text, isPlain c = true := by
  intro c hc
  obtain ⟨-, htext⟩ := Bool.and_eq_true_iff.1 h
  exact isPlain_of_isDelimiter (by simpa using List.all_eq_true.1 htext c hc)

theorem Lexeme.marks_chars {l : Lexeme} (h : l.isWhole = true) :
    marks l.chars = if l.isCounted then 1 else 0 := by
  have hmarked : ∀ c name, name.all isNameChar = true → marks (c :: name) = marks [c] := by
    intro c name hname
    rw [← List.singleton_append, marks_append, marks_of_isPlain (isPlain_of_all_isNameChar hname)]
    rfl
  cases l with
  | separator => rfl
  | extension => rfl
  | run text => exact marks_of_isPlain (isPlain_of_isWhole_run h)
  | var name => exact hmarked ':' name h
  | splat name => exact hmarked '*' name h
  | groupOpen => rfl
  | groupClose => rfl

namespace Reading

theorem choicePoints_of_place {r p : Reading} {l : Lexeme} (h : r.place l = .ok p) :
    p.choicePoints = r.choicePoints + if l.isCounted then 1 else 0 := by
  cases l with
  | separator =>
    cases h
    rfl
  | extension =>
    cases h
    rfl
  | run text =>
    cases h
    rfl
  | var name =>
    cases name with
    | nil => cases h
    | cons c cs =>
      obtain ⟨-, rfl⟩ := map_count_eq_ok_iff.1 h
      rfl
  | splat name =>
    cases name with
    | nil =>
      obtain ⟨-, rfl⟩ := map_count_eq_ok_iff.1 h
      rfl
    | cons c cs =>
      obtain ⟨-, rfl⟩ := map_count_eq_ok_iff.1 h
      rfl
  | groupOpen =>
    rw [place] at h
    split at h
    · obtain ⟨-, rfl⟩ := map_count_eq_ok_iff.1 h
      rfl
    · cases h
  | groupClose =>
    rw [place] at h
    split at h
    · cases h
    · cases h
      rfl

/-- A step counts the marks of its lexeme. -/
theorem choicePoints_of_step {r s : Reading} {l : Lexeme} (hl : l.isWhole = true)
    (h : r.step l = .ok s) : s.choicePoints = r.choicePoints + marks l.chars := by
  obtain ⟨p, hp, rfl⟩ := exists_place_of_step h
  rw [Lexeme.marks_chars hl, ← choicePoints_of_place hp]
  rfl

theorem choicePoints_of_foldlM {r s : Reading} {ls : List Lexeme} (hls : ∀ l ∈ ls, l.isWhole = true)
    (h : ls.foldlM Reading.step r = .ok s) :
    s.choicePoints = r.choicePoints + marks (ls.flatMap Lexeme.chars) := by
  induction ls generalizing r with
  | nil =>
    cases h
    rfl
  | cons l ls ih =>
    obtain ⟨hl, hls⟩ := List.forall_mem_cons.1 hls
    obtain ⟨p, hstep, hrest⟩ := exists_step_of_foldlM_cons h
    rw [ih hls hrest, choicePoints_of_step hl hstep, List.flatMap_cons, marks_append,
      Nat.add_assoc]

end Reading

theorem markedNames_cons (c : Char) (text : List Char) :
    markedNames (c :: text) = (firstName? (c :: text)).toList ++ markedNames text := by
  rw [markedNames, List.tails_cons, List.filterMap_cons]
  cases firstName? (c :: text) <;> rfl

theorem markedNames_append {front : List Char} (hfront : ∀ c ∈ front, isPlain c = true)
    (text : List Char) :
    markedNames (front ++ text) = markedNames text := by
  induction front with
  | nil => rfl
  | cons c front ih =>
    obtain ⟨hc, hfront⟩ := List.forall_mem_cons.1 hfront
    have hnone : firstName? (c :: (front ++ text)) = none := by
      simp_all [firstName?, isPlain]
    rw [List.cons_append, markedNames_cons, hnone, ih hfront]
    rfl

def Lexeme.name? : Lexeme → Option String
  | var name => nameOf? name
  | splat name => nameOf? name
  | _ => none

theorem markedNames_mark {c : Char} (hc : c = ':' ∨ c = '*') {name rest : List Char}
    (hname : name.all isNameChar = true) (hrest : rest.head?.any isNameChar = false) :
    markedNames (c :: (name ++ rest)) = (nameOf? name).toList ++ markedNames rest := by
  have hfirst : firstName? (c :: (name ++ rest)) = nameOf? name := by
    rw [firstName?, (takeWhile_append_stop hname hrest).1]
    rcases hc with rfl | rfl <;> rfl
  rw [markedNames_cons, hfirst, markedNames_append (isPlain_of_all_isNameChar hname)]

/-- The names in a text are those of the lexemes that it is cut into. -/
theorem markedNames_flatMap_chars {ls : List Lexeme} (h : Lexeme.areCut ls = true) :
    markedNames (ls.flatMap Lexeme.chars) = ls.filterMap Lexeme.name? := by
  induction ls with
  | nil => rfl
  | cons l ls ih =>
    simp only [Lexeme.areCut, Bool.and_eq_true, Bool.not_eq_true'] at h
    obtain ⟨⟨hl, hrest⟩, hls⟩ := h
    have hcons :
        (l :: ls).filterMap Lexeme.name? = l.name?.toList ++ ls.filterMap Lexeme.name? := by
      rw [List.filterMap_cons]
      cases l.name? <;> rfl
    rw [hcons, ← ih hls, List.flatMap_cons]
    cases l with
    | separator => exact markedNames_cons '/' _
    | extension => exact markedNames_cons '.' _
    | run text => exact markedNames_append (Lexeme.isPlain_of_isWhole_run hl) _
    | var name => exact markedNames_mark (.inl rfl) hl hrest
    | splat name => exact markedNames_mark (.inr rfl) hl hrest
    | groupOpen => exact markedNames_cons '(' _
    | groupClose => exact markedNames_cons ')' _

namespace Tokens

theorem nameOf?_toList {name : String} (h : (!name.toList.isEmpty) = true) :
    nameOf? name.toList = some name := by
  rw [nameOf?, if_neg (by simpa using h), String.ofList_toList]

theorem name?_ofLiteral (text : String) : (Lexeme.ofLiteral text).name? = none := by
  rw [Lexeme.ofLiteral]
  split
  · rfl
  · split <;> rfl

theorem filterMap_name?_lexemes {ts : List Token} (h : isNamed ts = true) :
    (lexemes ts).filterMap Lexeme.name? = names ts := by
  induction ts using Tokens.induction with
  | nil => rfl
  | literal text ts ih =>
    rw [lexemes, List.filterMap_append, ih h, names, Token.lexemes]
    simp [name?_ofLiteral, Token.names, Token.name?]
  | var name ts ih =>
    obtain ⟨hname, hts⟩ := Bool.and_eq_true_iff.1 h
    rw [lexemes, List.filterMap_append, ih hts, names, Token.lexemes]
    cases name with
    | none => cases hname
    | some name => simp [Lexeme.name?, nameOf?_toList hname, Token.names, Token.name?]
  | splat name ts ih =>
    obtain ⟨hname, hts⟩ := Bool.and_eq_true_iff.1 h
    rw [lexemes, List.filterMap_append, ih hts, names, Token.lexemes]
    cases name with
    | none => rfl
    | some name => simp [Lexeme.name?, nameOf?_toList hname, Token.names, Token.name?]
  | group inner ts hinner ih =>
    obtain ⟨hin, hts⟩ := Bool.and_eq_true_iff.1 h
    rw [lexemes, List.filterMap_append, ih hts, names, Token.lexemes]
    simp [List.filterMap_cons, Lexeme.name?, List.filterMap_append, hinner hin, Token.names]

/-- The names of writable tokens are those in their text. -/
theorem names_eq_markedNames {ts : List Token} (h : isWritable ts = true) :
    names ts = markedNames (spelling ts) := by
  have hnamed := isNamed_of_isWritable h
  have hcut : Lexeme.areCut (lexemes ts) = true := (areCut_lexemes hnamed).trans h
  rw [← flatMap_chars_lexemes, markedNames_flatMap_chars hcut, filterMap_name?_lexemes hnamed]

end Tokens

theorem Tokens.exists_reading_of_parse {text : List Char} {ts : List Token}
    (h : parse text = .ok ts) :
    ∃ r, (RouteTemplate.lexemes text).foldlM Reading.step Reading.start = .ok r ∧
      r.finish = .ok ts := by
  rw [parse] at h
  cases hr : (RouteTemplate.lexemes text).foldlM Reading.step Reading.start with
  | error e =>
    rw [hr] at h
    cases h
  | ok r =>
    rw [hr] at h
    exact ⟨r, rfl, h⟩

/-- What is counted while a part of the text is read is what the tokens read hold, and the marks of
that part. -/
theorem Reading.choicePoints_of_prefix {text : List Char} {front back : List Lexeme} {r : Reading}
    (hsplit : lexemes text = front ++ back) (hr : front.foldlM Reading.step Reading.start = .ok r) :
    Tokens.choicePoints r.closed = r.choicePoints ∧
      r.choicePoints = marks (front.flatMap Lexeme.chars) := by
  have hwhole : ∀ l ∈ front, l.isWhole = true := by
    intro l hl
    apply Lexeme.isWhole_of_areCut (areCut_lexemes text) l
    rw [hsplit]
    exact List.mem_append_left _ hl
  refine ⟨(isOf_start.foldlM hwhole hr).choicePoints_closed, ?_⟩
  rw [choicePoints_of_foldlM hwhole hr]
  exact Nat.zero_add _

namespace Template

/-- The choice points counted are those of the template and the marks of its text, here and on the
way. -/
theorem counts_of_parse {text : String} {t : Template} (h : parse text = .ok t) :
    (∃ r, (lexemes text.toList).foldlM Reading.step Reading.start = .ok r ∧
      r.finish = .ok t.tokens ∧ r.choicePoints = t.choicePoints) ∧
    t.choicePoints = marks text.toList ∧
    t.names = markedNames text.toList ∧
    (∀ front back r, lexemes text.toList = front ++ back →
      front.foldlM Reading.step Reading.start = .ok r →
      Tokens.choicePoints r.closed = r.choicePoints ∧
        r.choicePoints = marks (front.flatMap Lexeme.chars)) := by
  obtain ⟨htext, hwritable, -, -⟩ := parse_eq_ok_iff_written.1 h
  have hmarks : marks text.toList = t.choicePoints := Tokens.marks_of_written htext hwritable
  refine ⟨?_, hmarks.symm, ?_, fun front back r => Reading.choicePoints_of_prefix⟩
  · obtain ⟨r, hr, hfinish⟩ := Tokens.exists_reading_of_parse (parse_eq_ok_iff_tokens.1 h)
    refine ⟨r, hr, hfinish, ?_⟩
    have hcount := (Reading.choicePoints_of_prefix (List.append_nil _).symm hr).2
    rw [hcount, flatMap_chars_lexemes, hmarks]
  · rw [names, Tokens.names_eq_markedNames hwritable, htext]

theorem counts_of_parse_nested :
    let t : Template := ⟨[.literal "/", .literal "é", .var "b", .group [.literal "-", .splat none,
      .group [.literal ".", .var "b"]], .splat "c_1", .literal "é"]⟩
    parse "/é:b(-*(.:b))*c_1é" = .ok t ∧ t.choicePoints = 6 ∧
      marks "/é:b(-*(.:b))*c_1é".toList = 6 ∧ t.names = ["b", "b", "c_1"] ∧
      markedNames "/é:b(-*(.:b))*c_1é".toList = ["b", "b", "c_1"] := by
  intro t
  have h : parse "/é:b(-*(.:b))*c_1é" = .ok t := parse_eq_ok_iff.2 ⟨rfl, rfl⟩
  obtain ⟨-, hmarks, hnames, -⟩ := counts_of_parse h
  exact ⟨h, rfl, hmarks.symm, rfl, hnames.symm⟩

end Template

end RouteTemplate
