import RouteTemplate.Grammar

namespace RouteTemplate

open Grammar

namespace Lexeme

/-- Whether the lexeme, written alone, is read as itself. -/
def isWhole : Lexeme → Bool
  | run text => !text.isEmpty && text.all (!isDelimiter ·)
  | var name => name.all isNameChar
  | splat name => name.all isNameChar
  | _ => true

/-- Whether the lexeme would go on with the first character of a text written behind it. -/
def reachesInto : Lexeme → List Char → Bool
  | run _, rest => rest.head?.any (!isDelimiter ·)
  | var _, rest => rest.head?.any isNameChar
  | splat _, rest => rest.head?.any isNameChar
  | _, _ => false

def areCut : List Lexeme → Bool
  | [] => true
  | l :: ls => l.isWhole && !l.reachesInto (ls.flatMap chars) && areCut ls

end Lexeme

theorem Lexeme.isWhole_of_areCut {ls : List Lexeme} (h : Lexeme.areCut ls = true) :
    ∀ l ∈ ls, l.isWhole = true := by
  induction ls with
  | nil => simp
  | cons l ls ih =>
    simp only [Lexeme.areCut, Bool.and_eq_true] at h
    intro m hm
    rcases List.mem_cons.1 hm with rfl | hm
    · exact h.1.1
    · exact ih h.2 m hm

theorem takeWhile_append_stop {p : Char → Bool} {front rest : List Char}
    (hfront : front.all p = true) (hrest : rest.head?.any p = false) :
    (front ++ rest).takeWhile p = front ∧ (front ++ rest).dropWhile p = rest := by
  have hf : ∀ c ∈ front, p c = true := List.all_eq_true.1 hfront
  rw [List.takeWhile_append_of_pos hf, List.dropWhile_append_of_pos hf]
  cases rest with
  | nil => simp
  | cons c rest =>
    have hc : p c = false := hrest
    simp [hc]

theorem head?_dropWhile_any (p : Char → Bool) (text : List Char) :
    (text.dropWhile p).head?.any p = false := by
  have h := List.head?_dropWhile_not p text
  cases hd : (text.dropWhile p).head? with
  | none => rfl
  | some c => simpa [hd] using h

theorem lexemes_chars_append {l : Lexeme} {rest : List Char} (hl : l.isWhole = true)
    (hrest : l.reachesInto rest = false) : lexemes (l.chars ++ rest) = l :: lexemes rest := by
  cases l with
  | separator => simp [Lexeme.chars, lexemes]
  | extension => simp [Lexeme.chars, lexemes]
  | groupOpen => simp [Lexeme.chars, lexemes]
  | groupClose => simp [Lexeme.chars, lexemes]
  | var name =>
    obtain ⟨htake, hdrop⟩ := takeWhile_append_stop hl hrest
    simp [Lexeme.chars, lexemes, htake, hdrop]
  | splat name =>
    obtain ⟨htake, hdrop⟩ := takeWhile_append_stop hl hrest
    simp [Lexeme.chars, lexemes, htake, hdrop]
  | run text =>
    cases text with
    | nil => simp [Lexeme.isWhole] at hl
    | cons c text =>
      obtain ⟨hc, htext⟩ : isDelimiter c = false ∧ text.all (!isDelimiter ·) = true := by
        simpa [Lexeme.isWhole] using hl
      obtain ⟨htake, hdrop⟩ := takeWhile_append_stop htext hrest
      have hne : ∀ d, isDelimiter d = true → c ≠ d := by
        rintro d hd rfl
        simp [hd] at hc
      -- Text is cut into a run only where it begins with none of the marks.
      rw [Lexeme.chars, List.cons_append, lexemes]
      · rw [htake, hdrop]
      all_goals exact hne _ (by decide)

theorem areCut_lexemes (text : List Char) : Lexeme.areCut (lexemes text) = true := by
  fun_induction lexemes text with
  | case1 => rfl
  | case2 rest ih | case3 rest ih | case6 rest ih | case7 rest ih =>
    simpa [Lexeme.areCut, Lexeme.isWhole, Lexeme.reachesInto] using ih
  | case4 rest ih | case5 rest ih =>
    have hstop := head?_dropWhile_any isNameChar rest
    simp only [Lexeme.areCut, Lexeme.isWhole, flatMap_chars_lexemes, ih, List.all_takeWhile]
    simpa [Lexeme.reachesInto] using hstop
  | case8 c rest _ _ _ _ _ _ ih =>
    have hc : isDelimiter c = false := by simp_all [isDelimiter]
    have hstop := head?_dropWhile_any (!isDelimiter ·) rest
    simp only [Lexeme.areCut, Lexeme.isWhole, flatMap_chars_lexemes, ih, List.all_cons,
      List.all_takeWhile, hc]
    simpa [Lexeme.reachesInto] using hstop

theorem lexemes_eq_iff {text : List Char} {ls : List Lexeme} :
    lexemes text = ls ↔ ls.flatMap Lexeme.chars = text ∧ Lexeme.areCut ls = true := by
  constructor
  · rintro rfl
    exact ⟨flatMap_chars_lexemes text, areCut_lexemes text⟩
  · rintro ⟨rfl, hcut⟩
    induction ls with
    | nil => rw [List.flatMap_nil, lexemes]
    | cons l ls ih =>
      simp only [Lexeme.areCut, Bool.and_eq_true, Bool.not_eq_true'] at hcut
      obtain ⟨⟨hl, hrest⟩, hls⟩ := hcut
      rw [List.flatMap_cons, lexemes_chars_append hl hrest, ih hls]

end RouteTemplate
