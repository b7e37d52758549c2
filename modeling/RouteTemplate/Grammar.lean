namespace RouteTemplate

namespace Grammar

/-- Names consist of ASCII letters, ASCII digits and the underscore. -/
def isNameChar (c : Char) : Bool := c.isAlphanum || c == '_'

def isDelimiter (c : Char) : Bool :=
  c == '/' || c == '.' || c == ':' || c == '*' || c == '(' || c == ')'

/-- The two characters that no variable reaches across. -/
def isBoundary (c : Char) : Bool := c == '/' || c == '.'

def maxDepth : Nat := 32

/-- At most this many variables, splats and groups together. -/
def maxChoicePoints : Nat := 256

theorem isDelimiter_iff {c : Char} :
    isDelimiter c = true ↔ c = '/' ∨ c = '.' ∨ c = ':' ∨ c = '*' ∨ c = '(' ∨ c = ')' := by
  simp [isDelimiter, or_assoc]

theorem isBoundary_iff {c : Char} : isBoundary c = true ↔ c = '/' ∨ c = '.' := by
  simp [isBoundary]

theorem isDelimiter_of_isBoundary {c : Char} (h : isBoundary c = true) : isDelimiter c = true := by
  rcases isBoundary_iff.1 h with rfl | rfl <;> decide

theorem isDelimiter_eq_false_of_isNameChar {c : Char} (h : isNameChar c = true) :
    isDelimiter c = false := by
  refine Bool.eq_false_iff.2 fun hd => ?_
  rcases isDelimiter_iff.1 hd with rfl | rfl | rfl | rfl | rfl | rfl <;> exact absurd h (by decide)

end Grammar

/-- The number of bytes the characters take. -/
def byteWidth : List Char → Nat
  | [] => 0
  | c :: cs => c.utf8Size + byteWidth cs

theorem byteWidth_append (cs ds : List Char) :
    byteWidth (cs ++ ds) = byteWidth cs + byteWidth ds := by
  induction cs with
  | nil => simp [byteWidth]
  | cons c cs ih => simp [byteWidth, ih, Nat.add_assoc]

theorem byteWidth_reverse (cs : List Char) : byteWidth cs.reverse = byteWidth cs := by
  induction cs with
  | nil => rfl
  | cons c cs ih =>
    rw [List.reverse_cons, byteWidth_append, ih, byteWidth, byteWidth, byteWidth, Nat.add_zero,
      Nat.add_comm]

theorem byteWidth_eq_zero_iff {cs : List Char} : byteWidth cs = 0 ↔ cs = [] := by
  cases cs with
  | nil => simp [byteWidth]
  | cons c cs =>
    have hpos := c.utf8Size_pos
    simp only [byteWidth, reduceCtorEq, iff_false]
    omega

theorem length_le_byteWidth (cs : List Char) : cs.length ≤ byteWidth cs := by
  induction cs with
  | nil => exact Nat.le_refl 0
  | cons c cs ih =>
    have hpos := c.utf8Size_pos
    rw [byteWidth, List.length_cons]
    omega

theorem byteWidth_toList (s : String) : byteWidth s.toList = s.utf8ByteSize := by
  obtain ⟨cs, rfl⟩ : ∃ cs, s = String.ofList cs := ⟨s.toList, by simp⟩
  rw [String.toList_ofList]
  induction cs with
  | nil => rfl
  | cons c cs ih =>
    rw [← List.singleton_append, String.ofList_append, byteWidth_append, ih,
      String.utf8ByteSize_append]
    simp [byteWidth]

open Grammar

/-- The name behind a colon or a star may be empty. -/
inductive Lexeme where
  | separator
  | extension
  | run (text : List Char)
  | var (name : List Char)
  | splat (name : List Char)
  | groupOpen
  | groupClose
deriving DecidableEq, Repr

namespace Lexeme

def chars : Lexeme → List Char
  | separator => ['/']
  | extension => ['.']
  | run text => text
  | var name => ':' :: name
  | splat name => '*' :: name
  | groupOpen => ['(']
  | groupClose => [')']

def width (l : Lexeme) : Nat := byteWidth l.chars

end Lexeme

/-- Cuts template text into lexemes, each as long as it can be. -/
def lexemes (text : List Char) : List Lexeme :=
  match text with
  | [] => []
  | '/' :: rest => .separator :: lexemes rest
  | '.' :: rest => .extension :: lexemes rest
  | ':' :: rest => .var (rest.takeWhile isNameChar) :: lexemes (rest.dropWhile isNameChar)
  | '*' :: rest => .splat (rest.takeWhile isNameChar) :: lexemes (rest.dropWhile isNameChar)
  | '(' :: rest => .groupOpen :: lexemes rest
  | ')' :: rest => .groupClose :: lexemes rest
  | c :: rest =>
    .run (c :: rest.takeWhile (!isDelimiter ·)) :: lexemes (rest.dropWhile (!isDelimiter ·))
termination_by text.length
decreasing_by
  all_goals simp only [List.length_cons]
  all_goals first | omega | exact Nat.lt_succ_of_le (List.dropWhile_sublist _).length_le

theorem flatMap_chars_lexemes (text : List Char) : (lexemes text).flatMap Lexeme.chars = text := by
  fun_induction lexemes text <;> simp_all [Lexeme.chars]

end RouteTemplate
