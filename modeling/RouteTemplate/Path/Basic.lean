import RouteTemplate.Grammar

namespace RouteTemplate

open Grammar

/-- A place in a path: the characters before it, last first, and the characters after it. -/
structure Cursor where
  before : List Char
  after : List Char
deriving DecidableEq, Repr

namespace Cursor

def start (path : List Char) : Cursor := ⟨[], path⟩

def path (c : Cursor) : List Char := c.before.reverse ++ c.after

def offset (c : Cursor) : Nat := byteWidth c.before

def atEnd (c : Cursor) : Bool := c.after.isEmpty

def advance (n : Nat) (c : Cursor) : Cursor :=
  ⟨(c.after.take n).reverse ++ c.before, c.after.drop n⟩

/-- Moves over the text if the path goes on with it. -/
def skip? : List Char → Cursor → Option Cursor
  | [], c => some c
  | x :: text, ⟨before, y :: after⟩ => if x = y then skip? text ⟨y :: before, after⟩ else none
  | _ :: _, ⟨_, []⟩ => none

def giveBack? : Cursor → Option Cursor
  | ⟨'/' :: before, after⟩ => some ⟨before, '/' :: after⟩
  | _ => none

/-- The characters up to the next slash or dot. -/
def run (c : Cursor) : List Char := c.after.takeWhile (!isBoundary ·)

def pastRun (c : Cursor) : Cursor := c.advance c.run.length

/-- The places behind `before` up to which the run reaches, nearest first. -/
def stopsFrom : List Char → List Char → List Cursor
  | _, [] => []
  | before, x :: after =>
    if isBoundary x then [] else ⟨x :: before, after⟩ :: stopsFrom (x :: before) after

def stops (c : Cursor) : List Cursor := stopsFrom c.before c.after

def pastSeparator (c : Cursor) : Cursor := (c.skip? ['/']).getD c

@[simp] theorem path_start (path : List Char) : (start path).path = path := by
  simp [start, Cursor.path]

@[simp] theorem path_advance (n : Nat) (c : Cursor) : (c.advance n).path = c.path := by
  simp [advance, Cursor.path]

theorem skip?_eq_some_iff {text : List Char} {c d : Cursor} :
    c.skip? text = some d ↔ c.after = text ++ d.after ∧ d.before = text.reverse ++ c.before := by
  induction text generalizing c with
  | nil =>
    obtain ⟨before, after⟩ := c
    obtain ⟨before', after'⟩ := d
    simp [skip?, and_comm, eq_comm]
  | cons x text ih =>
    obtain ⟨before, _ | ⟨y, after⟩⟩ := c
    · simp [skip?]
    · by_cases h : x = y
      · simp [skip?, h, ih]
      · simp [skip?, h, Ne.symm h]

theorem path_of_skip? {text : List Char} {c d : Cursor} (h : c.skip? text = some d) :
    d.path = c.path := by
  obtain ⟨hafter, hbefore⟩ := skip?_eq_some_iff.1 h
  simp [Cursor.path, hafter, hbefore]

theorem giveBack?_eq_some_iff {c d : Cursor} :
    c.giveBack? = some d ↔ c.before = '/' :: d.before ∧ d.after = '/' :: c.after := by
  obtain ⟨_ | ⟨x, before⟩, after⟩ := c
  · simp [giveBack?]
  · obtain ⟨before', after'⟩ := d
    by_cases h : x = '/' <;> simp [giveBack?, h, eq_comm]

end Cursor

structure Segment where
  text : List Char
  stop : Cursor
deriving DecidableEq, Repr

/-- A text that can stand between the boundaries of a path. -/
def isSegment (text : String) : Bool := !text.toList.isEmpty && text.toList.all (!isBoundary ·)

namespace Cursor

theorem length_after_pastSeparator_le (c : Cursor) :
    c.pastSeparator.after.length ≤ c.after.length := by
  rcases c with ⟨before, _ | ⟨x, after⟩⟩
  · simp [pastSeparator, skip?]
  · simp only [pastSeparator, skip?]
    split <;> simp

theorem length_after_pastRun_lt {c : Cursor} (h : c.run ≠ []) :
    c.pastRun.after.length < c.after.length := by
  have hle : c.run.length ≤ c.after.length := (List.takeWhile_sublist _).length_le
  have hpos : 0 < c.run.length := List.length_pos_iff.2 h
  simp only [pastRun, advance, List.length_drop]
  omega

/-- The runs ahead that are parted by single slashes. One slash may come before the first. -/
def segments (c : Cursor) : List Segment :=
  let first := c.pastSeparator
  if _ : first.run = [] then []
  else ⟨first.run, first.pastRun⟩ :: first.pastRun.segments
termination_by c.after.length
decreasing_by
  exact Nat.lt_of_lt_of_le (length_after_pastRun_lt ‹_›) (length_after_pastSeparator_le c)

end Cursor

/-- Whether two neighbouring bytes of the path are both slashes. -/
def hasRepeatedSeparators (path : String) : Bool :=
  let bytes := path.toUTF8.data.toList
  (bytes.zip bytes.tail).contains (0x2F, 0x2F)

/-- Leaves out each slash behind a slash. The flag says whether the text stands behind one. -/
def squeeze : Bool → List Char → List Char
  | _, [] => []
  | true, '/' :: rest => squeeze true rest
  | _, c :: rest => c :: squeeze (c == '/') rest

def collapse? (path : String) : Option String :=
  if hasRepeatedSeparators path then some (String.ofList (squeeze false path.toList)) else none

/-- The path with each row of slashes collapsed to one. -/
def collapse (path : String) : String := (collapse? path).getD path

/-- To ask beforehand whether there is anything to collapse only saves work. -/
theorem ite_hasRepeatedSeparators (path : String) :
    (if hasRepeatedSeparators path then collapse path else path) = collapse path := by
  rw [collapse, collapse?]
  split <;> rfl

end RouteTemplate
