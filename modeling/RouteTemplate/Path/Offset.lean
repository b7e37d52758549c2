import RouteTemplate.Path.Basic

namespace RouteTemplate

open Grammar

/-- The place at a byte offset, if a character begins there or the path ends there. -/
def Cursor.at? (path : String) (offset : Nat) : Option Cursor :=
  if h : String.Pos.Raw.IsValid path ⟨offset⟩ then
    let place := path.pos ⟨offset⟩ h
    some ⟨(path.sliceTo place).copy.toList.reverse, (path.sliceFrom place).copy.toList⟩
  else none

def textFrom? (path : String) (offset : Nat) : Option (List Char) :=
  (Cursor.at? path offset).map Cursor.after

def textTo? (path : String) (offset : Nat) : Option (List Char) :=
  (Cursor.at? path offset).map fun c => c.before.reverse

def textBetween? (path : String) (start stop : Nat) : Option (List Char) := do
  let rest ← textFrom? path start
  let behind ← textFrom? path stop
  if start ≤ stop then some (rest.take (rest.length - behind.length)) else none

def minus? (n m : Nat) : Option Nat := if m ≤ n then some (n - m) else none

def runWidth (text : List Char) : Nat := byteWidth (text.takeWhile (!isBoundary ·))

/-- Whether a slash stands at an offset, and a segment behind it. -/
def slashAhead? (path : String) (offset : Nat) : Option Bool := do
  match ← textFrom? path offset with
  | '/' :: after => some (0 < runWidth after)
  | _ => some false

def segmentsWithin? (path : String) : Nat → Nat → Option (List (List Char × Nat))
  | 0, _ => none
  | rounds + 1, offset => do
    let width := runWidth (← textFrom? path offset)
    if width = 0 then
      return []
    let text ← textBetween? path offset (offset + width)
    if ← slashAhead? path (offset + width) then
      return (text, offset + width) :: (← segmentsWithin? path rounds (offset + width + 1))
    return [(text, offset + width)]

/-- The segments that a splat can take at an offset. One slash may come before the first. -/
def segmentsAt? (path : String) (rounds offset : Nat) : Option (List (List Char × Nat)) := do
  segmentsWithin? path rounds (if ← slashAhead? path offset then offset + 1 else offset)

/-- The texts up to an offset, then one character less each time, as long as there is one. -/
def shrinkingWithin? (path : String) (offset : Nat) : Nat → Nat → Option (List (List Char × Nat))
  | 0, _ => none
  | rounds + 1, stop =>
    if offset < stop then do
      let text ← textBetween? path offset stop
      return (text, stop) ::
        (← shrinkingWithin? path offset rounds (offset + byteWidth text.dropLast))
    else some []

def runsAt? (path : String) (rounds offset : Nat) : Option (List (List Char × Nat)) := do
  shrinkingWithin? path offset rounds (offset + runWidth (← textFrom? path offset))

def giveBackAt? (path : String) (offset : Nat) : Option (Option Nat) :=
  if offset = 0 then some none
  else do
    if (← textTo? path offset).getLast? = some '/' then
      return some (← minus? offset 1)
    return none

namespace Cursor

theorem offset_eq_utf8ByteSize (c : Cursor) :
    c.offset = (String.ofList c.before.reverse).utf8ByteSize := by
  rw [← byteWidth_toList, String.toList_ofList, byteWidth_reverse, offset]

theorem at?_eq_some_iff {path : String} {offset : Nat} {c : Cursor} :
    at? path offset = some c ↔ c.path = path.toList ∧ c.offset = offset := by
  rw [at?]
  constructor
  · intro h
    split at h
    · rename_i hvalid
      obtain rfl := Option.some.inj h
      have hsplits := (path.pos ⟨offset⟩ hvalid).splits
      constructor
      · rw [Cursor.path, List.reverse_reverse, ← String.toList_append, ← hsplits.eq_append]
      · have hoffset := congrArg String.Pos.Raw.byteIdx hsplits.offset_eq_rawEndPos
        rw [offset_eq_utf8ByteSize, List.reverse_reverse, String.ofList_toList]
        exact hoffset.symm
    · cases h
  · rintro ⟨hpath, hoffset⟩
    have happend : path = String.ofList c.before.reverse ++ String.ofList c.after := by
      rw [← String.ofList_append, ← String.ofList_toList (s := path), ← hpath, Cursor.path]
    have hend : (⟨offset⟩ : String.Pos.Raw) = (String.ofList c.before.reverse).rawEndPos := by
      rw [String.Pos.Raw.ext_iff, String.byteIdx_rawEndPos, ← offset_eq_utf8ByteSize, hoffset]
    have hvalid : String.Pos.Raw.IsValid path ⟨offset⟩ :=
      String.Pos.Raw.isValid_iff_exists_append.2 ⟨_, _, happend, hend⟩
    have hsplits := (path.pos ⟨offset⟩ hvalid).splits
    obtain ⟨hto, hfrom⟩ := hsplits.eq ⟨happend, hend⟩
    simp [hvalid, hto, hfrom]

end Cursor

end RouteTemplate
