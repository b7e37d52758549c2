import Mathlib.Data.List.Basic
import RouteTemplate.Path.Offset
import RouteTemplate.Proofs.Ways

namespace RouteTemplate

open Grammar

variable {path : String} {c d : Cursor} {text : List Char}

namespace Cursor

theorem isSome_at?_iff {offset : Nat} :
    (at? path offset).isSome = true ↔ String.Pos.Raw.IsValid path ⟨offset⟩ := by
  rw [at?]
  split <;> simp_all

theorem isValid_offset (h : c.path = path.toList) : String.Pos.Raw.IsValid path ⟨c.offset⟩ := by
  rw [← isSome_at?_iff, at?_eq_some_iff.2 ⟨h, rfl⟩]
  rfl

theorem offset_of_skip? (h : c.skip? text = some d) : d.offset = c.offset + byteWidth text := by
  rw [offset, (skip?_eq_some_iff.1 h).2, byteWidth_append, byteWidth_reverse, Nat.add_comm]
  rfl

theorem take_of_skip? (h : c.skip? text = some d) :
    c.after.take (c.after.length - d.after.length) = text := by
  rw [(skip?_eq_some_iff.1 h).1, List.length_append, Nat.add_sub_cancel, List.take_left]

/-- Of two places in a path, the later one is reached by moving over the text between them. -/
theorem exists_skip?_of_offset_le (hpath : c.path = d.path) (hle : c.offset ≤ d.offset) :
    ∃ text, c.skip? text = some d := by
  have hc : c.before.reverse <+: c.path := List.prefix_append _ _
  have hd : d.before.reverse <+: c.path := hpath ▸ List.prefix_append _ _
  rcases List.prefix_or_prefix_of_prefix hc hd with ⟨text, htext⟩ | ⟨text, htext⟩
  · refine ⟨text, skip?_eq_some_iff.2 ⟨?_, ?_⟩⟩
    · rw [Cursor.path, Cursor.path, ← htext, List.append_assoc] at hpath
      exact List.append_cancel_left hpath
    · rw [← List.reverse_reverse d.before, ← htext, List.reverse_append, List.reverse_reverse]
  · -- The text is empty, since it has no width.
    have hwidth := congrArg byteWidth htext
    rw [byteWidth_append, byteWidth_reverse, byteWidth_reverse] at hwidth
    have hzero : byteWidth text = 0 := by
      rw [offset, offset] at hle
      omega
    obtain rfl := byteWidth_eq_zero_iff.1 hzero
    rw [List.append_nil, List.reverse_inj] at htext
    rw [Cursor.path, Cursor.path, htext] at hpath
    exact ⟨[], skip?_eq_some_iff.2 ⟨List.append_cancel_left hpath, htext⟩⟩

end Cursor

theorem textFrom?_offset (h : c.path = path.toList) : textFrom? path c.offset = some c.after := by
  rw [textFrom?, Cursor.at?_eq_some_iff.2 ⟨h, rfl⟩]
  rfl

theorem textTo?_offset (h : c.path = path.toList) :
    textTo? path c.offset = some c.before.reverse := by
  rw [textTo?, Cursor.at?_eq_some_iff.2 ⟨h, rfl⟩]
  rfl

/-- Between two places stands the text that a cursor skips from one to the other. -/
theorem textBetween?_of_skip? (h : c.path = path.toList) (hskip : c.skip? text = some d) :
    textBetween? path c.offset d.offset = some text := by
  have hd : d.path = path.toList := (Cursor.path_of_skip? hskip).trans h
  have hle : c.offset ≤ d.offset := by
    rw [Cursor.offset_of_skip? hskip]
    exact Nat.le_add_right _ _
  simp [textBetween?, textFrom?_offset h, textFrom?_offset hd, hle, Cursor.take_of_skip? hskip]

theorem textBetween?_eq_some_iff {start stop : Nat} :
    textBetween? path start stop = some text ↔
      ∃ c d, Cursor.at? path start = some c ∧ c.skip? text = some d ∧ d.offset = stop := by
  constructor
  · intro h
    simp only [textBetween?, textFrom?, Option.bind_eq_bind, Option.bind_eq_some_iff,
      Option.map_eq_some_iff] at h
    obtain ⟨-, ⟨c, hc, rfl⟩, -, ⟨d, hd, rfl⟩, h⟩ := h
    obtain ⟨hcpath, rfl⟩ := Cursor.at?_eq_some_iff.1 hc
    obtain ⟨hdpath, rfl⟩ := Cursor.at?_eq_some_iff.1 hd
    split at h
    · rename_i hle
      obtain ⟨between, hskip⟩ := Cursor.exists_skip?_of_offset_le (hcpath.trans hdpath.symm) hle
      obtain rfl : between = text := (Cursor.take_of_skip? hskip).symm.trans (Option.some.inj h)
      exact ⟨c, d, hc, hskip, rfl⟩
    · cases h
  · rintro ⟨c, d, hc, hskip, rfl⟩
    obtain ⟨hpath, rfl⟩ := Cursor.at?_eq_some_iff.1 hc
    exact textBetween?_of_skip? hpath hskip

theorem offset_of_textBetween? {start stop : Nat} (h : textBetween? path start stop = some text) :
    stop = start + byteWidth text := by
  obtain ⟨c, d, hc, hskip, rfl⟩ := textBetween?_eq_some_iff.1 h
  rw [Cursor.offset_of_skip? hskip, (Cursor.at?_eq_some_iff.1 hc).2]

end RouteTemplate
