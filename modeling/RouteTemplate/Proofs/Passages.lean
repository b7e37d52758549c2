import RouteTemplate.Proofs.Balance
import RouteTemplate.Proofs.Offsets

namespace RouteTemplate

open Grammar

theorem Lexeme.chars_ne_nil {l : Lexeme} (h : l.isWhole = true) : l.chars ≠ [] := by
  cases l with
  | run text =>
    rintro rfl
    cases h
  | separator | extension | var _ | splat _ | groupOpen | groupClose => simp [chars]

/-- The lexeme is cut from the text ahead of the cursor, and leaves the rest. -/
structure Lexeme.IsAhead (l : Lexeme) (c : Cursor) (rest : List Char) : Prop where
  after_eq : c.after = l.chars ++ rest
  lexemes_eq : lexemes c.after = l :: lexemes rest

theorem Lexeme.IsAhead.of_isWhole {l : Lexeme} {c : Cursor} {rest : List Char}
    (hafter : c.after = l.chars ++ rest) (hl : l.isWhole = true)
    (hrest : l.reachesInto rest = false) : l.IsAhead c rest :=
  ⟨hafter, (congrArg lexemes hafter).trans (lexemes_chars_append hl hrest)⟩

namespace Reading

/-- The reading comes from one state to another by some lexemes, and the cursor along with it. -/
structure Passes (c : Cursor) (r : Reading) (ls : List Lexeme) (d : Cursor) (s : Reading) :
    Prop where
  skip : c.skip? (ls.flatMap Lexeme.chars) = some d
  lexemes_eq : lexemes c.after = ls ++ lexemes d.after
  read : ls.foldlM step r = .ok s

namespace Passes

variable {c d e : Cursor} {r s u : Reading} {ls ms : List Lexeme}

theorem refl (c : Cursor) (r : Reading) : Passes c r [] c r := ⟨rfl, rfl, rfl⟩

theorem trans (h : Passes c r ls d s) (h' : Passes d s ms e u) : Passes c r (ls ++ ms) e u := by
  obtain ⟨hafter, hbefore⟩ := Cursor.skip?_eq_some_iff.1 h.skip
  obtain ⟨hafter', hbefore'⟩ := Cursor.skip?_eq_some_iff.1 h'.skip
  refine ⟨Cursor.skip?_eq_some_iff.2 ⟨?_, ?_⟩, ?_, ?_⟩
  · rw [List.flatMap_append, hafter, hafter', List.append_assoc]
  · rw [List.flatMap_append, hbefore', hbefore, List.reverse_append, List.append_assoc]
  · rw [h.lexemes_eq, h'.lexemes_eq, List.append_assoc]
  · rw [List.foldlM_append, h.read]
    exact h'.read

theorem single {l : Lexeme} {rest : List Char} (hl : l.IsAhead c rest) (hstep : r.step l = .ok s) :
    Passes c r [l] ⟨l.chars.reverse ++ c.before, rest⟩ s := by
  refine ⟨Cursor.skip?_eq_some_iff.2 ⟨?_, ?_⟩, hl.lexemes_eq, ?_⟩
  · rw [List.flatMap_singleton, hl.after_eq]
  · rw [List.flatMap_singleton]
  · rw [List.foldlM_cons, hstep]
    rfl

theorem path_eq (h : Passes c r ls d s) : d.path = c.path := Cursor.path_of_skip? h.skip

theorem isWhole (h : Passes c r ls d s) : ∀ l ∈ ls, l.isWhole = true := by
  intro l hl
  apply Lexeme.isWhole_of_areCut (areCut_lexemes c.after) l
  rw [h.lexemes_eq]
  exact List.mem_append_left _ hl

theorem foldlM_lexemes (h : Passes c r ls d s) :
    (lexemes c.after).foldlM step r = (lexemes d.after).foldlM step s := by
  rw [h.lexemes_eq, List.foldlM_append, h.read]
  rfl

theorem length_after_le (h : Passes c r ls d s) : d.after.length ≤ c.after.length := by
  rw [(Cursor.skip?_eq_some_iff.1 h.skip).1, List.length_append]
  exact Nat.le_add_left _ _

theorem length_after_lt {l : Lexeme} (h : Passes c r [l] d s) :
    d.after.length < c.after.length := by
  have hpos : 0 < l.chars.length :=
    List.length_pos_iff.2 (Lexeme.chars_ne_nil (h.isWhole l List.mem_cons_self))
  rw [(Cursor.skip?_eq_some_iff.1 h.skip).1, List.flatMap_singleton, List.length_append]
  omega

theorem isOf {front : List Lexeme} (h : Passes c r ls d s) (hr : r.IsOf front) :
    s.IsOf (front ++ ls) :=
  hr.foldlM h.isWhole h.read

end Passes

theorem ne_parenthesis_of_lexemes {t : Token} {l : Lexeme} (h : t.lexemes = [l]) :
    l ≠ .groupOpen ∧ l ≠ .groupClose := by
  cases t with
  | literal text =>
    obtain rfl := List.singleton_inj.1 h
    exact Lexeme.ofLiteral_ne_parenthesis text
  | var name =>
    obtain rfl := List.singleton_inj.1 h
    simp
  | splat name =>
    obtain rfl := List.singleton_inj.1 h
    simp
  | group inner => simp [Token.lexemes] at h

theorem Tracks.step {r s : Reading} {before : List Char} {l : Lexeme} (hr : r.Tracks before)
    (hle : r.choicePoints ≤ maxChoicePoints) (hl : l.isWhole = true) (h : r.step l = .ok s) :
    s.Tracks (before ++ l.chars) := by
  obtain ⟨hoffset, hcount, hgroups⟩ := hr
  have hwidth : r.offset + l.width = byteWidth (before ++ l.chars) := by
    rw [hoffset, byteWidth_append, Lexeme.width]
  have hmarks : s.choicePoints = marks (before ++ l.chars) := by
    rw [choicePoints_of_step hl h, hcount, marks_append]
  have hnesting := nesting_append before l.chars
  obtain ⟨p, hp, rfl⟩ := exists_place_of_step h
  obtain ⟨t, ht, -, -, -, rfl⟩ | ⟨rfl, -, -, rfl⟩ | ⟨rfl, g, gs, hg, rfl⟩ :=
    place_eq_ok hl hle hp
  · refine ⟨hwidth, hmarks, ?_⟩
    obtain ⟨hopen, hclose⟩ := ne_parenthesis_of_lexemes ht
    have hzero := (isBalanced_iff.1 (Lexeme.isBalanced_chars hl hopen hclose)).2
    dsimp only [advance]
    omega
  · refine ⟨hwidth, hmarks, ?_⟩
    have hone : nesting Lexeme.groupOpen.chars = 1 := rfl
    rw [advance, List.length_cons]
    omega
  · refine ⟨hwidth, hmarks, ?_⟩
    have hminus : nesting Lexeme.groupClose.chars = -1 := rfl
    rw [hg, List.length_cons] at hgroups
    dsimp only [advance]
    omega

theorem Tracks.foldlM {r s : Reading} {front ls : List Lexeme} (hof : r.IsOf front)
    (hr : r.Tracks (front.flatMap Lexeme.chars)) (hls : ∀ l ∈ ls, l.isWhole = true)
    (h : ls.foldlM Reading.step r = .ok s) : s.Tracks ((front ++ ls).flatMap Lexeme.chars) := by
  induction ls generalizing r front with
  | nil =>
    cases h
    rwa [List.append_nil]
  | cons l ls ih =>
    obtain ⟨hl, hls⟩ := List.forall_mem_cons.1 hls
    obtain ⟨p, hstep, hrest⟩ := exists_step_of_foldlM_cons h
    have hp : p.Tracks ((front ++ [l]).flatMap Lexeme.chars) := by
      rw [List.flatMap_append, List.flatMap_singleton]
      exact hr.step hof.choicePoints_le hl hstep
    have hs := ih (hof.step hl hstep) hp hls hrest
    rwa [List.append_assoc, List.singleton_append] at hs

/-- The reading of a text has come to a place by the lexemes in front of it. -/
abbrev ComesTo (text : List Char) (ls : List Lexeme) (c : Cursor) (r : Reading) : Prop :=
  Passes (Cursor.start text) start ls c r

namespace ComesTo

variable {text : List Char} {ls ms : List Lexeme} {c d : Cursor} {r s : Reading}

theorem path_eq (h : ComesTo text ls c r) : c.path = text :=
  (Passes.path_eq h).trans (Cursor.path_start text)

theorem isOf (h : ComesTo text ls c r) : r.IsOf ls := Passes.isOf h isOf_start

theorem flatMap_chars (h : ComesTo text ls c r) : ls.flatMap Lexeme.chars = c.before.reverse := by
  rw [(Cursor.skip?_eq_some_iff.1 h.skip).2]
  simp [Cursor.start]

theorem tracks (h : ComesTo text ls c r) : r.Tracks c.before.reverse := by
  have hstart : start.Tracks [] := ⟨rfl, rfl, rfl⟩
  have htracks := Tracks.foldlM isOf_start hstart (Passes.isWhole h) h.read
  rwa [List.nil_append, flatMap_chars h] at htracks

theorem offset_eq (h : ComesTo text ls c r) : r.offset = c.offset := by
  rw [h.tracks.offset_eq, byteWidth_reverse]
  rfl

theorem length_groups_le (h : ComesTo text ls c r) : r.groups.length ≤ maxDepth :=
  Nat.le_trans (Tokens.length_le_depth_closeAll r.groups r.tokens) h.isOf.depth_closed

/-- Between its parentheses stand the lexemes of the tokens read in a group. -/
theorem lexemes_of_group {inner : List Token} (h : ComesTo text ls c r)
    (hgroup : ComesTo text (ls ++ .groupOpen :: ms) d s) (hgroups : s.groups = r.groups)
    (htokens : s.tokens = .group inner :: r.tokens) :
    ms = Tokens.lexemes inner ++ [.groupClose] := by
  have hwritten := Tokens.lexemes_closeAll_cons h.isOf.lexemes_closed (.group inner)
  have hread := hgroup.isOf.lexemes_closed
  rw [closed, hgroups, htokens, hwritten] at hread
  have hcut := List.append_cancel_right hread
  rw [List.append_cancel_left_eq, Token.lexemes, List.cons.injEq] at hcut
  exact hcut.2.symm

end ComesTo

end Reading

end RouteTemplate
