import RouteTemplate.Token.Basic

namespace RouteTemplate

open Grammar

/-- Not empty, and of name characters only. -/
def isName (name : String) : Bool := !name.toList.isEmpty && name.toList.all isNameChar

/-- Literal text that is read as one token. -/
def isRun (text : String) : Bool := !text.toList.isEmpty && text.toList.all (!isDelimiter ·)

theorem isDelimiter_of_isRun {text : String} (h : isRun text = true) :
    ∀ c ∈ text.toList, isDelimiter c = false := by
  intro c hc
  simpa using List.all_eq_true.1 (Bool.and_eq_true_iff.1 h).2 c hc

theorem toList_ne_nil_of_isRun {text : String} (h : isRun text = true) : text.toList ≠ [] := by
  intro hnil
  simp [isRun, hnil] at h

theorem isJoiner_eq_false_of_isRun {text : String} (h : isRun text = true) :
    (Token.literal text).isJoiner = false := by
  refine Bool.eq_false_iff.2 fun hjoiner => ?_
  have htext : text = "/" ∨ text = "." := by
    simpa [Token.isJoiner, Token.isSeparator, Token.isExtension] using hjoiner
  rcases htext with rfl | rfl <;> exact absurd h (by decide)

namespace Token

/-- Literal text runs on in literal text, and a name in text that begins with a name character. -/
def runsInto : Token → Token → Bool
  | .literal x, .literal y => isRun x && isRun y
  | .var _, .literal y => isRun y && y.toList.head?.any isNameChar
  | .splat _, .literal y => isRun y && y.toList.head?.any isNameChar
  | _, _ => false

end Token

mutual

/-- Whether a token and each token inside it can be written, whatever stands beside it. -/
def Token.isSound : Token → Bool
  | .literal text => text == "/" || text == "." || isRun text
  | .var name => name.any isName
  | .splat name => name.all isName
  | .group inner => Tokens.areSound inner

def Tokens.areSound : List Token → Bool
  | [] => true
  | t :: ts => t.isSound && Tokens.areSound ts

end

mutual

def Token.standsApart : Token → Bool
  | .group inner => Tokens.standApart inner
  | _ => true

/-- Whether no token runs into the one behind it, here and inside groups. -/
def Tokens.standApart : List Token → Bool
  | [] => true
  | t :: ts => t.standsApart && !ts.head?.any t.runsInto && Tokens.standApart ts

end

def Token.isWritable (t : Token) : Bool := t.isSound && t.standsApart

/-- Whether the tokens can be written one behind another. -/
def Tokens.isWritable (ts : List Token) : Bool := Tokens.areSound ts && Tokens.standApart ts

namespace Token

@[simp] theorem isWritable_literal (text : String) :
    (literal text).isWritable = (text == "/" || text == "." || isRun text) :=
  Bool.and_true _

@[simp] theorem isWritable_var (name : Option String) :
    (var name).isWritable = name.any isName :=
  Bool.and_true _

@[simp] theorem isWritable_splat (name : Option String) :
    (splat name).isWritable = name.all isName :=
  Bool.and_true _

@[simp] theorem isWritable_group (inner : List Token) :
    (group inner).isWritable = Tokens.isWritable inner := rfl

theorem isSound_literal_iff {text : String} :
    (literal text).isSound = true ↔ text = "/" ∨ text = "." ∨ isRun text = true := by
  simp [isSound, or_assoc]

theorem isWritable_literal_iff {text : String} :
    (literal text).isWritable = true ↔ text = "/" ∨ text = "." ∨ isRun text = true := by
  simp [or_assoc]

end Token

@[simp] theorem Tokens.isWritable_nil : isWritable [] = true := rfl

@[simp] theorem Tokens.isWritable_cons (t : Token) (ts : List Token) :
    isWritable (t :: ts) = (t.isWritable && !ts.head?.any t.runsInto && isWritable ts) := by
  rw [isWritable, areSound, standApart, Token.isWritable, isWritable]
  ac_rfl

theorem Tokens.isWritable_of_mem {ts : List Token} (h : isWritable ts = true) :
    ∀ t ∈ ts, t.isWritable = true := by
  induction ts with
  | nil => simp
  | cons t ts ih =>
    simp only [isWritable_cons, Bool.and_eq_true] at h
    exact List.forall_mem_cons.2 ⟨h.1.1, ih h.2⟩

theorem Tokens.areSound_of_isWritable {ts : List Token} (h : isWritable ts = true) :
    areSound ts = true :=
  (Bool.and_eq_true_iff.1 h).1

theorem Tokens.areSound_append (ts us : List Token) :
    areSound (ts ++ us) = (areSound ts && areSound us) := by
  induction ts with
  | nil => rfl
  | cons t ts ih => simp [areSound, ih, Bool.and_assoc]

def Token.isLiteralRun : Token → Bool
  | .literal text => isRun text
  | _ => false

mutual

def Token.isSetOff : Token → Bool
  | .group inner => Tokens.areSetOff inner
  | _ => true

/-- Whether each run stands first in its sequence or behind a joiner, here and inside groups. -/
def Tokens.areSetOff : List Token → Bool
  | [] => true
  | t :: ts => t.isSetOff && (t.isJoiner || !ts.head?.any Token.isLiteralRun) && Tokens.areSetOff ts

end

theorem Token.isLiteralRun_of_runsInto {t u : Token} (h : t.runsInto u = true) :
    u.isLiteralRun = true ∧ t.isJoiner = false := by
  cases u with
  | literal text =>
    cases t with
    | literal front =>
      obtain ⟨hfront, htext⟩ := Bool.and_eq_true_iff.1 h
      exact ⟨htext, isJoiner_eq_false_of_isRun hfront⟩
    | var name => exact ⟨(Bool.and_eq_true_iff.1 h).1, rfl⟩
    | splat name => exact ⟨(Bool.and_eq_true_iff.1 h).1, rfl⟩
    | group inner => cases h
  | var name => cases t <;> cases h
  | splat name => cases t <;> cases h
  | group inner => cases t <;> cases h

theorem Tokens.areSetOff_cons_iff {t : Token} {ts : List Token} :
    areSetOff (t :: ts) = true ↔
      t.isSetOff = true ∧ (t.isJoiner = false → ts.head?.any Token.isLiteralRun = false) ∧
        areSetOff ts = true := by
  rw [areSetOff]
  cases t.isJoiner <;> simp [and_assoc]

mutual

theorem Token.standsApart_of_isSetOff : {t : Token} → t.isSetOff = true → t.standsApart = true
  | .literal _, _ => rfl
  | .var _, _ => rfl
  | .splat _, _ => rfl
  | .group _, h => Tokens.standApart_of_areSetOff h

theorem Tokens.standApart_of_areSetOff : {ts : List Token} → Tokens.areSetOff ts = true →
    Tokens.standApart ts = true
  | [], _ => rfl
  | t :: ts, h => by
    obtain ⟨ht, hnext, hts⟩ := Tokens.areSetOff_cons_iff.1 h
    have hgap : ts.head?.any t.runsInto = false := by
      cases hhead : ts.head? with
      | none => rfl
      | some u =>
        refine Bool.eq_false_iff.2 fun hruns => ?_
        obtain ⟨hrun, hjoiner⟩ := Token.isLiteralRun_of_runsInto hruns
        simp [hhead, hrun, hjoiner] at hnext
    rw [Tokens.standApart, Token.standsApart_of_isSetOff ht, hgap,
      Tokens.standApart_of_areSetOff hts]
    rfl

end

mutual

def Token.depth : Token → Nat
  | .group inner => Tokens.depth inner + 1
  | _ => 0

def Tokens.depth : List Token → Nat
  | [] => 0
  | t :: ts => max t.depth (Tokens.depth ts)

end

theorem Tokens.depth_append (ts us : List Token) :
    depth (ts ++ us) = max (depth ts) (depth us) := by
  induction ts with
  | nil => simp [depth]
  | cons t ts ih => simp [depth, ih, Nat.max_assoc]

/-- Whether the tokens are what some template text denotes. -/
def Tokens.isCanonical (tokens : List Token) : Bool :=
  Tokens.isWritable tokens && Tokens.depth tokens ≤ maxDepth &&
    Tokens.choicePoints tokens ≤ maxChoicePoints

end RouteTemplate
