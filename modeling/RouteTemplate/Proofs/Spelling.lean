import RouteTemplate.Proofs.Lexemes
import RouteTemplate.Token.Canonical

namespace RouteTemplate

open Grammar

/-- A slash or dot alone is a mark. Any other literal is a run, even one no text is cut into. -/
def Lexeme.ofLiteral (text : String) : Lexeme :=
  if text = "/" then .separator
  else if text = "." then .extension
  else .run text.toList

mutual

def Token.lexemes : Token → List Lexeme
  | .literal text => [.ofLiteral text]
  | .var name => [.var (name.getD "").toList]
  | .splat name => [.splat (name.getD "").toList]
  | .group inner => .groupOpen :: (Tokens.lexemes inner ++ [.groupClose])

def Tokens.lexemes : List Token → List Lexeme
  | [] => []
  | t :: ts => t.lexemes ++ Tokens.lexemes ts

end

mutual

def Token.isNamed : Token → Bool
  | .literal _ => true
  | .var name => name.any (!·.toList.isEmpty)
  | .splat name => name.all (!·.toList.isEmpty)
  | .group inner => Tokens.isNamed inner

def Tokens.isNamed : List Token → Bool
  | [] => true
  | t :: ts => t.isNamed && Tokens.isNamed ts

end

theorem Lexeme.chars_ofLiteral (text : String) : (ofLiteral text).chars = text.toList := by
  by_cases hsep : text = "/"
  · simp [hsep, ofLiteral, chars]
  · by_cases hext : text = "."
    · simp [hext, ofLiteral, chars]
    · simp [hsep, hext, ofLiteral, chars]

theorem Lexeme.isWhole_ofLiteral (text : String) :
    (ofLiteral text).isWhole = (text == "/" || text == "." || isRun text) := by
  by_cases hsep : text = "/"
  · simp [hsep, ofLiteral, isWhole]
  · by_cases hext : text = "."
    · simp [hext, ofLiteral, isWhole]
    · simp [hsep, hext, ofLiteral, isWhole, isRun]

theorem Lexeme.reachesInto_delimiter {l : Lexeme} {rest : List Char}
    (h : rest.head?.all isDelimiter = true) : l.reachesInto rest = false := by
  rcases rest with _ | ⟨c, rest⟩
  · cases l <;> rfl
  · have hc : isDelimiter c = true := h
    have hname : isNameChar c = false := by
      refine Bool.eq_false_iff.2 fun hn => ?_
      simp [isDelimiter_eq_false_of_isNameChar hn] at hc
    cases l <;> simp [reachesInto, hc, hname]

def Lexeme.reachesIntoRun (l : Lexeme) : Token → Bool
  | .literal text => isRun text && l.reachesInto text.toList
  | _ => false

theorem reachesInto_of_isRun {text : String} (x : List Char) (h : isRun text = true) :
    (Lexeme.run x).reachesInto text.toList = true := by
  cases hcs : text.toList with
  | nil => simp [isRun, hcs] at h
  | cons c cs =>
    have hc : isDelimiter c = false := by simp_all [isRun]
    simp [Lexeme.reachesInto, hc]

theorem Token.runsInto_literal {text : String} (h : (Token.literal text).isWritable = true) :
    (Token.literal text).runsInto = (Lexeme.ofLiteral text).reachesIntoRun := by
  funext t
  cases t with
  | literal other =>
    by_cases hsep : text = "/"
    · simp [hsep, runsInto, Lexeme.reachesIntoRun, Lexeme.ofLiteral, Lexeme.reachesInto, isRun,
        isDelimiter]
    · by_cases hext : text = "."
      · simp [hext, runsInto, Lexeme.reachesIntoRun, Lexeme.ofLiteral, Lexeme.reachesInto, isRun,
          isDelimiter]
      · have hrun : isRun text = true := by simpa [hsep, hext] using h
        cases hother : isRun other
        · simp [runsInto, Lexeme.reachesIntoRun, hother]
        · simp [runsInto, Lexeme.reachesIntoRun, hother, hrun, Lexeme.ofLiteral, hsep, hext,
            reachesInto_of_isRun _ hother]
  | var name => rfl
  | splat name => rfl
  | group inner => rfl

theorem Token.isWritable_var_of_isNamed {name : Option String}
    (h : (Token.var name).isNamed = true) :
    (Token.var name).isWritable = (Lexeme.var (name.getD "").toList).isWhole := by
  cases name with
  | none => simp [isNamed] at h
  | some name =>
    have hne : (!name.toList.isEmpty) = true := h
    rw [isWritable_var, Option.any_some, isName, hne, Bool.true_and]
    rfl

theorem Token.isWritable_splat_of_isNamed {name : Option String}
    (h : (Token.splat name).isNamed = true) :
    (Token.splat name).isWritable = (Lexeme.splat (name.getD "").toList).isWhole := by
  cases name with
  | none => rfl
  | some name =>
    have hne : (!name.toList.isEmpty) = true := h
    rw [isWritable_splat, Option.all_some, isName, hne, Bool.true_and]
    rfl

theorem Token.runsInto_var (name : Option String) :
    (Token.var name).runsInto = (Lexeme.var (name.getD "").toList).reachesIntoRun := by
  funext t
  cases t <;> rfl

theorem Token.runsInto_splat (name : Option String) :
    (Token.splat name).runsInto = (Lexeme.splat (name.getD "").toList).reachesIntoRun := by
  funext t
  cases t <;> rfl

namespace Tokens

theorem lexemes_append (ts us : List Token) : lexemes (ts ++ us) = lexemes ts ++ lexemes us := by
  induction ts with
  | nil => rfl
  | cons t ts ih => simp [lexemes, ih]

theorem isNamed_append (ts us : List Token) : isNamed (ts ++ us) = (isNamed ts && isNamed us) := by
  induction ts with
  | nil => rfl
  | cons t ts ih => simp [isNamed, ih, Bool.and_assoc]

theorem flatMap_chars_lexemes (ts : List Token) :
    (lexemes ts).flatMap Lexeme.chars = spelling ts := by
  induction ts using Tokens.induction with
  | nil => rfl
  | literal text ts ih =>
    simp [lexemes, Token.lexemes, spelling, Token.spelling, ih, Lexeme.chars_ofLiteral]
  | var name ts ih => simp [lexemes, Token.lexemes, spelling, Token.spelling, ih, Lexeme.chars]
  | splat name ts ih => simp [lexemes, Token.lexemes, spelling, Token.spelling, ih, Lexeme.chars]
  | group inner ts hinner ih =>
    simp [lexemes, Token.lexemes, spelling, Token.spelling, hinner, ih, Lexeme.chars]

theorem isNamed_of_isWritable {ts : List Token} (h : isWritable ts = true) : isNamed ts = true := by
  induction ts using Tokens.induction with
  | nil => rfl
  | literal text ts ih => simp_all [isNamed, Token.isNamed]
  | var name ts ih =>
    cases name <;> simp_all [isName, isNamed, Token.isNamed]
  | splat name ts ih =>
    cases name <;> simp_all [isName, isNamed, Token.isNamed]
  | group inner ts hinner ih => simp_all [isNamed, Token.isNamed]

/-- Where a delimiter or nothing follows, a sequence is reached into iff it begins with a run. -/
theorem reachesInto_spelling_append {ts : List Token} {rest : List Char}
    (h : isWritable ts = true) (hrest : rest.head?.all isDelimiter = true) (l : Lexeme) :
    l.reachesInto (spelling ts ++ rest) = ts.head?.any l.reachesIntoRun := by
  cases ts with
  | nil => exact Lexeme.reachesInto_delimiter hrest
  | cons t ts =>
    cases t with
    | literal text =>
      have hw : (Token.literal text).isWritable = true := isWritable_of_mem h _ List.mem_cons_self
      rcases Token.isWritable_literal_iff.1 hw with rfl | rfl | hrun
      · exact Lexeme.reachesInto_delimiter rfl
      · exact Lexeme.reachesInto_delimiter rfl
      · cases hcs : text.toList with
        | nil => simp [isRun, hcs] at hrun
        | cons c cs =>
          simp only [spelling, Token.spelling, hcs, List.cons_append, List.head?_cons,
            Option.any_some, Lexeme.reachesIntoRun, hrun, Bool.true_and]
          cases l <;> rfl
    | var name => exact Lexeme.reachesInto_delimiter rfl
    | splat name => exact Lexeme.reachesInto_delimiter rfl
    | group inner => exact Lexeme.reachesInto_delimiter rfl

theorem areCut_cons_append {l : Lexeme} {ts : List Token} {rest : List Lexeme}
    (hrest : (rest.flatMap Lexeme.chars).head?.all isDelimiter = true)
    (h : Lexeme.areCut (lexemes ts ++ rest) = (isWritable ts && Lexeme.areCut rest)) :
    Lexeme.areCut (l :: (lexemes ts ++ rest)) =
      (l.isWhole && !ts.head?.any l.reachesIntoRun && isWritable ts && Lexeme.areCut rest) := by
  rw [Lexeme.areCut, h, List.flatMap_append, flatMap_chars_lexemes]
  cases hts : isWritable ts
  · simp
  · rw [reachesInto_spelling_append hts hrest]
    simp

/-- Tokens are written with lexemes that are cut again, just if they are writable. -/
theorem areCut_lexemes_append {ts : List Token} {rest : List Lexeme} (hn : isNamed ts = true)
    (hrest : (rest.flatMap Lexeme.chars).head?.all isDelimiter = true) :
    Lexeme.areCut (lexemes ts ++ rest) = (isWritable ts && Lexeme.areCut rest) := by
  -- The rest is arbitrary, because the content of a group is followed by its closing parenthesis.
  induction ts using Tokens.induction generalizing rest with
  | nil => simp [lexemes]
  | literal text ts ih =>
    have h := areCut_cons_append (l := .ofLiteral text) hrest (ih hn hrest)
    rw [lexemes, Token.lexemes, List.singleton_append, List.cons_append, h, isWritable_cons,
      Lexeme.isWhole_ofLiteral, ← Token.isWritable_literal]
    cases ht : (Token.literal text).isWritable
    · simp
    · rw [Token.runsInto_literal ht]
  | var name ts ih =>
    obtain ⟨hname, hts⟩ := Bool.and_eq_true_iff.1 hn
    have h := areCut_cons_append (l := .var (name.getD "").toList) hrest (ih hts hrest)
    rw [lexemes, Token.lexemes, List.singleton_append, List.cons_append, h, isWritable_cons,
      Token.runsInto_var, Token.isWritable_var_of_isNamed hname]
  | splat name ts ih =>
    obtain ⟨hname, hts⟩ := Bool.and_eq_true_iff.1 hn
    have h := areCut_cons_append (l := .splat (name.getD "").toList) hrest (ih hts hrest)
    rw [lexemes, Token.lexemes, List.singleton_append, List.cons_append, h, isWritable_cons,
      Token.runsInto_splat, Token.isWritable_splat_of_isNamed hname]
  | group inner ts hinner ih =>
    obtain ⟨hin, hts⟩ := Bool.and_eq_true_iff.1 hn
    have hopen : Lexeme.areCut (lexemes inner ++ .groupClose :: (lexemes ts ++ rest)) = _ :=
      hinner hin rfl
    have hruns : (Token.group inner).runsInto = fun _ => false := rfl
    simp [lexemes, Token.lexemes, Lexeme.areCut, hopen, ih hts hrest, Lexeme.isWhole,
      Lexeme.reachesInto, hruns, Bool.and_assoc]

theorem areCut_lexemes {ts : List Token} (hn : isNamed ts = true) :
    Lexeme.areCut (lexemes ts) = isWritable ts := by
  have h : Lexeme.areCut (lexemes ts ++ []) = (isWritable ts && true) :=
    areCut_lexemes_append hn rfl
  simpa using h

end Tokens

end RouteTemplate
