import RouteTemplate.Token.Basic

namespace RouteTemplate

/-- What stands on both sides of a gap, and on both sides of each group around it. -/
inductive Gap where
  | here (front back : List Token)
  | inside (front : List Token) (gap : Gap) (back : List Token)

namespace Gap

def filled (tokens : List Token) : Gap → List Token
  | here front back => front ++ tokens ++ back
  | inside front gap back => front ++ .group (gap.filled tokens) :: back

/-- The whole sequence with nothing in the gap. A group around it goes if nothing is left inside. -/
def closed : Gap → List Token
  | here front back => front ++ back
  | inside front gap back =>
    if gap.closed.isEmpty then front ++ back else front ++ .group gap.closed :: back

/-- The number of tokens in front of each group around the gap, and of the gap itself. -/
def address : Gap → List Nat
  | here front _ => [front.length]
  | inside front gap _ => front.length :: gap.address

/-- Whether one gap is reached before another from left to right, going through each group. -/
def IsBefore (g h : Gap) : Prop := List.Lex (· < ·) g.address h.address

/-- The tokens stand in the gap, and every other gap in which they stand comes later. -/
structure IsFirst (tokens ts : List Token) (g : Gap) : Prop where
  filled_eq : g.filled tokens = ts
  isBefore : ∀ h : Gap, h.filled tokens = ts → h ≠ g → g.IsBefore h

def behind (t : Token) : Gap → Gap
  | here front back => here (t :: front) back
  | inside front gap back => inside (t :: front) gap back

theorem filled_behind (t : Token) (tokens : List Token) (g : Gap) :
    (g.behind t).filled tokens = t :: g.filled tokens := by
  cases g <;> rfl

theorem closed_behind (t : Token) (g : Gap) : (g.behind t).closed = t :: g.closed := by
  cases g with
  | here => rfl
  | inside front gap back =>
    rw [behind, closed, closed]
    split <;> rfl

theorem exists_address_behind (t : Token) (g : Gap) :
    ∃ n below, g.address = n :: below ∧ (g.behind t).address = (n + 1) :: below := by
  cases g with
  | here front back => exact ⟨_, _, rfl, rfl⟩
  | inside front gap back => exact ⟨_, _, rfl, rfl⟩

theorem IsBefore.behind {g h : Gap} (hgh : g.IsBefore h) (t : Token) :
    (g.behind t).IsBefore (h.behind t) := by
  obtain ⟨m, below, hg, hgt⟩ := exists_address_behind t g
  obtain ⟨n, below', hh, hht⟩ := exists_address_behind t h
  rw [IsBefore, hg, hh] at hgh
  rw [IsBefore, hgt, hht]
  cases hgh with
  | rel hlt => exact .rel (Nat.succ_lt_succ hlt)
  | cons hbelow => exact .cons hbelow

theorem IsBefore.asymm {g h : Gap} (hgh : g.IsBefore h) : ¬ h.IsBefore g :=
  List.lex_asymm Nat.lt_asymm hgh

theorem IsFirst.unique {tokens ts : List Token} {g h : Gap} (hg : g.IsFirst tokens ts)
    (hh : h.IsFirst tokens ts) : g = h := by
  refine Classical.byContradiction fun hne => ?_
  exact (hg.isBefore h hh.filled_eq (Ne.symm hne)).asymm (hh.isBefore g hg.filled_eq hne)

end Gap

end RouteTemplate
