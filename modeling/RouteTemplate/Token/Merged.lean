import RouteTemplate.Token.Basic

namespace RouteTemplate

/-- Literal text becomes one with the literal behind it, and empty text leaves no token. -/
def Token.prepend : Token → List Token → List Token
  | .literal text, .literal next :: ts => .literal (text ++ next) :: ts
  | .literal text, ts => if text.isEmpty then ts else .literal text :: ts
  | t, ts => t :: ts

mutual

def Token.merged : Token → Token
  | .group inner => .group (Tokens.merged inner)
  | t => t

/-- Tokens without empty literals, and with neighbouring literals in one. -/
def Tokens.merged : List Token → List Token
  | [] => []
  | t :: ts => t.merged.prepend (Tokens.merged ts)

end

theorem Token.prepend_empty (ts : List Token) : (Token.literal "").prepend ts = ts := by
  rcases ts with _ | ⟨t, ts⟩
  · rfl
  · cases t <;> simp [prepend]

theorem Token.prepend_prepend (x y : String) (ts : List Token) :
    (Token.literal x).prepend ((Token.literal y).prepend ts) =
      (Token.literal (x ++ y)).prepend ts := by
  by_cases hy : y = ""
  · rw [hy, prepend_empty, String.append_empty]
  · -- Text that is not empty ends up in a literal, and the text in front joins that literal.
    rcases ts with _ | ⟨t, ts⟩
    · simp [prepend, hy]
    · cases t <;> simp [prepend, hy, String.append_assoc]

/-- An empty literal counts for nothing, and two literals for one. -/
structure Tokens.IgnoresCuts {β : Type} (F : List Token → β) : Prop where
  empty : ∀ ts, F (.literal "" :: ts) = F ts
  join : ∀ x y ts, F (.literal x :: .literal y :: ts) = F (.literal (x ++ y) :: ts)
  cons : ∀ t ts us, F ts = F us → F (t :: ts) = F (t :: us)
  group : ∀ inner other ts, F inner = F other → F (.group inner :: ts) = F (.group other :: ts)

namespace Tokens.IgnoresCuts

variable {β : Type} {F : List Token → β}

theorem apply_prepend (h : IgnoresCuts F) (t : Token) (ts : List Token) :
    F (t.prepend ts) = F (t :: ts) := by
  fun_cases Token.prepend t ts with
  | case1 text next ts => exact (h.join text next ts).symm
  | case2 text ts _ hempty =>
    obtain rfl := String.isEmpty_iff.1 hempty
    exact (h.empty ts).symm
  | case3 => rfl
  | case4 => rfl

/-- Where cuts make no difference, the value stays the same when literal text is put together. -/
theorem apply_merged (h : IgnoresCuts F) (ts : List Token) : F (merged ts) = F ts := by
  induction ts using Tokens.induction with
  | nil => rfl
  | literal text ts ih =>
    rw [merged, h.apply_prepend]
    exact h.cons _ _ _ ih
  | var name ts ih =>
    rw [merged, h.apply_prepend]
    exact h.cons _ _ _ ih
  | splat name ts ih =>
    rw [merged, h.apply_prepend]
    exact h.cons _ _ _ ih
  | group inner ts hinner ih =>
    rw [merged, h.apply_prepend, Token.merged]
    exact (h.cons _ _ _ ih).trans (h.group _ _ _ hinner)

theorem eq_of_merged_eq (h : IgnoresCuts F) {ts us : List Token} (hmerged : merged ts = merged us) :
    F ts = F us := by
  rw [← h.apply_merged ts, hmerged, h.apply_merged]

end Tokens.IgnoresCuts

namespace Tokens

theorem ignoresCuts_merged : IgnoresCuts merged where
  empty ts := Token.prepend_empty (merged ts)
  join x y ts := Token.prepend_prepend x y (merged ts)
  cons t ts us h := by rw [merged, h, merged]
  group inner other ts h := by rw [merged, Token.merged, h, merged, Token.merged]

theorem merged_merged (ts : List Token) : merged (merged ts) = merged ts :=
  ignoresCuts_merged.apply_merged ts

end Tokens

end RouteTemplate
