import RouteTemplate.Token.Flat

namespace RouteTemplate

namespace IsNested

variable {f : FlatToken} {fs gs : List FlatToken}

theorem nil : IsNested [] where
  lt_length i f h := by cases h
  le_of_le i j f g h := by cases h

theorem append (hfs : IsNested fs) (hgs : IsNested gs) : IsNested (fs ++ gs) where
  lt_length i f h := by
    rw [List.length_append]
    rw [List.getElem?_append] at h
    split at h
    · have := hfs.lt_length i f h
      omega
    · have := hgs.lt_length _ f h
      omega
  le_of_le i j f g hf hg hij hle := by
    rw [List.getElem?_append] at hf hg
    split at hf
    · have hlt := hfs.lt_length i f hf
      rw [if_pos (by omega)] at hg
      exact hfs.le_of_le i j f g hf hg hij hle
    · rw [if_neg (by omega)] at hg
      have := hgs.le_of_le _ _ f g hf hg (by omega) (by omega)
      omega

theorem cons (hfs : IsNested fs) (hspan : f.span = fs.length) : IsNested (f :: fs) where
  lt_length i g h := by
    rw [List.length_cons]
    cases i with
    | zero =>
      cases h
      omega
    | succ i =>
      have := hfs.lt_length i g h
      omega
  le_of_le i j g k hg hk hij hle := by
    obtain ⟨j, rfl⟩ := Nat.exists_eq_add_one_of_ne_zero (Nat.ne_zero_of_lt hij)
    cases i with
    | zero =>
      cases hg
      have := hfs.lt_length j k hk
      omega
    | succ i =>
      have := hfs.le_of_le i j g k hg hk (by omega) (by omega)
      omega

theorem span_le_length (h : IsNested (f :: fs)) : f.span ≤ fs.length := by
  have hlt := h.lt_length 0 f rfl
  rw [List.length_cons] at hlt
  omega

theorem take_span (h : IsNested (f :: fs)) : IsNested (fs.take f.span) where
  lt_length i g hg := by
    rw [List.getElem?_take] at hg
    split at hg
    · have := h.le_of_le 0 (i + 1) f g rfl hg (Nat.succ_pos i) (by omega)
      rw [List.length_take, Nat.min_eq_left h.span_le_length]
      omega
    · cases hg
  le_of_le i j g k hg hk hij hle := by
    rw [List.getElem?_take] at hg hk
    split at hg
    · split at hk
      · have := h.le_of_le (i + 1) (j + 1) g k hg hk (by omega) (by omega)
        omega
      · cases hk
    · cases hg

theorem drop (h : IsNested fs) (n : Nat) : IsNested (fs.drop n) where
  lt_length i f hf := by
    rw [List.getElem?_drop] at hf
    have := h.lt_length _ f hf
    rw [List.length_drop]
    omega
  le_of_le i j f g hf hg hij hle := by
    rw [List.getElem?_drop] at hf hg
    have := h.le_of_le _ _ f g hf hg (by omega) (by omega)
    omega

end IsNested

/-- Spans are nested if they are among what belongs to the first flat token, and among the rest. -/
theorem isNested_cons_iff {f : FlatToken} {fs : List FlatToken} :
    IsNested (f :: fs) ↔
      f.span ≤ fs.length ∧ IsNested (fs.take f.span) ∧ IsNested (fs.drop f.span) := by
  constructor
  · intro h
    exact ⟨h.span_le_length, h.take_span, h.drop (f.span + 1)⟩
  · rintro ⟨hspan, hinside, hbehind⟩
    have hmarked := hinside.cons (by rw [List.length_take, Nat.min_eq_left hspan])
    have happend := hmarked.append hbehind
    rwa [List.cons_append, List.take_append_drop] at happend

namespace Tokens

theorem ofFlat?_flat (ts : List Token) : ofFlat? (flat ts) = some ts := by
  induction ts using Tokens.induction with
  | nil => rw [flat, ofFlat?]
  | literal text ts ih => simp [flat, Token.flat, ofFlat?, ih]
  | var name ts ih => simp [flat, Token.flat, ofFlat?, ih]
  | splat name ts ih => simp [flat, Token.flat, ofFlat?, ih]
  | group inner ts hinner ih => simp [flat, Token.flat, ofFlat?, ← length_flat, hinner, ih]

theorem flat_of_ofFlat? {fs : List FlatToken} {ts : List Token} (h : ofFlat? fs = some ts) :
    flat ts = fs := by
  fun_induction ofFlat? fs generalizing ts with
  | case1 =>
    cases h
    rfl
  | case2 text fs ih | case3 name fs ih | case4 name fs ih =>
    obtain ⟨us, hus, rfl⟩ := Option.map_eq_some_iff.1 h
    rw [flat, Token.flat, ih hus]
    rfl
  | case5 span fs hspan ihInner ihRest =>
    obtain ⟨inner, hinner, h⟩ := Option.bind_eq_some_iff.1 h
    obtain ⟨rest, hrest, h⟩ := Option.bind_eq_some_iff.1 h
    cases h
    have hflat := ihInner hinner
    have hlength : flatLength inner = span := by
      rw [← length_flat, hflat, List.length_take, Nat.min_eq_left hspan]
    rw [flat, Token.flat, hlength, hflat, ihRest hrest, List.cons_append, List.take_append_drop]
  | case6 => cases h

theorem isSome_ofFlat?_iff (fs : List FlatToken) : (ofFlat? fs).isSome = true ↔ IsNested fs := by
  fun_induction ofFlat? fs with
  | case1 => simp [IsNested.nil]
  | case2 text fs ih | case3 name fs ih | case4 name fs ih =>
    rw [Option.isSome_map, ih, isNested_cons_iff]
    simp [FlatToken.span, IsNested.nil]
  | case5 span fs hspan ihInner ihRest =>
    rw [isNested_cons_iff, FlatToken.span, ← ihInner, ← ihRest]
    cases ofFlat? (fs.take span) <;> cases ofFlat? (fs.drop span) <;> simp [hspan]
  | case6 span fs hspan =>
    rw [isNested_cons_iff, FlatToken.span]
    simp [hspan]

/-- The flat form is read back as the sequence, and no other list is. -/
theorem ofFlat?_flat_and_isNested (ts : List Token) :
    (∀ inner, (Token.group inner).flat = .group (Token.group inner).span :: flat inner) ∧
      (flat ts).length = flatLength ts ∧ ofFlat? (flat ts) = some ts ∧
      (∀ fs, ofFlat? fs = some ts → fs = flat ts) ∧ Function.Injective flat ∧
      IsNested (flat ts) := by
  refine ⟨Token.flat_group, length_flat ts, ofFlat?_flat ts,
    fun fs h => (flat_of_ofFlat? h).symm, ?_, ?_⟩
  · intro us vs h
    have hread := congrArg ofFlat? h
    rw [ofFlat?_flat, ofFlat?_flat] at hread
    exact Option.some.inj hread
  · rw [← isSome_ofFlat?_iff, ofFlat?_flat]
    rfl

example : flat [.literal "/", .group [.group [], .var "a"], .group [.splat none]] =
    [.literal "/", .group 2, .group 0, .var "a", .group 1, .splat none] := by rfl

end Tokens

end RouteTemplate
