import RouteTemplate.Proofs.FirstGap

namespace RouteTemplate

open Grammar

namespace Tokens

theorem marks_of_parse {text : List Char} {ts : List Token} (h : parse text = .ok ts) :
    marks text ≤ maxChoicePoints := by
  obtain ⟨htext, hwritable, -, hcount⟩ := parse_eq_ok_iff_written.1 h
  exact (marks_of_written htext hwritable).trans_le hcount

theorem parse_separated {front back : List Char} {ts us : List Token} (hts : parse front = .ok ts)
    (hus : parse back = .ok us) {vs : List Token} :
    parse (front ++ '/' :: back) = .ok vs ↔
      marks (front ++ '/' :: back) ≤ maxChoicePoints ∧ ts ++ .separator :: us = vs := by
  obtain ⟨rfl, htwritable, htdepth, -⟩ := parse_eq_ok_iff_written.1 hts
  obtain ⟨rfl, huwritable, hudepth, -⟩ := parse_eq_ok_iff_written.1 hus
  have hback : isWritable ([.separator] ++ us) = true := isWritable_append rfl huwritable (.inl rfl)
  refine parse_eq_ok_iff_marks ?_ (isWritable_append htwritable hback (.inr rfl)) ?_
  · rw [spelling_append, spelling]
    rfl
  · rw [depth_append, depth]
    exact Nat.max_le.2 ⟨htdepth, Nat.max_le.2 ⟨Nat.zero_le _, hudepth⟩⟩

theorem parse_slash_cons_iff {text : List Char} {ts : List Token} :
    parse ('/' :: text) = .ok ts ↔ ∃ us, parse text = .ok us ∧ .separator :: us = ts := by
  have hnil : parse [] = .ok [] := parse_eq_ok_iff.2 ⟨rfl, rfl⟩
  constructor
  · intro h
    have hparse : Template.parse (String.ofList (['/'] ++ text)) = .ok ⟨ts⟩ :=
      Template.parse_ofList_eq_ok_iff.2 h
    obtain ⟨⟨us⟩, hus⟩ := exists_parse_of_append rfl hparse
    have hus := Template.parse_ofList_eq_ok_iff.1 hus
    exact ⟨us, hus, ((parse_separated hnil hus).1 h).2⟩
  · rintro ⟨us, hus, rfl⟩
    refine (parse_separated hnil hus).2 ⟨?_, rfl⟩
    have hslash : marks ['/'] = 0 := rfl
    rw [List.nil_append, ← List.singleton_append, marks_append, hslash, Nat.zero_add]
    exact marks_of_parse hus

/-- A separator between fragments starts the second one afresh. -/
theorem keyPairs_append_separator (joiner : Token) (ts us : List Token) :
    keyPairs joiner (ts ++ .separator :: us) = keyPairs joiner ts ++ keyPairs .separator us := by
  induction ts generalizing joiner with
  | nil => rfl
  | cons t ts ih =>
    rw [List.cons_append, keyPairs, keyPairs]
    split
    · exact ih t
    · rw [ih, List.cons_append]

theorem erasePairs_append (ts : List Token) (ps qs : List (Token × Token)) :
    erasePairs ts (ps ++ qs) = erasePairs (erasePairs ts ps) qs :=
  List.foldl_append

end Tokens

namespace Template

theorem erase_eq_ok_iff_parse {t u : Template} {fragments : String} :
    t.erase fragments = .ok u ↔ ∃ keys, Tokens.parse fragments.toList = .ok keys ∧
      ⟨Tokens.erasePairs t.tokens (Tokens.keyPairs .separator keys)⟩ = u := by
  rw [erase_eq_ok_iff]
  rcases fragments.toList with _ | ⟨c, text⟩
  · rfl
  · by_cases hc : c = '/'
    · subst hc
      constructor
      · rintro ⟨keys, hkeys, rfl⟩
        exact ⟨_, Tokens.parse_slash_cons_iff.2 ⟨keys, hkeys, rfl⟩, rfl⟩
      · rintro ⟨keys, hkeys, rfl⟩
        obtain ⟨us, hus, rfl⟩ := Tokens.parse_slash_cons_iff.1 hkeys
        exact ⟨us, hus, rfl⟩
    · have hsame : withoutLeadingSeparator (c :: text) = c :: text := by
        rw [withoutLeadingSeparator]
        rintro rest ⟨⟩
        exact hc rfl
      rw [hsame]

/-- To erase two fragments joined by a slash is to erase the one and then the other. -/
theorem erase_erase {t u v w : Template} {front back : String}
    (hjoined : parse (front ++ "/" ++ back) = .ok w) (hfront : t.erase front = .ok v)
    (hback : v.erase back = .ok u) : t.erase (front ++ "/" ++ back) = .ok u := by
  obtain ⟨ts, hts, rfl⟩ := erase_eq_ok_iff_parse.1 hfront
  obtain ⟨us, hus, rfl⟩ := erase_eq_ok_iff_parse.1 hback
  have htext : (front ++ "/" ++ back).toList = front.toList ++ '/' :: back.toList := by simp
  have hparse := parse_eq_ok_iff_tokens.1 hjoined
  rw [htext] at hparse
  obtain ⟨-, hw⟩ := (Tokens.parse_separated hts hus).1 hparse
  rw [erase_eq_ok_iff_parse, htext]
  refine ⟨w.tokens, hparse, ?_⟩
  rw [← hw, Tokens.keyPairs_append_separator, Tokens.erasePairs_append]

/-- The dot that ends the first fragment does not become the joiner of the key in the second. -/
theorem erase_erase_at_seam :
    let t : Template :=
      ⟨[.literal "/", .literal "a", .literal "/", .literal "b", .literal ".", .literal "b"]⟩
    let v : Template := ⟨[.literal "/", .literal "b", .literal ".", .literal "b"]⟩
    let u : Template := ⟨[.literal ".", .literal "b"]⟩
    (∃ w, parse ("a." ++ "/" ++ "/b") = .ok w) ∧ t.erase "a." = .ok v ∧ v.erase "/b" = .ok u ∧
      t.erase ("a." ++ "/" ++ "/b") = .ok u := by
  intro t v u
  have hjoined : parse ("a." ++ "/" ++ "/b") =
      .ok ⟨[.literal "a", .literal ".", .literal "/", .literal "/", .literal "b"]⟩ :=
    parse_eq_ok_iff.2 ⟨rfl, rfl⟩
  have hfront : t.erase "a." = .ok v :=
    erase_eq_ok_iff.2 ⟨[.literal "a", .literal "."], Tokens.parse_eq_ok_iff.2 ⟨rfl, rfl⟩, rfl⟩
  have hback : v.erase "/b" = .ok u :=
    erase_eq_ok_iff.2 ⟨[.literal "b"], Tokens.parse_eq_ok_iff.2 ⟨rfl, rfl⟩, rfl⟩
  exact ⟨⟨_, hjoined⟩, hfront, hback, erase_erase hjoined hfront hback⟩

end Template

/-- Keys written one behind another, each with its joiner in front. -/
def Tokens.ofPairs (pairs : List (Token × Token)) : List Token := pairs.flatMap fun p => [p.1, p.2]

section

variable {joiner key : Token}

theorem FirstPairErased.of_append (hjoiner : joiner.isJoiner = true) (hkey : key.isJoiner = false)
    {ts : List Token} (h : Tokens.holdsPair joiner key ts = false) (us : List Token) :
    FirstPairErased joiner key (ts ++ joiner :: key :: us) (ts ++ us) := by
  induction ts with
  | nil =>
    exact .pair (Token.isGroup_eq_false_of_isJoiner hjoiner)
  | cons t ts ih =>
    rw [Tokens.holdsPair, Bool.or_eq_false_iff, Bool.or_eq_false_iff, decide_eq_false_iff_not] at h
    obtain ⟨⟨hinside, hpair⟩, hrest⟩ := h
    refine .behind hinside ?_ (ih hrest)
    rintro ⟨rfl, hhead⟩
    cases ts with
    | nil =>
      -- Behind the sequence a joiner comes first, so its last token is in front of no key.
      obtain rfl := Option.some.inj hhead
      rw [hjoiner] at hkey
      cases hkey
    | cons u ts => exact hpair ⟨rfl, hhead⟩

end

namespace Tokens

theorem keyPairs_ofPairs {pairs : List (Token × Token)}
    (h : ∀ p ∈ pairs, p.1.isJoiner = true ∧ p.2.isJoiner = false) (joiner : Token) :
    keyPairs joiner (ofPairs pairs) = pairs := by
  induction pairs generalizing joiner with
  | nil => rfl
  | cons p pairs ih =>
    obtain ⟨⟨hjoiner, hkey⟩, hrest⟩ := List.forall_mem_cons.1 h
    rw [ofPairs, List.flatMap_cons, ← ofPairs, List.cons_append, List.cons_append, keyPairs,
      if_pos hjoiner,
      keyPairs, if_neg (by simp [hkey]), List.nil_append, ih hrest]

/-- Pairs that a sequence does not hold are erased behind it from front to back. -/
theorem erasePairs_append_ofPairs {ts : List Token} {pairs : List (Token × Token)}
    (h : ∀ p ∈ pairs, p.1.isJoiner = true ∧ p.2.isJoiner = false)
    (habsent : ∀ p ∈ pairs, holdsPair p.1 p.2 ts = false) :
    erasePairs (ts ++ ofPairs pairs) pairs = ts := by
  induction pairs with
  | nil => exact List.append_nil ts
  | cons p pairs ih =>
    obtain ⟨⟨hjoiner, hkey⟩, hrest⟩ := List.forall_mem_cons.1 h
    obtain ⟨hp, habsent⟩ := List.forall_mem_cons.1 habsent
    have herase : erasePair? p.1 p.2 (ts ++ ofPairs (p :: pairs)) = some (ts ++ ofPairs pairs) :=
      erasePair?_eq_some_iff.2 (.of_append hjoiner hkey hp _)
    rw [erasePairs, List.foldl_cons, herase, Option.getD_some, ← erasePairs, ih hrest habsent]

end Tokens

/-- Keys with single joiners between them. The joiner of the first is a separator, which is left
out, or an extension. -/
structure Tokens.AreKeysOf (pairs : List (Token × Token)) (keys : List Token) : Prop where
  alternate : ∀ p ∈ pairs, p.1.isJoiner = true ∧ p.2.isJoiner = false
  written : ofPairs pairs = .separator :: keys ∨ ofPairs pairs = keys ∧ keys.head? = some .extension

section

variable {pairs : List (Token × Token)} {keys : List Token} (hkeys : Tokens.AreKeysOf pairs keys)
include hkeys

theorem Tokens.AreKeysOf.keyPairs_eq : keyPairs .separator keys = pairs := by
  rw [← keyPairs_ofPairs hkeys.alternate .separator]
  rcases hkeys.written with hwritten | ⟨hwritten, -⟩
  · rw [hwritten]
    rfl
  · rw [hwritten]

theorem Tokens.AreKeysOf.joinTokens_eq {t : Template} (hlast : t.endsWithSeparator = false) :
    t.joinTokens keys = t.tokens ++ ofPairs pairs := by
  rcases hkeys.written with hwritten | ⟨hwritten, hhead⟩
  · have hhead : keys.head?.any Token.isExtension = false := by
      cases pairs with
      | nil => cases hwritten
      | cons p pairs =>
        obtain ⟨-, hbehind⟩ := List.cons.inj hwritten
        have hkey := (hkeys.alternate p List.mem_cons_self).2
        rw [← hbehind]
        exact (Bool.or_eq_false_iff.1 hkey).2
    rw [Template.joinTokens, hlast, hhead, hwritten]
    rfl
  · have hextension : keys.head?.any Token.isExtension = true := by
      rw [hhead]
      rfl
    rw [Template.joinTokens, hextension, Bool.or_true, if_pos rfl, hwritten]

end

namespace Template

/-- A fragment that was appended is erased again, if the template itself has none of its pairs. -/
theorem erase_append {t u : Template} {fragment : String} {keys : List Token}
    {pairs : List (Token × Token)} (hlast : t.endsWithSeparator = false)
    (hfragment : Tokens.parse (withoutLeadingSeparator fragment.toList) = .ok keys)
    (hkeys : Tokens.AreKeysOf pairs keys)
    (habsent : ∀ p ∈ pairs, ∀ g : Gap, g.filled [p.1, p.2] ≠ t.tokens)
    (hu : t.append fragment = .ok u) : u.erase fragment = .ok t := by
  obtain ⟨addition, haddition, -, rfl⟩ := append_eq_ok_iff.1 hu
  obtain rfl := Except.ok.inj (hfragment.symm.trans haddition)
  refine erase_eq_ok_iff.2 ⟨keys, hfragment, ?_⟩
  have herase : Tokens.erasePairs (t.tokens ++ Tokens.ofPairs pairs) pairs = t.tokens := by
    apply Tokens.erasePairs_append_ofPairs hkeys.alternate
    intro p hp
    exact Tokens.holdsPair_eq_false_iff.2 (habsent p hp)
  rw [hkeys.joinTokens_eq hlast, hkeys.keyPairs_eq, herase]

theorem erase_append_group_key :
    let ext : Token := .var "ext"
    let keys : List Token :=
      [.extension, ext, .separator, .group [.extension, ext], .separator, .splat none]
    let pairs : List (Token × Token) :=
      [(.extension, ext), (.separator, .group [.extension, ext]), (.separator, .splat none)]
    let t : Template := ⟨[.separator, .literal "files", .group [.separator, .var "id"]]⟩
    let u : Template := ⟨t.tokens ++ keys⟩
    t.endsWithSeparator = false ∧ Tokens.parse ".:ext/(.:ext)/*".toList = .ok keys ∧
      Tokens.AreKeysOf pairs keys ∧ (∀ p ∈ pairs, ∀ g : Gap, g.filled [p.1, p.2] ≠ t.tokens) ∧
      t.append "/.:ext/(.:ext)/*" = .ok u ∧ u.erase "/.:ext/(.:ext)/*" = .ok t := by
  intro ext keys pairs t u
  have hlast : t.endsWithSeparator = false := rfl
  have hparse : Tokens.parse ".:ext/(.:ext)/*".toList = .ok keys :=
    Tokens.parse_eq_ok_iff.2 ⟨rfl, rfl⟩
  have hkeys : Tokens.AreKeysOf pairs keys := ⟨by decide, .inr ⟨rfl, rfl⟩⟩
  have habsent : ∀ p ∈ pairs, ∀ g : Gap, g.filled [p.1, p.2] ≠ t.tokens := by
    have hholds : ∀ p ∈ pairs, Tokens.holdsPair p.1 p.2 t.tokens = false := by decide
    exact fun p hp => Tokens.holdsPair_eq_false_iff.1 (hholds p hp)
  have happend : t.append "/.:ext/(.:ext)/*" = .ok u :=
    append_eq_ok_iff.2 ⟨keys, hparse, by decide, rfl⟩
  exact ⟨hlast, hparse, hkeys, habsent, happend, erase_append hlast hparse hkeys habsent happend⟩

end Template

end RouteTemplate
