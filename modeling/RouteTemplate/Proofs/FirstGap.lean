import RouteTemplate.Proofs.Erasing
import RouteTemplate.Token.Gap

namespace RouteTemplate

section

variable {joiner key : Token}

/-- The gap in which a pair stands comes first of all, or in the first group, or later. -/
theorem Gap.cases_filled_eq_cons {t : Token} {ts : List Token} {g : Gap}
    (h : g.filled [joiner, key] = t :: ts) :
    (∃ back, g = .here [] back ∧ joiner = t ∧ key :: back = ts) ∨
      (∃ gap, g = .inside [] gap ts ∧ .group (gap.filled [joiner, key]) = t) ∨
      ∃ rest : Gap, g = rest.behind t ∧ rest.filled [joiner, key] = ts := by
  cases g with
  | here front back =>
    cases front with
    | nil =>
      obtain ⟨ht, hts⟩ := List.cons.inj h
      exact .inl ⟨back, rfl, ht, hts⟩
    | cons u front =>
      obtain ⟨rfl, hts⟩ := List.cons.inj h
      exact .inr (.inr ⟨.here front back, rfl, hts⟩)
  | inside front gap back =>
    cases front with
    | nil =>
      obtain ⟨ht, rfl⟩ := List.cons.inj h
      exact .inr (.inl ⟨gap, rfl, ht⟩)
    | cons u front =>
      obtain ⟨rfl, hts⟩ := List.cons.inj h
      exact .inr (.inr ⟨.inside front gap back, rfl, hts⟩)

theorem Gap.filled_ne_nil (g : Gap) : g.filled [joiner, key] ≠ [] := by
  cases g <;> simp [filled]

theorem Tokens.holdsPair_cons_eq_false_iff {t : Token} {ts : List Token}
    (ht : Token.holdsPair joiner key t = false ↔
      ∀ gap : Gap, .group (gap.filled [joiner, key]) ≠ t)
    (hts : holdsPair joiner key ts = false ↔ ∀ g : Gap, g.filled [joiner, key] ≠ ts) :
    holdsPair joiner key (t :: ts) = false ↔ ∀ g : Gap, g.filled [joiner, key] ≠ t :: ts := by
  rw [holdsPair, Bool.or_eq_false_iff, Bool.or_eq_false_iff, decide_eq_false_iff_not, ht, hts]
  constructor
  · rintro ⟨⟨hinside, hpair⟩, hbehind⟩ g hg
    rcases Gap.cases_filled_eq_cons hg with ⟨back, -, rfl, rfl⟩ | ⟨gap, -, hgap⟩ | ⟨rest, -, hrest⟩
    · exact hpair ⟨rfl, rfl⟩
    · exact hinside gap hgap
    · exact hbehind rest hrest
  · intro h
    refine ⟨⟨fun gap hgap => ?_, fun hpair => ?_⟩, fun rest hrest => ?_⟩
    · exact h (.inside [] gap ts) (by rw [Gap.filled, hgap, List.nil_append])
    · obtain ⟨rfl, hkey⟩ := hpair
      obtain ⟨back, rfl⟩ := List.head?_eq_some_iff.1 hkey
      exact h (.here [] back) rfl
    · exact h (rest.behind t) (by rw [Gap.filled_behind, hrest])

/-- A sequence holds a pair just if it has a gap in which the pair stands. -/
theorem Tokens.holdsPair_eq_false_iff {ts : List Token} :
    holdsPair joiner key ts = false ↔ ∀ g : Gap, g.filled [joiner, key] ≠ ts := by
  induction ts using Tokens.induction with
  | nil => exact iff_of_true rfl Gap.filled_ne_nil
  | literal text ts ih => exact holdsPair_cons_eq_false_iff (by simp [Token.holdsPair]) ih
  | var name ts ih => exact holdsPair_cons_eq_false_iff (by simp [Token.holdsPair]) ih
  | splat name ts ih => exact holdsPair_cons_eq_false_iff (by simp [Token.holdsPair]) ih
  | group inner ts hinner ih =>
    exact holdsPair_cons_eq_false_iff (by simp [Token.holdsPair, hinner]) ih

theorem Gap.isBefore_behind_of_address {g : Gap} {below : List Nat} (hg : g.address = 0 :: below)
    (h : Gap) (t : Token) : g.IsBefore (h.behind t) := by
  obtain ⟨n, below', -, hbehind⟩ := exists_address_behind t h
  rw [IsBefore, hg, hbehind]
  exact .rel (Nat.succ_pos n)

namespace Gap.IsFirst

theorem here (hjoiner : joiner.isGroup = false) (ts : List Token) :
    (Gap.here [] ts).IsFirst [joiner, key] (joiner :: key :: ts) := by
  refine ⟨rfl, fun h hh hne => ?_⟩
  rcases cases_filled_eq_cons hh with ⟨back, rfl, -, hback⟩ | ⟨gap, -, hgap⟩ | ⟨rest, rfl, -⟩
  · obtain rfl := List.tail_eq_of_cons_eq hback
    contradiction
  · exact absurd hgap (Token.group_ne_of_isGroup_eq_false hjoiner _)
  · exact isBefore_behind_of_address rfl rest joiner

theorem inside (hjoiner : joiner.isGroup = false) {gap : Gap} {inner : List Token}
    (hgap : gap.IsFirst [joiner, key] inner) (ts : List Token) :
    (Gap.inside [] gap ts).IsFirst [joiner, key] (.group inner :: ts) := by
  refine ⟨by rw [filled, hgap.filled_eq, List.nil_append], fun h hh hne => ?_⟩
  rcases cases_filled_eq_cons hh with ⟨back, -, hgroup, -⟩ | ⟨other, rfl, hother⟩ | ⟨rest, rfl, -⟩
  · exact absurd hgroup.symm (Token.group_ne_of_isGroup_eq_false hjoiner _)
  · have hne : other ≠ gap := by
      rintro rfl
      contradiction
    exact .cons (hgap.isBefore other (Token.group.inj hother) hne)
  · exact isBefore_behind_of_address rfl rest _

theorem behind {t : Token} {ts : List Token} {g : Gap}
    (hinside : Token.holdsPair joiner key t = false)
    (hpair : ¬(t = joiner ∧ ts.head? = some key)) (hg : g.IsFirst [joiner, key] ts) :
    (g.behind t).IsFirst [joiner, key] (t :: ts) := by
  refine ⟨by rw [filled_behind, hg.filled_eq], fun h hh hne => ?_⟩
  rcases cases_filled_eq_cons hh with ⟨back, -, rfl, rfl⟩ | ⟨gap, -, rfl⟩ | ⟨rest, rfl, hrest⟩
  · exact absurd ⟨rfl, rfl⟩ hpair
  · exact absurd rfl (Tokens.holdsPair_eq_false_iff.1 hinside gap)
  · have hne : rest ≠ g := by
      rintro rfl
      contradiction
    exact (hg.isBefore rest hrest hne).behind t

end Gap.IsFirst

/-- The sequence without its first pair is the one in which the first gap of the pair is closed. -/
theorem FirstPairErased.exists_gap {ts us : List Token} (h : FirstPairErased joiner key ts us) :
    ∃ g : Gap, g.IsFirst [joiner, key] ts ∧ g.closed = us := by
  have hjoiner := h.isGroup_joiner
  -- Each rule puts the gap one step further in or back; what it rules out is an earlier gap.
  induction h with
  | @pair ts _ => exact ⟨.here [] ts, .here hjoiner ts, rfl⟩
  | @emptied inner ts _ ih =>
    obtain ⟨gap, hgap, hclosed⟩ := ih
    exact ⟨.inside [] gap ts, .inside hjoiner hgap ts, by simp [Gap.closed, hclosed]⟩
  | @inside inner rest ts hne _ ih =>
    obtain ⟨gap, hgap, rfl⟩ := ih
    exact ⟨.inside [] gap ts, .inside hjoiner hgap ts, by simp [Gap.closed, hne]⟩
  | @behind t ts us hinside hpair _ ih =>
    obtain ⟨g, hg, rfl⟩ := ih
    exact ⟨g.behind t, hg.behind hinside hpair, Gap.closed_behind t g⟩

theorem Tokens.erasePair?_eq_none_iff_gap (hjoiner : joiner.isGroup = false) {ts : List Token} :
    erasePair? joiner key ts = none ↔ ∀ g : Gap, g.filled [joiner, key] ≠ ts := by
  rw [erasePair?_eq_none_iff hjoiner, holdsPair_eq_false_iff]

theorem Tokens.erasePair?_eq_some_iff_gap (hjoiner : joiner.isGroup = false) {ts us : List Token} :
    erasePair? joiner key ts = some us ↔ ∃ g : Gap, g.IsFirst [joiner, key] ts ∧ g.closed = us := by
  constructor
  · intro h
    exact (erasePair?_eq_some_iff.1 h).exists_gap
  · rintro ⟨g, hg, rfl⟩
    cases h : erasePair? joiner key ts with
    | none => exact absurd hg.filled_eq ((erasePair?_eq_none_iff_gap hjoiner).1 h g)
    | some us =>
      obtain ⟨g', hg', rfl⟩ := (erasePair?_eq_some_iff.1 h).exists_gap
      rw [hg'.unique hg]

theorem FirstPairErased.flatLength_lt {ts us : List Token} (h : FirstPairErased joiner key ts us) :
    Tokens.flatLength us < Tokens.flatLength ts := by
  induction h with
  | pair => simp only [Tokens.flatLength]; omega
  | emptied => simp only [Tokens.flatLength]; omega
  | inside => simp only [Tokens.flatLength, Token.span]; omega
  | behind => simp only [Tokens.flatLength]; omega

end

theorem Tokens.flatLength_erasePairs_le (ts : List Token) (pairs : List (Token × Token)) :
    flatLength (erasePairs ts pairs) ≤ flatLength ts :=
  erasePairs_induction (P := fun us => flatLength us ≤ flatLength ts)
    (fun _ _ {_ _} h hle => Nat.le_trans (Nat.le_of_lt h.flatLength_lt) hle) (Nat.le_refl _)

/-- To erase pairs changes nothing just if none of them stands in the sequence. Groups in front of
keys do not count, as they are gone through instead. -/
theorem Tokens.erasePairs_eq_self_iff {ts : List Token} {pairs : List (Token × Token)} :
    erasePairs ts pairs = ts ↔
      ∀ p ∈ pairs, p.1.isGroup = false → ∀ g : Gap, g.filled [p.1, p.2] ≠ ts := by
  induction pairs with
  | nil => simp [erasePairs]
  | cons p pairs ih =>
    have hnone : erasePair? p.1 p.2 ts = none ↔
        (p.1.isGroup = false → ∀ g : Gap, g.filled [p.1, p.2] ≠ ts) := by
      cases hjoiner : p.1.isGroup with
      | true => simp [erasePair?_eq_none_of_isGroup hjoiner]
      | false => simp [erasePair?_eq_none_iff_gap hjoiner]
    rw [List.forall_mem_cons, ← ih, ← hnone, erasePairs, List.foldl_cons, ← erasePairs]
    cases h : erasePair? p.1 p.2 ts with
    | none => simp
    | some us =>
      have hlt := (erasePair?_eq_some_iff.1 h).flatLength_lt
      have hle := flatLength_erasePairs_le us pairs
      simp only [Option.getD_some, reduceCtorEq, false_and, iff_false]
      intro heq
      rw [heq] at hle
      omega

namespace Template

/-- To erase a pair is to close the first gap in which it stands. -/
theorem erase_closes_first_gap (t : Template) :
    (∀ joiner key, joiner.isJoiner = true →
      (Tokens.erasePair? joiner key t.tokens = none ↔
          ∀ g : Gap, g.filled [joiner, key] ≠ t.tokens) ∧
        ∀ us, Tokens.erasePair? joiner key t.tokens = some us ↔
          ∃ g : Gap, g.IsFirst [joiner, key] t.tokens ∧ g.closed = us) ∧
      (∀ pairs, Tokens.erasePairs t.tokens pairs = t.tokens ↔
        ∀ p ∈ pairs, p.1.isGroup = false → ∀ g : Gap, g.filled [p.1, p.2] ≠ t.tokens) ∧
      ∀ fragments, t.erase fragments = .ok t ↔ ∃ keys,
        Tokens.parse (withoutLeadingSeparator fragments.toList) = .ok keys ∧
        ∀ p ∈ Tokens.keyPairs .separator keys, ∀ g : Gap, g.filled [p.1, p.2] ≠ t.tokens := by
  refine ⟨fun joiner key hjoiner => ?_, fun pairs => Tokens.erasePairs_eq_self_iff,
    fun fragments => ?_⟩
  · have hgroup := Token.isGroup_eq_false_of_isJoiner hjoiner
    exact ⟨Tokens.erasePair?_eq_none_iff_gap hgroup,
      fun us => Tokens.erasePair?_eq_some_iff_gap hgroup⟩
  · obtain ⟨ts⟩ := t
    have hpairs : ∀ keys,
        Tokens.erasePairs ts (Tokens.keyPairs .separator keys) = ts ↔
          ∀ p ∈ Tokens.keyPairs .separator keys, ∀ g : Gap, g.filled [p.1, p.2] ≠ ts := by
      intro keys
      refine Tokens.erasePairs_eq_self_iff.trans (forall₂_congr fun p hp => ?_)
      have hjoiner := (Tokens.isJoiner_of_mem_keyPairs rfl hp).1
      simp [Token.isGroup_eq_false_of_isJoiner hjoiner]
    simp only [erase_eq_ok_iff, ← hpairs, mk.injEq]

theorem erase_closes_first_gap_inside :
    let key : Token := .var "id"
    let t : Template := ⟨[.literal "/", .literal "files",
      .group [.literal "/", .literal "blog", .group [.separator, key]], .separator, key]⟩
    let us : List Token := [.literal "/", .literal "files", .group [.literal "/", .literal "blog"],
      .separator, key]
    Token.separator.isJoiner = true ∧ Tokens.erasePair? .separator key t.tokens = some us ∧
      (∃ g : Gap, g.IsFirst [.separator, key] t.tokens ∧ g.closed = us) ∧
      t.erase ".:id" = .ok t := by
  intro key t us
  have hjoiner : Token.separator.isJoiner = true := rfl
  have herase : Tokens.erasePair? .separator key t.tokens = some us := rfl
  obtain ⟨hpair, -, hfragments⟩ := erase_closes_first_gap t
  refine ⟨hjoiner, herase, ((hpair .separator key hjoiner).2 us).1 herase, (hfragments ".:id").2 ?_⟩
  refine ⟨[.extension, key], Tokens.parse_eq_ok_iff.2 ⟨rfl, rfl⟩, ?_⟩
  exact List.forall_mem_singleton.2 ((hpair .extension key rfl).1.1 rfl)

end Template

end RouteTemplate
