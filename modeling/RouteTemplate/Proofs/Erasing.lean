import RouteTemplate.Proofs.SoundTokens

namespace RouteTemplate

open Grammar

mutual

/-- Whether somewhere in a token the joiner stands right in front of the key. -/
def Token.holdsPair (joiner key : Token) : Token → Bool
  | .group inner => Tokens.holdsPair joiner key inner
  | _ => false

def Tokens.holdsPair (joiner key : Token) : List Token → Bool
  | [] => false
  | t :: ts =>
    Token.holdsPair joiner key t || decide (t = joiner ∧ ts.head? = some key) ||
      Tokens.holdsPair joiner key ts

end

/-- The second sequence is the first one without the first pair in it. -/
inductive FirstPairErased (joiner key : Token) : List Token → List Token → Prop where
  | pair {ts : List Token} : joiner.isGroup = false →
      FirstPairErased joiner key (joiner :: key :: ts) ts
  | emptied {inner ts : List Token} : FirstPairErased joiner key inner [] →
      FirstPairErased joiner key (.group inner :: ts) ts
  | inside {inner rest ts : List Token} : rest ≠ [] → FirstPairErased joiner key inner rest →
      FirstPairErased joiner key (.group inner :: ts) (.group rest :: ts)
  | behind {t : Token} {ts us : List Token} : Token.holdsPair joiner key t = false →
      ¬(t = joiner ∧ ts.head? = some key) → FirstPairErased joiner key ts us →
      FirstPairErased joiner key (t :: ts) (t :: us)

section

variable {joiner key : Token}

theorem Tokens.erasePair?_cons {t : Token} (h : t.isGroup = false) (ts : List Token) :
    erasePair? joiner key (t :: ts) =
      if t = joiner ∧ ts.head? = some key then some ts.tail
      else (erasePair? joiner key ts).map (t :: ·) := by
  cases t with
  | group inner => cases h
  | literal text | var name | splat name => rw [erasePair?]; simp

theorem Tokens.erasePair?_group_cons (inner ts : List Token) :
    erasePair? joiner key (.group inner :: ts) =
      match erasePair? joiner key inner with
      | some [] => some ts
      | some rest => some (.group rest :: ts)
      | none => (erasePair? joiner key ts).map (.group inner :: ·) := by
  rw [erasePair?, Token.erasePair?]
  rcases erasePair? joiner key inner with _ | ⟨_ | ⟨t, rest⟩⟩ <;> rfl

theorem Token.holdsPair_eq_false {t : Token} (h : t.isGroup = false) :
    holdsPair joiner key t = false := by
  cases t with
  | group inner => cases h
  | literal text | var name | splat name => rfl

theorem Token.group_ne_of_isGroup_eq_false {t : Token} (h : t.isGroup = false)
    (inner : List Token) : .group inner ≠ t := by
  rintro rfl
  cases h

theorem Tokens.erasePair?_eq_none_of_isGroup (hjoiner : joiner.isGroup = true) (ts : List Token) :
    erasePair? joiner key ts = none := by
  have hcons : ∀ {t : Token} {ts : List Token}, t.isGroup = false →
      erasePair? joiner key ts = none → erasePair? joiner key (t :: ts) = none := by
    intro t ts ht hts
    have hpair : ¬(t = joiner ∧ ts.head? = some key) := by
      rintro ⟨rfl, -⟩
      rw [ht] at hjoiner
      cases hjoiner
    rw [erasePair?_cons ht, if_neg hpair, hts, Option.map_none]
  induction ts using Tokens.induction with
  | nil => rfl
  | literal text ts ih => exact hcons rfl ih
  | var name ts ih => exact hcons rfl ih
  | splat name ts ih => exact hcons rfl ih
  | group inner ts hinner ih =>
    rw [erasePair?_group_cons, hinner, ih]
    rfl

theorem Tokens.erasePair?_cons_eq_none_iff {t : Token} {ts : List Token} (ht : t.isGroup = false)
    (ih : erasePair? joiner key ts = none ↔ holdsPair joiner key ts = false) :
    erasePair? joiner key (t :: ts) = none ↔ holdsPair joiner key (t :: ts) = false := by
  rw [erasePair?_cons ht, holdsPair, Token.holdsPair_eq_false ht, Bool.false_or,
    Bool.or_eq_false_iff, decide_eq_false_iff_not, ← ih]
  split <;> simp [*]

theorem Tokens.erasePair?_eq_none_iff (hjoiner : joiner.isGroup = false) {ts : List Token} :
    erasePair? joiner key ts = none ↔ holdsPair joiner key ts = false := by
  induction ts using Tokens.induction with
  | nil => exact iff_of_true rfl rfl
  | literal text ts ih => exact erasePair?_cons_eq_none_iff rfl ih
  | var name ts ih => exact erasePair?_cons_eq_none_iff rfl ih
  | splat name ts ih => exact erasePair?_cons_eq_none_iff rfl ih
  | group inner ts hinner ih =>
    have hne := Token.group_ne_of_isGroup_eq_false hjoiner inner
    rw [erasePair?_group_cons, holdsPair, Token.holdsPair, Bool.or_eq_false_iff,
      Bool.or_eq_false_iff, decide_eq_false_iff_not, ← hinner, ← ih]
    split <;> simp [*]

theorem FirstPairErased.isGroup_joiner {ts us : List Token}
    (h : FirstPairErased joiner key ts us) : joiner.isGroup = false := by
  induction h with
  | pair hjoiner => exact hjoiner
  | emptied _ ih => exact ih
  | inside _ _ ih => exact ih
  | behind _ _ _ ih => exact ih

theorem FirstPairErased.of_cons {t : Token} {ts us : List Token} (ht : t.isGroup = false)
    (ih : ∀ {us}, Tokens.erasePair? joiner key ts = some us → FirstPairErased joiner key ts us)
    (h : Tokens.erasePair? joiner key (t :: ts) = some us) :
    FirstPairErased joiner key (t :: ts) us := by
  rw [Tokens.erasePair?_cons ht] at h
  split at h
  case isTrue hpair =>
    obtain ⟨rfl, hkey⟩ := hpair
    obtain ⟨rest, rfl⟩ := List.head?_eq_some_iff.1 hkey
    cases h
    exact .pair ht
  case isFalse hpair =>
    obtain ⟨rest, hrest, rfl⟩ := Option.map_eq_some_iff.1 h
    exact .behind (Token.holdsPair_eq_false ht) hpair (ih hrest)

theorem Tokens.firstPairErased_of_erasePair? {ts us : List Token}
    (h : erasePair? joiner key ts = some us) : FirstPairErased joiner key ts us := by
  -- The scan passes over a group without a look at what follows it.
  have hjoiner : joiner.isGroup = false := by
    refine Bool.eq_false_iff.2 fun hgroup => ?_
    rw [erasePair?_eq_none_of_isGroup hgroup] at h
    cases h
  induction ts using Tokens.induction generalizing us with
  | nil => cases h
  | literal text ts ih => exact .of_cons rfl ih h
  | var name ts ih => exact .of_cons rfl ih h
  | splat name ts ih => exact .of_cons rfl ih h
  | group inner ts ihInner ih =>
    rw [erasePair?_group_cons] at h
    cases hinner : erasePair? joiner key inner with
    | none =>
      rw [hinner] at h
      obtain ⟨rest, hrest, rfl⟩ := Option.map_eq_some_iff.1 h
      refine .behind ((erasePair?_eq_none_iff hjoiner).1 hinner) ?_ (ih hrest)
      exact fun hpair => Token.group_ne_of_isGroup_eq_false hjoiner inner hpair.1
    | some rest =>
      rw [hinner] at h
      cases rest with
      | nil =>
        cases h
        exact .emptied (ihInner hinner)
      | cons t rest =>
        cases h
        exact .inside (List.cons_ne_nil t rest) (ihInner hinner)

/-- What is erased is the first pair, together with the groups that it leaves empty. -/
theorem Tokens.erasePair?_eq_some_iff {ts us : List Token} :
    erasePair? joiner key ts = some us ↔ FirstPairErased joiner key ts us := by
  refine ⟨firstPairErased_of_erasePair?, fun h => ?_⟩
  have hjoiner := h.isGroup_joiner
  induction h with
  | pair => rw [erasePair?_cons hjoiner, if_pos ⟨rfl, rfl⟩, List.tail_cons]
  | emptied _ ih => rw [erasePair?_group_cons, ih]
  | @inside inner rest ts hne _ ih =>
    obtain ⟨t, rest, rfl⟩ := List.exists_cons_of_ne_nil hne
    rw [erasePair?_group_cons, ih]
  | @behind t ts us hinside hpair _ ih =>
    cases t with
    | group inner =>
      rw [erasePair?_group_cons, (erasePair?_eq_none_iff hjoiner).2 hinside, ih]
      rfl
    | literal text | var name | splat name =>
      rw [erasePair?_cons rfl, if_neg hpair, ih, Option.map_some]

namespace FirstPairErased

variable {ts us : List Token}

theorem areSound (h : FirstPairErased joiner key ts us) (hts : Tokens.areSound ts = true) :
    Tokens.areSound us = true := by
  induction h with
  | pair => exact (Bool.and_eq_true_iff.1 (Bool.and_eq_true_iff.1 hts).2).2
  | emptied => exact (Bool.and_eq_true_iff.1 hts).2
  | inside _ _ ih =>
    obtain ⟨hinner, hts⟩ := Bool.and_eq_true_iff.1 hts
    exact Bool.and_eq_true_iff.2 ⟨ih hinner, hts⟩
  | behind _ _ _ ih =>
    obtain ⟨ht, hts⟩ := Bool.and_eq_true_iff.1 hts
    exact Bool.and_eq_true_iff.2 ⟨ht, ih hts⟩

theorem depth_le (h : FirstPairErased joiner key ts us) : Tokens.depth us ≤ Tokens.depth ts := by
  induction h with
  | pair => simp only [Tokens.depth]; omega
  | emptied => simp only [Tokens.depth]; omega
  | inside => simp only [Tokens.depth, Token.depth]; omega
  | behind => simp only [Tokens.depth]; omega

theorem choicePoints_le (h : FirstPairErased joiner key ts us) :
    Tokens.choicePoints us ≤ Tokens.choicePoints ts := by
  induction h with
  | pair => simp only [Tokens.choicePoints]; omega
  | emptied => simp only [Tokens.choicePoints]; omega
  | inside => simp only [Tokens.choicePoints, Token.choicePoints]; omega
  | behind => simp only [Tokens.choicePoints]; omega

theorem head?_any_eq_false (h : FirstPairErased joiner key ts us) (hkey : key.isJoiner = false)
    (hts : Tokens.areSetOff ts = true) (hhead : ts.head?.any Token.isLiteralRun = false) :
    us.head?.any Token.isLiteralRun = false := by
  cases h with
  | pair =>
    obtain ⟨-, -, hbehind⟩ := Tokens.areSetOff_cons_iff.1 hts
    -- The key is no joiner, so no run stands behind it, and none behind a group.
    exact (Tokens.areSetOff_cons_iff.1 hbehind).2.1 hkey
  | emptied => exact (Tokens.areSetOff_cons_iff.1 hts).2.1 rfl
  | inside => rfl
  | behind => exact hhead

/-- Runs that are set off stay so: what comes to stand behind the gap is no run. -/
theorem areSetOff (h : FirstPairErased joiner key ts us) (hkey : key.isJoiner = false)
    (hts : Tokens.areSetOff ts = true) : Tokens.areSetOff us = true := by
  induction h with
  | pair =>
    obtain ⟨-, -, hbehind⟩ := Tokens.areSetOff_cons_iff.1 hts
    exact (Tokens.areSetOff_cons_iff.1 hbehind).2.2
  | emptied => exact (Tokens.areSetOff_cons_iff.1 hts).2.2
  | inside _ _ ih =>
    obtain ⟨hinner, hnext, hts⟩ := Tokens.areSetOff_cons_iff.1 hts
    exact Tokens.areSetOff_cons_iff.2 ⟨ih hinner, fun _ => hnext rfl, hts⟩
  | behind _ _ hrest ih =>
    obtain ⟨ht, hnext, hts⟩ := Tokens.areSetOff_cons_iff.1 hts
    exact Tokens.areSetOff_cons_iff.2
      ⟨ht, fun hjoiner => hrest.head?_any_eq_false hkey hts (hnext hjoiner), ih hts⟩

end FirstPairErased

end

theorem Tokens.isJoiner_of_mem_keyPairs {joiner : Token} (hjoiner : joiner.isJoiner = true)
    {ts : List Token} {p : Token × Token} (h : p ∈ keyPairs joiner ts) :
    p.1.isJoiner = true ∧ p.2.isJoiner = false := by
  induction ts generalizing joiner with
  | nil => cases h
  | cons t ts ih =>
    rw [keyPairs] at h
    split at h
    case isTrue ht => exact ih ht h
    case isFalse hkey =>
      cases h with
      | head => exact ⟨hjoiner, Bool.eq_false_iff.2 hkey⟩
      | tail _ hmem => exact ih rfl hmem

/-- What is kept when a single pair goes is kept when many go, one after the other. -/
theorem Tokens.erasePairs_induction {P : List Token → Prop} {pairs : List (Token × Token)}
    (step : ∀ p ∈ pairs, ∀ {ts us}, FirstPairErased p.1 p.2 ts us → P ts → P us) {ts : List Token}
    (h : P ts) : P (erasePairs ts pairs) := by
  induction pairs generalizing ts with
  | nil => exact h
  | cons p pairs ih =>
    rw [erasePairs, List.foldl_cons]
    refine ih (fun q hq => step q (List.mem_cons_of_mem p hq)) ?_
    cases hp : erasePair? p.1 p.2 ts with
    | none => exact h
    | some us => exact step p List.mem_cons_self (erasePair?_eq_some_iff.1 hp) h

namespace Template

theorem erase_eq_ok_iff {t u : Template} {fragments : String} :
    t.erase fragments = .ok u ↔ ∃ keys,
      Tokens.parse (withoutLeadingSeparator fragments.toList) = .ok keys ∧
      ⟨Tokens.erasePairs t.tokens (Tokens.keyPairs .separator keys)⟩ = u := by
  rw [erase]
  cases Tokens.parse (withoutLeadingSeparator fragments.toList) with
  | error e => simp [bind, Except.bind]
  | ok keys => simp [bind, Except.bind, pure, Except.pure]

theorem erase_induction {P : List Token → Prop}
    (step : ∀ {joiner key ts us}, key.isJoiner = false → FirstPairErased joiner key ts us →
      P ts → P us)
    {t u : Template} {fragments : String} (ht : P t.tokens) (hu : t.erase fragments = .ok u) :
    P u.tokens := by
  obtain ⟨keys, -, rfl⟩ := erase_eq_ok_iff.1 hu
  exact Tokens.erasePairs_induction (fun p hp => step (Tokens.isJoiner_of_mem_keyPairs rfl hp).2) ht

theorem IsSound.erase {t u : Template} {fragments : String} (ht : t.IsSound)
    (hu : t.erase fragments = .ok u) : u.IsSound := by
  refine erase_induction (P := fun ts => IsSound ⟨ts⟩) (fun _ hpair hts => ?_) ht hu
  exact ⟨hpair.areSound hts.areSound_tokens, hpair.depth_le.trans hts.depth_le,
    hpair.choicePoints_le.trans hts.choicePoints_le⟩

theorem areSetOff_of_erase {t u : Template} {fragments : String}
    (ht : Tokens.areSetOff t.tokens = true)
    (hu : t.erase fragments = .ok u) : Tokens.areSetOff u.tokens = true :=
  erase_induction (fun hkey hpair hts => hpair.areSetOff hkey hts) ht hu

/-- What is left can always be read, and it is read as what it is just if no tokens run together. -/
theorem parse_text_of_erase {text fragments : String} {t u : Template} (ht : parse text = .ok t)
    (hu : t.erase fragments = .ok u) :
    (∃ v, parse u.text = .ok v ∧ v.text = u.text) ∧
      (parse u.text = .ok u ↔ Tokens.standApart u.tokens = true) ∧
      (Tokens.areSetOff t.tokens = true → parse u.text = .ok u) := by
  have hsound := (isSound_of_parse ht).erase hu
  refine ⟨hsound.exists_parse, hsound.parse_text_eq_ok_iff, fun hset => ?_⟩
  exact hsound.parse_text_eq_ok_iff.2 (Tokens.standApart_of_areSetOff (areSetOff_of_erase hset hu))

theorem parse_text_of_erase_emptied_group :
    let t : Template := ⟨[.literal "/", .literal "blog", .literal "/", .var "year",
      .group [.literal "/", .var "month"], .literal ".", .literal "html"]⟩
    let u : Template := ⟨[.literal "/", .literal "blog", .literal "/", .var "year", .literal ".",
      .literal "html"]⟩
    parse "/blog/:year(/:month).html" = .ok t ∧ t.erase "/:month" = .ok u ∧
      Tokens.areSetOff t.tokens = true ∧ parse u.text = .ok u := by
  intro t u
  have ht : parse "/blog/:year(/:month).html" = .ok t := parse_eq_ok_iff.2 ⟨rfl, rfl⟩
  have hu : t.erase "/:month" = .ok u :=
    erase_eq_ok_iff.2 ⟨[.var "month"], Tokens.parse_eq_ok_iff.2 ⟨rfl, rfl⟩, rfl⟩
  have hset : Tokens.areSetOff t.tokens = true := by decide
  exact ⟨ht, hu, hset, (parse_text_of_erase ht hu).2.2 hset⟩

/-- The literals on both sides of the erased pair are read as a single one. -/
theorem parse_text_of_erase_run_together :
    let t : Template := ⟨[.literal "/", .literal "foo", .literal "/", .var "id", .literal "-edit"]⟩
    let u : Template := ⟨[.literal "/", .literal "foo", .literal "-edit"]⟩
    parse "/foo/:id-edit" = .ok t ∧ t.erase ":id" = .ok u ∧
      parse u.text = .ok ⟨[.literal "/", .literal "foo-edit"]⟩ ∧ parse u.text ≠ .ok u := by
  intro t u
  have ht : parse "/foo/:id-edit" = .ok t := parse_eq_ok_iff.2 ⟨rfl, rfl⟩
  have hu : t.erase ":id" = .ok u :=
    erase_eq_ok_iff.2 ⟨[.var "id"], Tokens.parse_eq_ok_iff.2 ⟨rfl, rfl⟩, rfl⟩
  have hread : parse u.text = .ok ⟨[.literal "/", .literal "foo-edit"]⟩ :=
    parse_eq_ok_iff.2 ⟨rfl, rfl⟩
  refine ⟨ht, hu, hread, ?_⟩
  rw [hread]
  decide

end Template

end RouteTemplate
