import RouteTemplate.Proofs.Renaming
import RouteTemplate.Proofs.Visible

namespace RouteTemplate

theorem Tokens.renamed_some (ts : List Token) : renamed some ts = ts := by
  induction ts using Tokens.induction with
  | nil => rfl
  | literal text ts ih => rw [renamed, Token.renamed, ih]
  | var name ts ih => rw [renamed, Token.renamed, ih, Option.bind_fun_some]
  | splat name ts ih => rw [renamed, Token.renamed, ih, Option.bind_fun_some]
  | group inner ts hinner ih => rw [renamed, Token.renamed, ih, hinner]

theorem FormatError.renamed_id (e : FormatError) : e.renamed id = e := by
  cases e <;> rfl

section

variable {b c : Bindings} {ts : List Token}

theorem satisfies_congr (h : ∀ n ∈ Tokens.names ts, b.get? n = c.get? n) :
    b.satisfies ts = c.satisfies ts := by
  have hid : ∀ n ∈ Tokens.names ts, b.get? (id n) = c.get? n := h
  have hkept : Tokens.renamed (fun n => some (id n)) ts = ts := Tokens.renamed_some ts
  rw [← satisfies_renamed hid, hkept]

theorem Tokens.rendered_congr (h : ∀ n ∈ names ts, b.get? n = c.get? n) :
    rendered b ts = rendered c ts := by
  have hid : ∀ n ∈ names ts, b.get? (id n) = c.get? n := h
  have hkept : renamed (fun n => some (id n)) ts = ts := renamed_some ts
  have hrenamed := rendered_renamed hid
  rw [hkept] at hrenamed
  rw [hrenamed]
  cases rendered c ts with
  | ok text => rfl
  | error e => exact congrArg Except.error e.renamed_id

end

mutual

theorem Token.names_subset_of_mem_leaves : {t : Token} → (groups : List (List Token)) →
    {leaf : Leaf} → leaf ∈ t.leaves groups →
    ∀ inner ∈ leaf.groups, inner ∈ groups ∨ Tokens.names inner ⊆ t.names
  | .literal _, _, _, h, _, hinner => by
    obtain rfl := List.mem_singleton.1 h
    exact .inl hinner
  | .var _, _, _, h, _, hinner => by
    obtain rfl := List.mem_singleton.1 h
    exact .inl hinner
  | .splat _, _, _, h, _, hinner => by
    obtain rfl := List.mem_singleton.1 h
    exact .inl hinner
  | .group front, groups, _, h, inner, hinner => by
    rcases Tokens.names_subset_of_mem_leaves (front :: groups) h inner hinner with hgroups | hnames
    · rcases List.mem_cons.1 hgroups with rfl | hgroups
      · exact .inr (List.Subset.refl _)
      · exact .inl hgroups
    · exact .inr hnames

/-- A group around a leaf of some tokens is one around the tokens, or all its names are theirs. -/
theorem Tokens.names_subset_of_mem_leaves : {ts : List Token} → (groups : List (List Token)) →
    {leaf : Leaf} → leaf ∈ Tokens.leaves groups ts →
    ∀ inner ∈ leaf.groups, inner ∈ groups ∨ Tokens.names inner ⊆ Tokens.names ts
  | t :: ts, groups, _, h, inner, hinner => by
    rcases List.mem_append.1 h with h | h
    · exact (Token.names_subset_of_mem_leaves groups h inner hinner).imp_right
        (List.subset_append_of_subset_left _)
    · exact (Tokens.names_subset_of_mem_leaves groups h inner hinner).imp_right
        (List.subset_append_of_subset_right _)

end

namespace Template

variable {t : Template} {b c : Bindings}

theorem format_congr (h : ∀ n ∈ t.names, b.get? n = c.get? n) : t.format b = t.format c := by
  rw [format, format, Tokens.rendered_congr h]

theorem isVisible_congr (h : ∀ n ∈ t.names, b.get? n = c.get? n) {leaf : Leaf}
    (hleaf : leaf ∈ t.leaves) : leaf.isVisible b = leaf.isVisible c := by
  have hgroups : ∀ inner ∈ leaf.groups, b.satisfies inner = c.satisfies inner := by
    intro inner hinner
    rcases Tokens.names_subset_of_mem_leaves [] hleaf inner hinner with hnil | hnames
    · cases hnil
    · exact satisfies_congr fun n hn => h n (hnames hn)
  rw [Leaf.isVisible_eq, Leaf.isVisible_eq, Bool.eq_iff_iff, List.all_eq_true, List.all_eq_true]
  exact forall₂_congr fun inner hinner => by rw [hgroups inner hinner]

/-- Only the values of the names in a template decide what it is filled in to. -/
theorem format_eq_of_get?_eq (t : Template) :
    (∀ b c : Bindings, (∀ n ∈ t.names, b.get? n = c.get? n) →
      t.format b = t.format c ∧ ∀ leaf ∈ t.leaves, leaf.isVisible b = leaf.isVisible c) ∧
    ∀ (b : Bindings) (extra : List (String × Value)), (∀ e ∈ extra, e.1 ∉ t.names) →
      t.format (b.insertMany extra) = t.format b ∧
        ∀ leaf ∈ t.leaves, leaf.isVisible (b.insertMany extra) = leaf.isVisible b := by
  have hagree : ∀ b c : Bindings, (∀ n ∈ t.names, b.get? n = c.get? n) →
      t.format b = t.format c ∧ ∀ leaf ∈ t.leaves, leaf.isVisible b = leaf.isVisible c :=
    fun b c h => ⟨format_congr h, fun leaf hleaf => isVisible_congr h hleaf⟩
  refine ⟨hagree, fun b extra hextra => hagree _ b fun n hn => ?_⟩
  apply Bindings.get?_insertMany_of_notMem
  intro hmem
  obtain ⟨e, he, rfl⟩ := List.mem_map.1 hmem
  exact hextra e he hn

theorem format_eq_of_get?_eq_nested :
    let t : Template :=
      ⟨[.literal "/", .group [.literal "a", .group [.literal "/", .var "x"], .splat "y"],
      .var "z"]⟩
    let b := Bindings.ofList [("y", .many ["s", "t"]), ("z", .one "v"), ("u", .one "k")]
    let c := Bindings.ofList [("w", .many []), ("z", .one "v"), ("y", .many ["s", "t"])]
    (∀ n ∈ t.names, b.get? n = c.get? n) ∧ t.format b = t.format c ∧
      (∀ leaf ∈ t.leaves, leaf.isVisible b = leaf.isVisible c) ∧
      (∀ e ∈ [("w", Value.one "l")], e.1 ∉ t.names) ∧
      t.format (b.insertMany [("w", .one "l")]) = .ok "/as/tv" := by
  intro t b c
  have hagree : ∀ n ∈ t.names, b.get? n = c.get? n := by decide
  have hextra : ∀ e ∈ [("w", Value.one "l")], e.1 ∉ t.names := by decide
  have hformat : t.format b = .ok "/as/tv" := rfl
  obtain ⟨hsame, hmore⟩ := format_eq_of_get?_eq t
  exact ⟨hagree, (hsame b c hagree).1, (hsame b c hagree).2, hextra,
    (hmore b _ hextra).1.trans hformat⟩

end Template

end RouteTemplate
