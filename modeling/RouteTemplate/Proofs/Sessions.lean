import RouteTemplate.Proofs.Erasing

namespace RouteTemplate

inductive Edit where
  | append (fragment : String)
  | erase (fragments : String)
deriving DecidableEq, Repr

namespace Template

def edit (t : Template) : Edit → Except ParseError Template
  | .append fragment => t.append fragment
  | .erase fragments => t.erase fragments

/-- An edit that cannot be made leaves the template as it is. -/
def edited (t : Template) (edits : List Edit) : Template :=
  edits.foldl (fun t e => (t.edit e).toOption.getD t) t

theorem edited_cons_of_ok {t u : Template} {e : Edit} (h : t.edit e = .ok u) (edits : List Edit) :
    t.edited (e :: edits) = u.edited edits := by
  rw [edited, List.foldl_cons, h]
  rfl

theorem edited_cons_of_error {t : Template} {e : Edit} {err : ParseError}
    (h : t.edit e = .error err) (edits : List Edit) : t.edited (e :: edits) = t.edited edits := by
  rw [edited, List.foldl_cons, h]
  rfl

theorem IsSound.edit {t u : Template} {e : Edit} (ht : t.IsSound) (hu : t.edit e = .ok u) :
    u.IsSound := by
  cases e with
  | append fragment => exact ht.append hu
  | erase fragments => exact ht.erase hu

theorem IsSound.edited {t : Template} (ht : t.IsSound) (edits : List Edit) :
    (t.edited edits).IsSound := by
  induction edits generalizing t with
  | nil => exact ht
  | cons e edits ih =>
    cases hu : t.edit e with
    | error err =>
      rw [edited_cons_of_error hu]
      exact ih ht
    | ok u =>
      rw [edited_cons_of_ok hu]
      exact ih (ht.edit hu)

/-- Each template of a session that begins with a text is sound. -/
theorem isSound_edited {text : String} {t : Template} (h : parse text = .ok t) (edits : List Edit) :
    (t.edited edits).IsSound ∧
      ∃ u, parse (t.edited edits).text = .ok u ∧ u.text = (t.edited edits).text :=
  have hsound := (isSound_of_parse h).edited edits
  ⟨hsound, hsound.exists_parse⟩

theorem isSound_edited_run_together :
    let t : Template := ⟨[.literal "/", .literal "foo", .literal "/", .var "id", .literal "-edit"]⟩
    let edits : List Edit := [.erase ":id", .append "(bar", .append ".:ext"]
    let u : Template := ⟨[.literal "/", .literal "foo", .literal "-edit", .literal ".", .var "ext"]⟩
    parse "/foo/:id-edit" = .ok t ∧ t.edited edits = u ∧ u.IsSound ∧
      ∃ v, parse u.text = .ok v ∧ v.text = u.text := by
  intro t edits u
  let erased : Template := ⟨[.literal "/", .literal "foo", .literal "-edit"]⟩
  have ht : parse "/foo/:id-edit" = .ok t := parse_eq_ok_iff.2 ⟨rfl, rfl⟩
  have herase : t.edit (.erase ":id") = .ok erased :=
    erase_eq_ok_iff.2 ⟨[.var "id"], Tokens.parse_eq_ok_iff.2 ⟨rfl, rfl⟩, rfl⟩
  have hopen : erased.edit (.append "(bar") = .error (.unclosedGroup 0) :=
    append_error (errorOf?_eq_some_iff.1 (errorOf?_parse "(bar"))
  have happend : erased.edit (.append ".:ext") = .ok u :=
    append_eq_ok_iff.2
      ⟨[.literal ".", .var "ext"], Tokens.parse_eq_ok_iff.2 ⟨rfl, rfl⟩, by decide, rfl⟩
  have hedited : t.edited edits = u := by
    rw [edited_cons_of_ok herase, edited_cons_of_error hopen, edited_cons_of_ok happend]
    rfl
  have hsound := isSound_edited ht edits
  rw [hedited] at hsound
  exact ⟨ht, hedited, hsound⟩

end Template

end RouteTemplate
