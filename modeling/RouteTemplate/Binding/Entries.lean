namespace RouteTemplate

/-- What a name is bound to. -/
inductive Value where
  | one (text : String)
  | many (texts : List String)
deriving DecidableEq, Repr

namespace Value

def text? : Value → Option String
  | one text => some text
  | many _ => none

def texts? : Value → Option (List String)
  | one _ => none
  | many texts => some texts

def render : Value → String
  | one text => text
  | many texts => "/".intercalate texts

instance : ToString Value := ⟨render⟩

/-- A list is no text, even if it renders as one. -/
def isText (v : Value) (text : String) : Bool := v.text? == some text

def ofChar (c : Char) : Value := one c.toString

def ofBool (b : Bool) : Value := one (if b then "true" else "false")

def ofInt (i : Int) : Value := one (toString i)

end Value

abbrev Ascending (entries : List (String × Value)) : Prop :=
  entries.Pairwise fun x y => x.1 < y.1

/-- Writes an entry at its place in the order, and returns the value it replaces. -/
def writeEntry (name : String) (value : Value) :
    List (String × Value) → Option Value × List (String × Value)
  | [] => (none, [(name, value)])
  | e :: es =>
    if name < e.1 then (none, (name, value) :: e :: es)
    else if name = e.1 then (some e.2, (name, value) :: es)
    else
      let rest := writeEntry name value es
      (rest.1, e :: rest.2)

theorem fst_mem_of_mem_writeEntry {name : String} {value : Value} {es : List (String × Value)}
    {e : String × Value} (h : e ∈ (writeEntry name value es).2) : e.1 = name ∨ e ∈ es := by
  induction es with
  | nil => simp_all [writeEntry]
  | cons x es ih =>
    simp only [writeEntry] at h
    split at h
    · rcases List.mem_cons.1 h with rfl | h <;> simp_all
    · split at h
      · rcases List.mem_cons.1 h with rfl | h <;> simp_all
      · rcases List.mem_cons.1 h with rfl | h
        · simp
        · exact Or.imp_right (List.mem_cons_of_mem _) (ih h)

theorem ascending_writeEntry {name : String} {value : Value} {es : List (String × Value)}
    (h : Ascending es) : Ascending (writeEntry name value es).2 := by
  induction es with
  | nil => simp [writeEntry, Ascending]
  | cons x es ih =>
    obtain ⟨hx, hes⟩ := List.pairwise_cons.1 h
    simp only [writeEntry]
    split
    · rename_i hlt
      refine List.pairwise_cons.2 ⟨fun e he => ?_, h⟩
      rcases List.mem_cons.1 he with rfl | he
      · exact hlt
      · exact String.lt_trans hlt (hx e he)
    · split
      · rename_i heq
        exact List.pairwise_cons.2 ⟨fun e he => heq ▸ hx e he, hes⟩
      · rename_i hlt hne
        refine List.pairwise_cons.2 ⟨fun e he => ?_, ih hes⟩
        rcases fst_mem_of_mem_writeEntry he with heq | he
        · rw [heq]
          exact Decidable.byContradiction fun h =>
            hne (String.le_antisymm (String.not_lt.1 h) (String.not_lt.1 hlt))
        · exact hx e he

theorem lookup_cons_eq_ite (name k : String) (v : Value) (es : List (String × Value)) :
    ((k, v) :: es).lookup name = if name = k then some v else es.lookup name := by
  by_cases h : name = k
  · simp [h]
  · simp [List.lookup_cons, h, beq_false_of_ne]

theorem isSome_lookup_iff {name : String} {es : List (String × Value)} :
    (es.lookup name).isSome = true ↔ name ∈ es.map Prod.fst := by
  induction es with
  | nil => simp
  | cons e es ih =>
    obtain ⟨k, v⟩ := e
    by_cases h : name = k
    · simp [h]
    · rw [lookup_cons_eq_ite, if_neg h, ih, List.map_cons, List.mem_cons, or_iff_right h]

theorem lookup_eq_none_of_notMem {name : String} {es : List (String × Value)}
    (h : name ∉ es.map Prod.fst) : es.lookup name = none := by
  rw [← Option.not_isSome_iff_eq_none, isSome_lookup_iff]
  exact h

/-- Where no name occurs twice, it does not matter from which end one looks. -/
theorem lookup_reverse {es : List (String × Value)} (h : (es.map Prod.fst).Nodup)
    (name : String) : es.reverse.lookup name = es.lookup name := by
  induction es with
  | nil => rfl
  | cons e es ih =>
    obtain ⟨k, v⟩ := e
    obtain ⟨hk, hes⟩ := List.nodup_cons.1 h
    rw [List.reverse_cons, List.lookup_append, ih hes, lookup_cons_eq_ite, lookup_cons_eq_ite]
    by_cases hname : name = k
    · rw [hname, lookup_eq_none_of_notMem hk, Option.none_or, if_pos rfl, if_pos rfl]
    · rw [if_neg hname, if_neg hname]
      exact Option.or_none

theorem lookup_map_fst {r : String → String} {name : String} {es : List (String × Value)}
    (h : ∀ e ∈ es, r e.1 = r name → e.1 = name) :
    (es.map fun e => (r e.1, e.2)).lookup (r name) = es.lookup name := by
  induction es with
  | nil => rfl
  | cons e es ih =>
    obtain ⟨k, v⟩ := e
    obtain ⟨hk, hes⟩ := List.forall_mem_cons.1 h
    rw [List.map_cons, lookup_cons_eq_ite, lookup_cons_eq_ite, ih hes]
    by_cases hname : name = k
    · rw [if_pos hname, if_pos (congrArg r hname)]
    · rw [if_neg hname, if_neg fun heq => hname (hk heq.symm).symm]

theorem lookup_eq_none_of_lt {name : String} {es : List (String × Value)}
    (h : ∀ e ∈ es, name < e.1) : es.lookup name = none := by
  apply lookup_eq_none_of_notMem
  intro hmem
  obtain ⟨e, he, rfl⟩ := List.mem_map.1 hmem
  exact String.lt_irrefl _ (h e he)

theorem lookup_writeEntry (name : String) (value : Value) (es : List (String × Value))
    (other : String) :
    (writeEntry name value es).2.lookup other =
      if other = name then some value else es.lookup other := by
  induction es with
  | nil => by_cases h : other = name <;> simp [writeEntry, List.lookup_cons, h, beq_false_of_ne]
  | cons e es ih =>
    obtain ⟨k, v⟩ := e
    simp only [writeEntry]
    split
    · by_cases h : other = name <;> simp [List.lookup_cons, h, beq_false_of_ne]
    · split
      · rename_i heq
        by_cases h : other = k <;> simp [List.lookup_cons, heq, h, beq_false_of_ne]
      · rename_i hne
        by_cases h : other = k
        · simp [h, Ne.symm hne]
        · simp [List.lookup_cons, h, beq_false_of_ne, ih]

theorem le_of_lookup_eq_some {name k : String} {v value : Value} {es : List (String × Value)}
    (h : Ascending ((k, v) :: es)) (hname : ((k, v) :: es).lookup name = some value) :
    k ≤ name := by
  intro hlt
  have hnone : ((k, v) :: es).lookup name = none := by
    apply lookup_eq_none_of_lt
    intro e he
    rcases List.mem_cons.1 he with rfl | he
    · exact hlt
    · exact String.lt_trans hlt ((List.pairwise_cons.1 h).1 e he)
  rw [hnone] at hname
  cases hname

theorem eq_of_lookup_eq {xs ys : List (String × Value)} (hxs : Ascending xs) (hys : Ascending ys)
    (h : ∀ name, xs.lookup name = ys.lookup name) : xs = ys := by
  induction xs generalizing ys with
  | nil =>
    cases ys with
    | nil => rfl
    | cons y ys =>
      obtain ⟨k, v⟩ := y
      have hk := h k
      simp at hk
  | cons x xs ih =>
    obtain ⟨k, v⟩ := x
    cases ys with
    | nil =>
      have hk := h k
      simp at hk
    | cons y ys =>
      obtain ⟨k', v'⟩ := y
      have hk : ((k, v) :: xs).lookup k = some v := by rw [lookup_cons_eq_ite, if_pos rfl]
      have hk' : ((k', v') :: ys).lookup k' = some v' := by rw [lookup_cons_eq_ite, if_pos rfl]
      obtain rfl : k = k' := String.le_antisymm
        (le_of_lookup_eq_some hxs ((h k').trans hk'))
        (le_of_lookup_eq_some hys ((h k).symm.trans hk))
      obtain rfl : v = v' := Option.some.inj (hk.symm.trans ((h k).trans hk'))
      obtain ⟨hx, hxs⟩ := List.pairwise_cons.1 hxs
      obtain ⟨hy, hys⟩ := List.pairwise_cons.1 hys
      have htail : xs = ys := by
        apply ih hxs hys
        intro name
        by_cases hname : name = k
        · rw [hname, lookup_eq_none_of_lt hx, lookup_eq_none_of_lt hy]
        · have hrest := h name
          rwa [lookup_cons_eq_ite, lookup_cons_eq_ite, if_neg hname, if_neg hname] at hrest
      rw [htail]

end RouteTemplate
