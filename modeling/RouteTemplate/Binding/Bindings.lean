import RouteTemplate.Binding.Entries

namespace RouteTemplate

/-- Values by name, in ascending order of the names. -/
structure Bindings where
  entries : List (String × Value)
  ascending : Ascending entries
deriving DecidableEq

namespace Bindings

def empty : Bindings := ⟨[], .nil⟩

instance : EmptyCollection Bindings := ⟨empty⟩

instance : Inhabited Bindings := ⟨empty⟩

def toList (b : Bindings) : List (String × Value) := b.entries

def size (b : Bindings) : Nat := b.entries.length

def isEmpty (b : Bindings) : Bool := b.entries.isEmpty

def names (b : Bindings) : List String := b.entries.map Prod.fst

def get? (b : Bindings) (name : String) : Option Value := b.entries.lookup name

def contains (b : Bindings) (name : String) : Bool := (b.get? name).isSome

/-- Writes a value under a name, and returns the value that was there before. -/
def exchange (b : Bindings) (name : String) (value : Value) : Option Value × Bindings :=
  let written := writeEntry name value b.entries
  (written.1, ⟨written.2, ascending_writeEntry b.ascending⟩)

def insert (b : Bindings) (name : String) (value : Value) : Bindings := (b.exchange name value).2

/-- Writes the pairs one after the other; of two with one name the later stays. -/
def insertMany (b : Bindings) (pairs : List (String × Value)) : Bindings :=
  pairs.foldl (fun b p => b.insert p.1 p.2) b

def ofList (pairs : List (String × Value)) : Bindings := empty.insertMany pairs

@[simp] theorem get?_empty (name : String) : empty.get? name = none := rfl

theorem get?_insert (b : Bindings) (name : String) (value : Value) (other : String) :
    (b.insert name value).get? other = if other = name then some value else b.get? other :=
  lookup_writeEntry name value b.entries other

theorem contains_iff_mem_names {b : Bindings} {name : String} :
    b.contains name = true ↔ name ∈ b.names := isSome_lookup_iff

theorem pairwise_names (b : Bindings) : b.names.Pairwise (· < ·) :=
  b.ascending.map _ fun _ _ h => h

theorem nodup_names (b : Bindings) : b.names.Nodup := by
  apply b.pairwise_names.imp
  intro x y hlt heq
  exact String.lt_irrefl _ (heq ▸ hlt)

theorem ext_get? {b c : Bindings} (h : ∀ name, b.get? name = c.get? name) : b = c := by
  obtain ⟨xs, hxs⟩ := b
  obtain ⟨ys, hys⟩ := c
  obtain rfl : xs = ys := eq_of_lookup_eq hxs hys h
  rfl

/-- After a row of writes a name has the value of the last write to it. -/
theorem get?_insertMany (b : Bindings) (pairs : List (String × Value)) (name : String) :
    (b.insertMany pairs).get? name = (pairs.reverse.lookup name).or (b.get? name) := by
  induction pairs generalizing b with
  | nil => rfl
  | cons p pairs ih =>
    obtain ⟨k, v⟩ := p
    have hfold : b.insertMany ((k, v) :: pairs) = (b.insert k v).insertMany pairs := rfl
    rw [hfold, ih, get?_insert, List.reverse_cons, List.lookup_append, lookup_cons_eq_ite,
      Option.or_assoc]
    split <;> rfl

theorem get?_insertMany_of_notMem {b : Bindings} {pairs : List (String × Value)} {name : String}
    (h : name ∉ pairs.map Prod.fst) : (b.insertMany pairs).get? name = b.get? name := by
  have hnone : pairs.reverse.lookup name = none := by
    apply lookup_eq_none_of_notMem
    rwa [List.map_reverse, List.mem_reverse]
  rw [get?_insertMany, hnone, Option.none_or]

theorem get?_ofList_eq_lookup_reverse (pairs : List (String × Value)) (name : String) :
    (ofList pairs).get? name = pairs.reverse.lookup name := by
  rw [ofList, get?_insertMany, get?_empty, Option.or_none]

theorem mem_of_get?_ofList {pairs : List (String × Value)} {name : String} {value : Value}
    (h : (ofList pairs).get? name = some value) : (name, value) ∈ pairs := by
  rw [get?_ofList_eq_lookup_reverse, List.lookup_eq_some_iff] at h
  obtain ⟨front, back, hpairs, -⟩ := h
  have hmem : (name, value) ∈ pairs.reverse := by simp [hpairs]
  exact List.mem_reverse.1 hmem

theorem contains_ofList_iff {pairs : List (String × Value)} {name : String} :
    (ofList pairs).contains name = true ↔ name ∈ pairs.map Prod.fst := by
  rw [contains, get?_ofList_eq_lookup_reverse, isSome_lookup_iff, List.map_reverse,
    List.mem_reverse]

theorem mem_names_ofList_iff {pairs : List (String × Value)} {name : String} :
    name ∈ (ofList pairs).names ↔ name ∈ pairs.map Prod.fst := by
  rw [← contains_iff_mem_names, contains_ofList_iff]

theorem get?_ofList_eq_none {pairs : List (String × Value)} {name : String}
    (h : name ∉ pairs.map Prod.fst) : (ofList pairs).get? name = none :=
  get?_insertMany_of_notMem h

theorem get?_ofList {pairs : List (String × Value)} (h : (pairs.map Prod.fst).Nodup)
    (name : String) : (ofList pairs).get? name = pairs.lookup name := by
  rw [get?_ofList_eq_lookup_reverse, lookup_reverse h]

theorem ofList_toList (b : Bindings) : ofList b.toList = b :=
  ext_get? fun name => get?_ofList b.nodup_names name

end Bindings

end RouteTemplate
