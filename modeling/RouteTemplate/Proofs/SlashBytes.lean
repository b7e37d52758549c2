import RouteTemplate.Path.Basic

namespace RouteTemplate

section

variable {α : Type} {x : α}

theorem doubled_infix_cons_iff {y : α} {ys : List α} :
    [x, x] <:+: y :: ys ↔ y = x ∧ ys.head? = some x ∨ [x, x] <:+: ys := by
  have hprefix : [x] <+: ys ↔ ys.head? = some x := by
    cases ys <;> simp [eq_comm]
  rw [List.infix_cons_iff, List.cons_prefix_cons, hprefix, eq_comm]

theorem doubled_infix_append_iff {front : List α} (h : x ∉ front) (back : List α) :
    [x, x] <:+: front ++ back ↔ [x, x] <:+: back := by
  induction front with
  | nil => rfl
  | cons y front ih =>
    obtain ⟨hy, hfront⟩ := not_or.1 (mt List.mem_cons.2 h)
    rw [List.cons_append, doubled_infix_cons_iff, ih hfront]
    simp [Ne.symm hy]

theorem mem_zip_tail_iff {y : α} {zs : List α} : (x, y) ∈ zs.zip zs.tail ↔ [x, y] <:+: zs := by
  induction zs with
  | nil => simp
  | cons z zs ih =>
    cases zs with
    | nil => simp [List.infix_cons_iff]
    | cons u zs =>
      rw [List.infix_cons_iff, ← ih, List.tail_cons, List.zip_cons_cons, List.mem_cons]
      simp

end

theorem toList_toUTF8 (path : String) :
    path.toUTF8.data.toList = path.toList.flatMap String.utf8EncodeChar := by
  rw [String.toUTF8, ← String.utf8Encode_toList, List.utf8Encode]
  exact List.toList_data_toByteArray

theorem slash_eq_ofNat_iff (n : Nat) : 0x2F = UInt8.ofNat n ↔ n % 256 = 0x2F := by
  rw [← UInt8.toNat_inj, UInt8.toNat_ofNat', eq_comm]
  rfl

/-- No other character has the byte of a slash among its bytes. -/
theorem eq_slash_of_mem_utf8EncodeChar {c : Char} (h : 0x2F ∈ String.utf8EncodeChar c) :
    c = '/' := by
  have hcode : c.val.toNat = 0x2F := by
    simp only [String.utf8EncodeChar] at h
    split at h
    · simp only [List.mem_singleton, slash_eq_ofNat_iff] at h
      omega
    · -- A longer character has bytes with the highest bit set only.
      exfalso
      repeat' split at h
      all_goals simp only [List.mem_cons, List.not_mem_nil, or_false, slash_eq_ofNat_iff] at h
      all_goals omega
  exact Char.ext (UInt32.toNat_inj.1 hcode)

theorem head?_bytes_eq_slash_iff (text : List Char) :
    (text.flatMap String.utf8EncodeChar).head? = some 0x2F ↔ text.head? = some '/' := by
  cases text with
  | nil => simp
  | cons c text =>
    obtain ⟨b, bs, hbytes⟩ := List.exists_cons_of_ne_nil (String.utf8EncodeChar_ne_nil (c := c))
    rw [List.flatMap_cons, hbytes, List.cons_append, List.head?_cons, List.head?_cons,
      Option.some_inj,
      Option.some_inj]
    constructor
    · rintro rfl
      exact eq_slash_of_mem_utf8EncodeChar (hbytes ▸ List.mem_cons_self)
    · rintro rfl
      exact (List.cons.inj hbytes).1.symm

theorem doubled_infix_bytes_iff (text : List Char) :
    [0x2F, 0x2F] <:+: text.flatMap String.utf8EncodeChar ↔ ['/', '/'] <:+: text := by
  induction text with
  | nil => simp
  | cons c text ih =>
    rw [List.flatMap_cons, doubled_infix_cons_iff]
    by_cases hc : c = '/'
    · subst hc
      have hslash : String.utf8EncodeChar '/' = [0x2F] := rfl
      rw [hslash, List.singleton_append, doubled_infix_cons_iff, head?_bytes_eq_slash_iff, ih]
      simp
    · rw [doubled_infix_append_iff (mt eq_slash_of_mem_utf8EncodeChar hc), ih]
      simp [hc]

/-- The bytes of a path tell whether slashes are repeated in it. -/
theorem hasRepeatedSeparators_iff {path : String} :
    hasRepeatedSeparators path = true ↔ ['/', '/'] <:+: path.toList := by
  rw [hasRepeatedSeparators, List.contains_iff_mem, mem_zip_tail_iff, toList_toUTF8,
    doubled_infix_bytes_iff]

end RouteTemplate
