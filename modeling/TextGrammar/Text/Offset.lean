/-! Texts addressed by byte. A byte offset is meaningful when it is the size of some run of leading
scalars; these lemmas say what stands at such an offset, and what lies between two of them. -/
namespace TextGrammar.Text

def byteSize (xs : List Char) : Nat :=
  (String.ofList xs).utf8ByteSize

@[simp] theorem byteSize_nil : byteSize [] = 0 := rfl

@[simp] theorem byteSize_cons (x : Char) (xs : List Char) :
    byteSize (x :: xs) = x.utf8Size + byteSize xs := by
  simp [byteSize, String.ofList_cons]

@[simp] theorem byteSize_append (xs ys : List Char) :
    byteSize (xs ++ ys) = byteSize xs + byteSize ys := by
  simp [byteSize]

@[simp] theorem byteSize_toList (s : String) : byteSize s.toList = s.utf8ByteSize := by
  simp [byteSize]

theorem length_le_byteSize (xs : List Char) : xs.length ≤ byteSize xs := by
  induction xs with
  | nil => simp
  | cons x xs ih =>
    have := x.utf8Size_pos
    simp
    omega

@[simp] theorem byteSize_eq_zero {xs : List Char} : byteSize xs = 0 ↔ xs = [] := by
  cases xs with
  | nil => simp
  | cons x xs =>
    have := x.utf8Size_pos
    simp
    omega

section
variable (s : String) (x : Char) (xs : List Char) (i b e : String.Pos.Raw)

private theorem mk_add_char (i : Nat) :
    (⟨i⟩ : String.Pos.Raw) + x = ⟨i + x.utf8Size⟩ := rfl

private theorem get?_eq : String.Pos.Raw.get? s b = String.Pos.Raw.utf8GetAux? s.toList 0 b := rfl

private theorem utf8GetAux?_nil : String.Pos.Raw.utf8GetAux? [] i b = none := rfl

private theorem utf8GetAux?_cons : String.Pos.Raw.utf8GetAux? (x :: xs) i b =
    if i = b then some x else String.Pos.Raw.utf8GetAux? xs (i + x) b := rfl

private theorem extract_eq : String.Pos.Raw.extract s b e =
    if b.byteIdx ≥ e.byteIdx then "" else
      String.ofList (String.Pos.Raw.extract.go₁ s.toList 0 b e) := rfl

private theorem go₁_nil : String.Pos.Raw.extract.go₁ [] i b e = [] := rfl

private theorem go₁_cons : String.Pos.Raw.extract.go₁ (x :: xs) i b e =
    if i = b then String.Pos.Raw.extract.go₂ (x :: xs) i e
    else String.Pos.Raw.extract.go₁ xs (i + x) b e := rfl

private theorem go₂_nil : String.Pos.Raw.extract.go₂ [] i e = [] := rfl

private theorem go₂_cons : String.Pos.Raw.extract.go₂ (x :: xs) i e =
    if i = e then [] else x :: String.Pos.Raw.extract.go₂ xs (i + x) e := rfl

end

private theorem lt_of_utf8GetAux? {xs : List Char} {i p : String.Pos.Raw} {x : Char}
    (h : String.Pos.Raw.utf8GetAux? xs i p = some x) :
    p.byteIdx < i.byteIdx + byteSize xs := by
  induction xs generalizing i with
  | nil => simp [utf8GetAux?_nil] at h
  | cons y ys ih =>
    rw [utf8GetAux?_cons] at h
    split at h
    · have := y.utf8Size_pos
      subst_vars
      simp
      omega
    · have := ih h
      simp only [String.Pos.Raw.byteIdx_add_char] at this
      simp
      omega

theorem lt_of_get? {s : String} {offset : Nat} {x : Char}
    (h : String.Pos.Raw.get? s ⟨offset⟩ = some x) : offset < s.utf8ByteSize := by
  simpa [get?_eq] using lt_of_utf8GetAux? h

private theorem later_ne {i : Nat} {x : Char} {xs : List Char} :
    (⟨i⟩ : String.Pos.Raw) ≠ ⟨i + byteSize (x :: xs)⟩ := by
  have := x.utf8Size_pos
  simp [String.Pos.Raw.ext_iff]
  omega

private theorem utf8GetAux?_after (xs ys : List Char) (i : Nat) :
    String.Pos.Raw.utf8GetAux? (xs ++ ys) ⟨i⟩ ⟨i + byteSize xs⟩ = ys.head? := by
  induction xs generalizing i with
  | nil => cases ys <;> simp [utf8GetAux?_nil, utf8GetAux?_cons]
  | cons x xs ih =>
    rw [List.cons_append, utf8GetAux?_cons, if_neg later_ne]
    simpa [mk_add_char, Nat.add_assoc] using ih (i + x.utf8Size)

theorem get?_after {s : String} {xs ys : List Char} (h : s.toList = xs ++ ys) :
    String.Pos.Raw.get? s ⟨byteSize xs⟩ = ys.head? := by
  simpa [get?_eq, h] using utf8GetAux?_after xs ys 0

private theorem go₂_between (ys zs : List Char) (i : Nat) :
    String.Pos.Raw.extract.go₂ (ys ++ zs) ⟨i⟩ ⟨i + byteSize ys⟩ = ys := by
  induction ys generalizing i with
  | nil => cases zs <;> simp [go₂_nil, go₂_cons]
  | cons y ys ih =>
    rw [List.cons_append, go₂_cons, if_neg later_ne]
    simpa [mk_add_char, Nat.add_assoc] using ih (i + y.utf8Size)

private theorem go₁_between (xs ys zs : List Char) (i : Nat) :
    String.Pos.Raw.extract.go₁ (xs ++ (ys ++ zs)) ⟨i⟩ ⟨i + byteSize xs⟩
      ⟨i + byteSize xs + byteSize ys⟩ = ys := by
  induction xs generalizing i with
  | nil =>
    have := go₂_between ys zs i
    cases h : ys ++ zs <;> simp_all [go₁_nil, go₁_cons, go₂_nil]
  | cons x xs ih =>
    rw [List.cons_append, go₁_cons, if_neg later_ne]
    simpa [mk_add_char, Nat.add_assoc] using ih (i + x.utf8Size)

/-- The text cut between the ends of two runs is what lies between them. -/
theorem extract_between {s : String} {xs ys zs : List Char} (h : s.toList = xs ++ (ys ++ zs)) :
    String.Pos.Raw.extract s ⟨byteSize xs⟩ ⟨byteSize xs + byteSize ys⟩ = String.ofList ys := by
  rw [extract_eq]
  split
  case isTrue none =>
    have : byteSize ys = 0 := by
      simp only [ge_iff_le] at none
      omega
    simp_all
  case isFalse =>
    rw [h]
    simpa using congrArg String.ofList (go₁_between xs ys zs 0)

end TextGrammar.Text
