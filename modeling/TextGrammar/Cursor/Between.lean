import TextGrammar.Cursor

/-! A cursor stands between the scalars before it and the scalars ahead. On such pairs the
operations are those of lists, and the two counters are the sizes of the first part. -/
namespace TextGrammar.Cursor

def between (before ahead : List Char) : Cursor :=
  ⟨String.ofList (before ++ ahead), Text.byteSize before, before.length⟩

/-- Cursors that stand between scalars: both counters agree with one cut of the text. -/
def Placed (c : Cursor) : Prop :=
  ∃ before ahead, c = between before ahead

theorem start_eq_between (source : String) : start source = between [] source.toList := by
  simp [start, between]

@[simp] theorem start_ofList (ahead : List Char) :
    start (String.ofList ahead) = between [] ahead := by
  simp [start_eq_between]

@[simp] theorem source_between (before ahead : List Char) :
    (between before ahead).source = String.ofList (before ++ ahead) := rfl

@[simp] theorem offset_between (before ahead : List Char) :
    (between before ahead).offset = Text.byteSize before := rfl

@[simp] theorem position_between (before ahead : List Char) :
    (between before ahead).position = before.length := rfl

theorem between_inj {before ahead before' ahead' : List Char} :
    between before ahead = between before' ahead' ↔ before = before' ∧ ahead = ahead' := by
  refine ⟨fun same => ?_, by rintro ⟨rfl, rfl⟩; rfl⟩
  have text := congrArg (String.toList ∘ source) same
  have size := congrArg position same
  exact List.append_inj (by simpa using text) size

@[simp] theorem scalar?_between (before ahead : List Char) :
    (between before ahead).scalar? = ahead.head? :=
  Text.get?_after String.toList_ofList

@[simp] theorem atEnd_between (before ahead : List Char) :
    (between before ahead).atEnd = ahead.isEmpty := by
  have size : (String.ofList (before ++ ahead)).utf8ByteSize =
      Text.byteSize before + Text.byteSize ahead := Text.byteSize_append before ahead
  rw [atEnd, source_between, offset_between, size]
  cases ahead with
  | nil => simp
  | cons x xs =>
    have := x.utf8Size_pos
    simp
    omega

@[simp] theorem rest_between (before ahead : List Char) :
    (between before ahead).rest = String.ofList ahead := by
  have cut : (String.ofList (before ++ ahead)).toList = before ++ (ahead ++ []) := by simp
  have ends : (String.ofList (before ++ ahead)).rawEndPos =
      ⟨Text.byteSize before + Text.byteSize ahead⟩ :=
    congrArg String.Pos.Raw.mk (Text.byteSize_append before ahead)
  rw [rest, source_between, ends]
  exact Text.extract_between cut

theorem toList_rest_between (before ahead : List Char) :
    (between before ahead).rest.toList = ahead := by
  rw [rest_between, String.toList_ofList]

@[simp] theorem textTo?_between (before mid after : List Char) :
    (between before (mid ++ after)).textTo? (between (before ++ mid) after) =
      some (String.ofList mid) := by
  have cut : (String.ofList (before ++ (mid ++ after))).toList = before ++ (mid ++ after) := by
    simp
  rw [textTo?, offset_between, offset_between, Text.byteSize_append, if_pos (by omega)]
  exact congrArg some (Text.extract_between cut)

@[simp] theorem textTo?_self (before ahead : List Char) :
    (between before ahead).textTo? (between before ahead) = some "" := by
  simpa using textTo?_between before [] ahead

@[simp] theorem next_between_cons (before : List Char) (x : Char) (ahead : List Char) :
    (between before (x :: ahead)).next = between (before ++ [x]) ahead := by
  rw [next_of_scalar (scalar?_between before (x :: ahead))]
  simp [between]

@[simp] theorem next_between_nil (before : List Char) :
    (between before []).next = between before [] :=
  next_of_no_scalar (scalar?_between before [])

theorem advance?_between (before ahead : List Char) (count : Nat) :
    (between before ahead).advance? count =
      if count ≤ ahead.length then
        some (between (before ++ ahead.take count) (ahead.drop count)) else none := by
  induction count generalizing before ahead with
  | zero => simp [advance?]
  | succ count ih =>
    cases ahead with
    | nil => simp [advance?]
    | cons x xs => simp [advance?, ih]

@[simp] theorem advance?_between_append (before mid after : List Char) :
    (between before (mid ++ after)).advance? mid.length = some (between (before ++ mid) after) := by
  simp [advance?_between]

theorem atPosition?_eq (source : String) (position : Nat) :
    atPosition? source position =
      if position ≤ source.length then
        some (between (source.toList.take position) (source.toList.drop position)) else none := by
  simp [atPosition?, start_eq_between, advance?_between, String.length_toList]

theorem advanceWhile_cons (go : Cursor → Bool) (before : List Char) (x : Char)
    (ahead : List Char) :
    (between before (x :: ahead)).advanceWhile go =
      if go (between before (x :: ahead)) then (between (before ++ [x]) ahead).advanceWhile go
      else between before (x :: ahead) := by
  rw [advanceWhile_of_scalar (scalar?_between before (x :: ahead)), next_between_cons]

@[simp] theorem advanceWhile_nil (go : Cursor → Bool) (before : List Char) :
    (between before []).advanceWhile go = between before [] :=
  advanceWhile_of_no_scalar (scalar?_between before []) go

@[simp] theorem advanceWhile_scalar (p : Char → Bool) (before ahead : List Char) :
    (between before ahead).advanceWhile (fun d => d.scalar?.any p) =
      between (before ++ ahead.takeWhile p) (ahead.dropWhile p) := by
  induction ahead generalizing before with
  | nil => simp
  | cons x xs ih =>
    rw [advanceWhile_cons]
    by_cases h : p x <;> simp [h, ih]

theorem exists_advanceWhile (go : Cursor → Bool) (before ahead : List Char) :
    ∃ mid after, ahead = mid ++ after ∧
      (between before ahead).advanceWhile go = between (before ++ mid) after ∧
      (∀ xs y ys, mid = xs ++ y :: ys → go (between (before ++ xs) (y :: ys ++ after))) ∧
      (after ≠ [] → go (between (before ++ mid) after) = false) := by
  induction ahead generalizing before with
  | nil => exact ⟨[], [], rfl, by simp, by simp, by simp⟩
  | cons x xs ih =>
    rw [advanceWhile_cons]
    by_cases h : go (between before (x :: xs))
    · obtain ⟨mid, after, cut, stop, passed, refused⟩ := ih (before ++ [x])
      refine ⟨x :: mid, after, by simp [cut], by simp [h, stop], ?_, by simpa using refused⟩
      intro us y vs split
      cases us with
      | nil => simp_all
      | cons u us =>
        simp only [List.cons_append, List.cons.injEq] at split
        simpa [split.1] using passed us y vs split.2
    · exact ⟨[], x :: xs, rfl, by simp [h], by simp, by simpa using h⟩

end TextGrammar.Cursor
