import Mathlib

/-!
A loop that goes through an array by index and erases elements on its way. The number
of elements is counted apart, so the loop would read outside the array if the count
went wrong. It takes out exactly the elements that match, in their order.
-/
namespace SnapCpp.IndexLoop

variable {α : Type*} (matching : α → Bool)

/-- The elements taken out so far and the array; `none` when the loop reads outside. -/
def takeOut (array : List α) (idx max : ℕ) (taken : List α) : Option (List α × List α) :=
  if idx < max then
    match array[idx]? with
    | none => none
    | some m =>
        if matching m then takeOut (array.eraseIdx idx) idx (max - 1) (taken ++ [m])
        else takeOut array (idx + 1) max taken
  else some (taken, array)
termination_by max - idx

theorem takeOut_done (array : List α) (idx : ℕ) (taken : List α) :
    takeOut matching array idx idx taken = some (taken, array) := by
  rw [takeOut, if_neg (Nat.lt_irrefl idx)]

variable (kept rest taken : List α) (m : α)

theorem takeOut_match (h : matching m = true) :
    takeOut matching (kept ++ m :: rest) kept.length (kept ++ m :: rest).length taken =
      takeOut matching (kept ++ rest) kept.length (kept ++ rest).length (taken ++ [m]) := by
  have hin : kept.length < (kept ++ m :: rest).length := by simp
  have hread : (kept ++ m :: rest)[kept.length]? = some m := by simp
  have herase : (kept ++ m :: rest).eraseIdx kept.length = kept ++ rest := by
    rw [List.eraseIdx_append_of_length_le (Nat.le_refl _), Nat.sub_self]
    rfl
  have hcount : (kept ++ m :: rest).length - 1 = (kept ++ rest).length := by
    simp only [List.length_append, List.length_cons]
    omega
  rw [takeOut, if_pos hin]
  simp only [hread]
  rw [if_pos h, herase, hcount]

theorem takeOut_pass (h : ¬matching m = true) :
    takeOut matching (kept ++ m :: rest) kept.length (kept ++ m :: rest).length taken =
      takeOut matching ((kept ++ [m]) ++ rest) (kept ++ [m]).length
        ((kept ++ [m]) ++ rest).length taken := by
  have hin : kept.length < (kept ++ m :: rest).length := by simp
  have hread : (kept ++ m :: rest)[kept.length]? = some m := by simp
  have hnext : (kept ++ [m]).length = kept.length + 1 := List.length_append
  rw [takeOut, if_pos hin]
  simp only [hread]
  rw [if_neg h, hnext, List.append_assoc]
  rfl

/-- What is in front of the index stays, and what is behind it is split. -/
theorem takeOut_append :
    takeOut matching (kept ++ rest) kept.length (kept ++ rest).length taken =
      some (taken ++ rest.filter matching, kept ++ rest.filter fun m => !matching m) := by
  induction rest generalizing kept taken with
  | nil => simp [takeOut_done]
  | cons m rest ih =>
    by_cases h : matching m = true
    · rw [takeOut_match matching kept rest taken m h, ih]
      simp [h]
    · rw [takeOut_pass matching kept rest taken m h, ih]
      simp [h]

/-- The loop over a whole array never reads outside of it. -/
theorem takeOut_whole (array : List α) :
    takeOut matching array 0 array.length [] =
      some (array.filter matching, array.filter fun m => !matching m) :=
  takeOut_append matching [] array []

end SnapCpp.IndexLoop
