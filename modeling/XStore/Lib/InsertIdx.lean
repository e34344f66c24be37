import Mathlib.Data.List.InsertIdx

/-! Writing at a position of a list. -/
namespace XStore.Lib
variable {α : Type*}

theorem set_of_getElem? {as : List α} {i : ℕ} {a : α} (h : as[i]? = some a) :
    as.set i a = as := by
  obtain ⟨hi, rfl⟩ := List.getElem?_eq_some_iff.mp h
  exact List.set_getElem_self hi

theorem insertIdx_append_right (as bs : List α) (j : ℕ) (x : α) :
    (as ++ bs).insertIdx (as.length + j) x = as ++ bs.insertIdx j x := by
  induction as with
  | nil => simp
  | cons a as ih =>
    rw [List.length_cons, Nat.add_right_comm]
    simpa using ih

theorem insertIdx_append_left (as bs : List α) (j : ℕ) (x : α) (hj : j ≤ as.length) :
    (as ++ bs).insertIdx j x = as.insertIdx j x ++ bs := by
  induction as generalizing j with
  | nil =>
    obtain rfl : j = 0 := by simpa using hj
    simp
  | cons a as ih =>
    cases j with
    | zero => simp
    | succ j => simpa using ih j (by simpa using hj)

end XStore.Lib
