import Mathlib.Algebra.Order.Group.Nat
import Mathlib.Data.List.Basic

/-! Rows of one length that lie one behind the other. -/
namespace XStore.Lib
variable {α : Type*} {m n i j : ℕ}

theorem rowMajor_lt (hi : i < m) (hj : j < n) : i * n + j < m * n :=
  calc i * n + j < i * n + n := by omega
    _ = (i + 1) * n := (Nat.succ_mul i n).symm
    _ ≤ m * n := Nat.mul_le_mul_right n hi

theorem getElem?_flatten {rows : List (List α)} (h : ∀ r ∈ rows, r.length = n) (hj : j < n) :
    rows.flatten[i * n + j]? = rows[i]?.bind (fun r => r[j]?) := by
  induction rows generalizing i with
  | nil => simp
  | cons r rows ih =>
    have hr : r.length = n := h r (by simp)
    have hrest := fun i => ih (i := i) (fun r hr => h r (List.mem_cons_of_mem _ hr))
    cases i with
    | zero => simp [List.getElem?_append_left (hr ▸ hj : j < r.length)]
    | succ i =>
      have hidx : (i + 1) * n + j - r.length = i * n + j := by
        rw [Nat.succ_mul]
        omega
      rw [List.flatten_cons, List.getElem?_append_right (by rw [Nat.succ_mul]; omega), hidx,
        hrest, List.getElem?_cons_succ]

end XStore.Lib
