import Mathlib.Algebra.GroupWithZero.Nat
import Mathlib.Data.List.Basic

/-! Values that are distributed over numbered buckets, one after the other. -/
namespace XStore.Lib
variable {α β : Type*}

def scatter (sel : α → ℕ) (put : β → α → β) (bs : List β) (as : List α) : List β :=
  as.foldl (fun bs a => bs.modify (sel a) (fun b => put b a)) bs

variable (sel : α → ℕ) (put : β → α → β)

@[simp] theorem scatter_nil (bs : List β) : scatter sel put bs [] = bs := rfl

@[simp] theorem scatter_cons (bs : List β) (a : α) (as : List α) :
    scatter sel put bs (a :: as) =
      scatter sel put (bs.modify (sel a) (fun b => put b a)) as := rfl

/-- A bucket sees exactly the values sent to it, in their order. -/
theorem getElem?_scatter (bs : List β) (as : List α) (i : ℕ) :
    (scatter sel put bs as)[i]? =
      bs[i]?.map (fun b => (as.filter (fun a => sel a == i)).foldl put b) := by
  induction as generalizing bs with
  | nil => simp
  | cons a as ih =>
    rw [scatter_cons, ih, List.getElem?_modify]
    by_cases h : sel a = i
    · simp [h, Function.comp_def]
    · simp [h]

theorem length_bucket_succ (n : ℕ) (as : List α) :
    (as.filter (fun a => decide (sel a < n + 1))).length =
      (as.filter (fun a => decide (sel a < n))).length +
        (as.filter (fun a => sel a == n)).length := by
  induction as with
  | nil => rfl
  | cons a as ih =>
    cases Nat.lt_trichotomy (sel a) n with
    | inl hlt =>
      have hsucc : sel a < n + 1 := by omega
      have hne : ¬ sel a = n := by omega
      simp only [List.filter_cons, decide_eq_true_eq, beq_iff_eq, hlt, hsucc, hne, if_true,
        if_false, List.length_cons, ih]
      omega
    | inr h =>
      have hnot : ¬ sel a < n := by omega
      cases h with
      | inl heq =>
        have hsucc : sel a < n + 1 := by omega
        simp only [List.filter_cons, decide_eq_true_eq, beq_iff_eq, hnot, hsucc, if_true,
          if_false, List.length_cons, ih, if_pos heq]
        omega
      | inr hgt =>
        have hsucc : ¬ sel a < n + 1 := by omega
        have hne : ¬ sel a = n := by omega
        simp only [List.filter_cons, decide_eq_true_eq, beq_iff_eq, hnot, hsucc, hne, if_false, ih]

theorem sum_buckets {n : ℕ} (as : List α) (h : ∀ a ∈ as, sel a < n) :
    ((List.range n).map (fun i => (as.filter (fun a => sel a == i)).length)).sum = as.length := by
  have hcut : ∀ n, ((List.range n).map (fun i => (as.filter (fun a => sel a == i)).length)).sum =
      (as.filter (fun a => decide (sel a < n))).length := by
    intro n
    induction n with
    | zero => simp
    | succ n ih =>
      rw [List.range_succ, List.map_append, List.sum_append, ih, length_bucket_succ]
      simp
  rw [hcut, List.filter_eq_self.mpr (fun a ha => by simpa using h a ha)]

end XStore.Lib
