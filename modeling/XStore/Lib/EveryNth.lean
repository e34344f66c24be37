import Mathlib.Data.List.Basic

/-! Every `step`-th element of a list, counting from a counter that wraps at `step`. -/
namespace XStore.Lib
variable {α β : Type*}

def wrapSucc (step c : ℕ) : ℕ := if c + 1 = step then 0 else c + 1

def everyNth (step : ℕ) : ℕ → List α → List α
  | _, [] => []
  | c, x :: xs => if c = 0 then x :: everyNth step (wrapSucc step c) xs
      else everyNth step (wrapSucc step c) xs

def wrapAdd (step c n : ℕ) : ℕ := (c + n) % step

variable {step c : ℕ}

theorem wrapSucc_lt (hc : c < step) : wrapSucc step c < step := by
  unfold wrapSucc
  split <;> omega

theorem wrapAdd_succ (n : ℕ) :
    wrapAdd step (wrapSucc step c) n = wrapAdd step c (n + 1) := by
  unfold wrapAdd wrapSucc
  split
  · next h =>
    have heq : c + (n + 1) = n + step := by omega
    rw [heq, Nat.add_mod_right, Nat.zero_add]
  · congr 1
    omega

theorem everyNth_sublist (xs : List α) : (everyNth step c xs).Sublist xs := by
  induction xs generalizing c with
  | nil => exact List.Sublist.refl _
  | cons x xs ih =>
    unfold everyNth
    split
    · exact ih.cons_cons x
    · exact ih.cons x

theorem everyNth_map (step c : ℕ) (f : α → β) (xs : List α) :
    everyNth step c (xs.map f) = (everyNth step c xs).map f := by
  induction xs generalizing c with
  | nil => rfl
  | cons x xs ih =>
    simp only [List.map_cons, everyNth]
    split <;> simp [ih]

theorem everyNth_append_singleton (hc : c < step) (xs : List α) (x : α) :
    everyNth step c (xs ++ [x]) =
      everyNth step c xs ++ if wrapAdd step c xs.length = 0 then [x] else [] := by
  induction xs generalizing c with
  | nil =>
    have h : wrapAdd step c 0 = c := Nat.mod_eq_of_lt hc
    rw [List.nil_append, List.length_nil, h]
    by_cases hz : c = 0 <;> simp [everyNth, hz]
  | cons y xs ih =>
    have hrec := ih (wrapSucc_lt hc)
    rw [wrapAdd_succ] at hrec
    simp only [List.cons_append, everyNth, hrec, List.length_cons]
    split <;> rfl

theorem everyNth_one (xs : List α) : everyNth 1 0 xs = xs := by
  induction xs with
  | nil => rfl
  | cons x xs ih => simp [everyNth, wrapSucc, ih]

theorem everyNth_ne_nil {xs : List α} (h : xs ≠ []) : everyNth step 0 xs ≠ [] := by
  cases xs with
  | nil => exact absurd rfl h
  | cons x xs => simp [everyNth]

end XStore.Lib
