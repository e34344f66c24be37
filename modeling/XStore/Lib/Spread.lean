import Mathlib.Data.List.Basic
import Mathlib.Order.MinMax

/-! The smallest and the largest of a list, from a starting pair on. -/
namespace XStore.Lib
variable {α : Type*} [LinearOrder α]

def spread (acc : α × α) (ds : List α) : α × α :=
  ds.foldl (fun a d => (min a.1 d, max a.2 d)) acc

@[simp] theorem spread_nil (acc : α × α) : spread acc [] = acc := rfl

@[simp] theorem spread_cons (acc : α × α) (d : α) (ds : List α) :
    spread acc (d :: ds) = spread (min acc.1 d, max acc.2 d) ds := rfl

theorem spread_acc (acc : α × α) (ds : List α) :
    (spread acc ds).1 ≤ acc.1 ∧ acc.2 ≤ (spread acc ds).2 := by
  induction ds generalizing acc with
  | nil => exact ⟨le_rfl, le_rfl⟩
  | cons d ds ih =>
    obtain ⟨hlo, hhi⟩ := ih (min acc.1 d, max acc.2 d)
    exact ⟨hlo.trans (min_le_left _ _), (le_max_left _ _).trans hhi⟩

theorem spread_mem (acc : α × α) (ds : List α) :
    ∀ d ∈ ds, (spread acc ds).1 ≤ d ∧ d ≤ (spread acc ds).2 := by
  induction ds generalizing acc with
  | nil => simp
  | cons e ds ih =>
    intro d hd
    rcases List.mem_cons.mp hd with rfl | hd
    · obtain ⟨hlo, hhi⟩ := spread_acc (min acc.1 d, max acc.2 d) ds
      exact ⟨hlo.trans (min_le_right _ _), (le_max_right _ _).trans hhi⟩
    · exact ih _ d hd

/-- The result is attained: its ends come from the starting pair or from the list. -/
theorem spread_attained (acc : α × α) (ds : List α) :
    ((spread acc ds).1 = acc.1 ∨ (spread acc ds).1 ∈ ds) ∧
      ((spread acc ds).2 = acc.2 ∨ (spread acc ds).2 ∈ ds) := by
  induction ds generalizing acc with
  | nil => exact ⟨Or.inl rfl, Or.inl rfl⟩
  | cons d ds ih =>
    obtain ⟨hlo, hhi⟩ := ih (min acc.1 d, max acc.2 d)
    rw [spread_cons]
    constructor
    · cases hlo with
      | inl h =>
        cases min_choice acc.1 d with
        | inl hm => exact Or.inl (h.trans hm)
        | inr hm => exact Or.inr (by rw [h, hm]; exact List.mem_cons_self)
      | inr h => exact Or.inr (List.mem_cons_of_mem d h)
    · cases hhi with
      | inl h =>
        cases max_choice acc.2 d with
        | inl hm => exact Or.inl (h.trans hm)
        | inr hm => exact Or.inr (by rw [h, hm]; exact List.mem_cons_self)
      | inr h => exact Or.inr (List.mem_cons_of_mem d h)

theorem spread_bounds {lo hi : α} {acc : α × α} {ds : List α}
    (hacc : lo ≤ acc.1 ∧ acc.2 ≤ hi) (hds : ∀ d ∈ ds, lo ≤ d ∧ d ≤ hi) :
    lo ≤ (spread acc ds).1 ∧ (spread acc ds).2 ≤ hi := by
  obtain ⟨hlo, hhi⟩ := spread_attained acc ds
  constructor
  · cases hlo with
    | inl h =>
      rw [h]
      exact hacc.1
    | inr h => exact (hds _ h).1
  · cases hhi with
    | inl h =>
      rw [h]
      exact hacc.2
    | inr h => exact (hds _ h).2

end XStore.Lib
