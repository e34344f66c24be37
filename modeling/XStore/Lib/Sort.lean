import Mathlib.Data.List.Sort

/-! Sorting by a comparator, as the standard library promises it: the result is an
arrangement of the input that the comparator never contradicts. Nothing is said about the
order of equivalent elements, since the sort need not be stable. -/
namespace XStore.Lib
variable {α β : Type}

/-- Comparators for which sorting is defined: strict weak orders. -/
structure StrictWeak (lt : α → α → Bool) : Prop where
  asymm : ∀ a b, lt a b = true → lt b a = false
  negTrans : ∀ a b c, lt b a = false → lt c b = false → lt c a = false

/-- An unstable sort. Proofs that use it hold for every implementation. -/
class StdSort where
  sort : {α : Type} → (α → α → Bool) → List α → List α
  perm : ∀ {α : Type} (lt : α → α → Bool) (l : List α), (sort lt l).Perm l
  sorted : ∀ {α : Type} (lt : α → α → Bool) (l : List α), StrictWeak lt →
    (sort lt l).Pairwise (fun a b => lt b a = false)

theorem strictWeak_of_key [LinearOrder β] (f : α → β) :
    StrictWeak (fun a b => decide (f a < f b)) := by
  constructor
  · intro a b h
    simp only [decide_eq_true_eq, decide_eq_false_iff_not, not_lt] at h ⊢
    exact h.le
  · intro a b c hab hbc
    simp only [decide_eq_false_iff_not, not_lt] at hab hbc ⊢
    exact hab.trans hbc

theorem StdSort.length_sort [StdSort] (lt : α → α → Bool) (l : List α) :
    (StdSort.sort lt l).length = l.length :=
  (StdSort.perm lt l).length_eq

theorem StdSort.sorted_key [StdSort] [LinearOrder β] (f : α → β) (l : List α) :
    (StdSort.sort (fun a b => decide (f a < f b)) l).Pairwise (fun a b => f a ≤ f b) := by
  have h := StdSort.sorted _ l (strictWeak_of_key f)
  exact h.imp (by simp)

/-- Without ties there is one sorted arrangement, and it may be mapped before or after. -/
theorem StdSort.sort_map [StdSort] {lt : α → α → Bool} {lt' : β → β → Bool} (f : α → β)
    (hlt : StrictWeak lt) (hlt' : StrictWeak lt') (hf : ∀ a b, lt' (f a) (f b) = lt a b)
    {l : List α} (hties : ∀ a ∈ l, ∀ b ∈ l, lt a b = false → lt b a = false → a = b) :
    StdSort.sort lt' (l.map f) = (StdSort.sort lt l).map f := by
  have hperm := StdSort.perm lt l
  have hmapped : ((StdSort.sort lt l).map f).Pairwise (fun a b => lt' b a = false) := by
    rw [List.pairwise_map]
    exact (StdSort.sorted lt l hlt).imp (fun {a b} h => (hf b a).trans h)
  refine List.Perm.eq_of_pairwise ?_ (StdSort.sorted lt' (l.map f) hlt') hmapped
    ((StdSort.perm lt' (l.map f)).trans (hperm.map f).symm)
  intro a b ha hb hab hba
  obtain ⟨a₁, ha₁, rfl⟩ := List.mem_map.mp ((StdSort.perm lt' (l.map f)).mem_iff.mp ha)
  obtain ⟨b₁, hb₁, rfl⟩ := List.mem_map.mp hb
  rw [hf] at hab hba
  rw [hties a₁ ha₁ b₁ (hperm.mem_iff.mp hb₁) hba hab]

@[reducible] def insertionStdSort : StdSort where
  sort lt l := l.insertionSort (fun a b => lt b a = false)
  perm lt l := List.perm_insertionSort _ l
  sorted lt l h := by
    have total : Std.Total (fun a b => lt b a = false) :=
      ⟨fun a b => by
        cases hab : lt b a
        · exact Or.inl rfl
        · exact Or.inr (h.asymm b a hab)⟩
    have trans : IsTrans _ (fun a b => lt b a = false) := ⟨h.negTrans⟩
    exact List.pairwise_insertionSort _ l

theorem rank_low [LinearOrder β] (f : α → β) (s : List α)
    (hs : s.Pairwise (fun a b => f a ≤ f b)) (h : ℕ) (hh : h < s.length) :
    h < s.countP (fun a => decide (f a ≤ f s[h])) := by
  have hall : ∀ a ∈ s.take (h+1), f a ≤ f s[h] := by
    intro a ha
    obtain ⟨i, hi, rfl⟩ := List.mem_iff_getElem.mp ha
    simp only [List.length_take] at hi
    rw [List.getElem_take]
    rcases Nat.lt_or_eq_of_le (by omega : i ≤ h) with hlt | rfl
    · exact List.pairwise_iff_getElem.mp hs i h (by omega) hh hlt
    · exact le_rfl
  have hcount : (s.take (h+1)).countP (fun a => decide (f a ≤ f s[h])) = h+1 := by
    rw [List.countP_eq_length.mpr (by simpa using hall), List.length_take]
    omega
  have hsub := (List.take_sublist (h+1) s).countP_le (p := fun a => decide (f a ≤ f s[h]))
  omega

theorem rank_high [LinearOrder β] (f : α → β) (s : List α)
    (hs : s.Pairwise (fun a b => f a ≤ f b)) (h : ℕ) (hh : h < s.length) :
    s.length - h ≤ s.countP (fun a => decide (f s[h] ≤ f a)) := by
  have hall : ∀ a ∈ s.drop h, f s[h] ≤ f a := by
    intro a ha
    obtain ⟨i, hi, rfl⟩ := List.mem_iff_getElem.mp ha
    simp only [List.length_drop] at hi
    rw [List.getElem_drop]
    rcases Nat.eq_zero_or_pos i with rfl | hpos
    · simp
    · exact List.pairwise_iff_getElem.mp hs h (h+i) hh (by omega) (by omega)
  have hcount : (s.drop h).countP (fun a => decide (f s[h] ≤ f a)) = s.length - h := by
    rw [List.countP_eq_length.mpr (by simpa using hall), List.length_drop]
  have hsub := (List.drop_sublist h s).countP_le (p := fun a => decide (f s[h] ≤ f a))
  omega

end XStore.Lib
