import Mathlib.Data.List.Basic
import Mathlib.Data.List.Nodup
import Mathlib.Order.Lattice

/-! Logs with ascending keys: an entry is only taken behind all earlier ones, and only as long
as there is room. -/
namespace XStore.Lib
variable {K V : Type*} [LinearOrder K]

structure Ascending (K V : Type*) [LinearOrder K] where
  entries : List (K × V)
  ascending : entries.Pairwise (fun x y => x.1 < y.1)

namespace Ascending

def empty : Ascending K V := ⟨[], .nil⟩

def length (s : Ascending K V) : ℕ := s.entries.length

def keys (s : Ascending K V) : List K := s.entries.map Prod.fst

def Above (s : Ascending K V) (k : K) : Prop := ∀ x ∈ s.entries.getLast?, x.1 < k

instance (s : Ascending K V) (k : K) : Decidable (s.Above k) :=
  inferInstanceAs (Decidable (∀ x ∈ s.entries.getLast?, x.1 < k))

variable {s : Ascending K V} {k : K} {v : V} {cap : ℕ}

@[simp] theorem length_empty : (empty : Ascending K V).length = 0 := rfl

@[simp] theorem length_keys : s.keys.length = s.length := List.length_map _

theorem keys_getElem? (i : ℕ) : s.keys[i]? = (s.entries[i]?).map Prod.fst := List.getElem?_map

theorem keys_ascending : s.keys.Pairwise (· < ·) := List.pairwise_map.mpr s.ascending

theorem keys_nodup : s.keys.Nodup := keys_ascending.imp ne_of_lt

theorem place_unique {i j : ℕ} (hi : s.keys[i]? = some k) (hj : s.keys[j]? = some k) : i = j := by
  obtain ⟨hlt, -⟩ := List.getElem?_eq_some_iff.mp hi
  exact (List.getElem?_inj hlt keys_nodup).mp (hi.trans hj.symm)

theorem drop_eq_filter {p : ℕ} (hp : s.keys[p]? = some k) :
    s.keys.drop p = s.keys.filter (fun k' => decide (k ≤ k')) := by
  obtain ⟨hlt, hk⟩ := List.getElem?_eq_some_iff.mp hp
  have hcut : s.keys = s.keys.take p ++ k :: s.keys.drop (p + 1) := by
    rw [← hk, List.getElem_cons_drop, List.take_append_drop]
  have hrest : s.keys.drop p = k :: s.keys.drop (p + 1) := by
    rw [← hk, List.getElem_cons_drop]
  have hasc : (s.keys.take p ++ k :: s.keys.drop (p + 1)).Pairwise (· < ·) := by
    rw [← hcut]
    exact keys_ascending
  obtain ⟨-, hbehind, hbefore⟩ := List.pairwise_append.mp hasc
  have hsmall : (s.keys.take p).filter (fun k' => decide (k ≤ k')) = [] := by
    apply List.filter_eq_nil_iff.mpr
    intro k' hk'
    simpa using hbefore k' hk' k (by simp)
  have hlarge : (s.keys.drop p).filter (fun k' => decide (k ≤ k')) = s.keys.drop p := by
    apply List.filter_eq_self.mpr
    intro k' hk'
    rw [hrest, List.mem_cons] at hk'
    cases hk' with
    | inl heq => simp [heq]
    | inr hk' => simpa using ((List.pairwise_cons.mp hbehind).1 k' hk').le
  conv_rhs => rw [← List.take_append_drop p s.keys, List.filter_append, hsmall, hlarge]
  rfl

theorem above_iff : s.Above k ↔ ∀ x ∈ s.entries, x.1 < k := by
  obtain ⟨entries, hasc⟩ := s
  unfold Above
  rcases List.eq_nil_or_concat' entries with rfl | ⟨xs, x, rfl⟩
  · simp
  · have hbefore : ∀ y ∈ xs, y.1 < x.1 := by
      intro y hy
      exact (List.pairwise_append.mp hasc).2.2 y hy x (by simp)
    constructor
    · intro h y hy
      have hx : x.1 < k := h x (by simp)
      cases List.mem_append.mp hy with
      | inl hy => exact (hbefore y hy).trans hx
      | inr hy =>
        obtain rfl := List.mem_singleton.mp hy
        exact hx
    · intro h y hy
      exact h y (List.mem_of_getLast? hy)

def push (s : Ascending K V) (x : K × V) (h : s.Above x.1) : Ascending K V where
  entries := s.entries ++ [x]
  ascending := by
    apply List.pairwise_append.mpr
    refine ⟨s.ascending, List.pairwise_singleton _ _, ?_⟩
    intro y hy z hz
    obtain rfl := List.mem_singleton.mp hz
    exact above_iff.mp h y hy

@[simp] theorem length_push (x : K × V) (h : s.Above x.1) :
    (s.push x h).length = s.length + 1 := by
  simp [length, push]

@[simp] theorem keys_push (x : K × V) (h : s.Above x.1) : (s.push x h).keys = s.keys ++ [x.1] := by
  simp [keys, push]

/-- An entry above the log is taken while there is room, any other one is dropped. -/
def take (cap : ℕ) (s : Ascending K V) (x : K × V) : Ascending K V :=
  if h : s.Above x.1 ∧ s.length < cap then s.push x h.1 else s

def takeAll (cap : ℕ) (s : Ascending K V) (xs : List (K × V)) : Ascending K V :=
  xs.foldl (take cap) s

theorem take_of_taken {x : K × V} (h : s.Above x.1 ∧ s.length < cap) :
    s.take cap x = s.push x h.1 := dif_pos h

theorem take_of_dropped {x : K × V} (h : ¬ (s.Above x.1 ∧ s.length < cap)) : s.take cap x = s :=
  dif_neg h

theorem length_take_le (s : Ascending K V) (cap : ℕ) (x : K × V) :
    s.length ≤ (s.take cap x).length := by
  unfold take
  split
  · rw [length_push]
    omega
  · exact Nat.le_refl _

theorem length_take_ge (s : Ascending K V) (cap : ℕ) (x : K × V) :
    (s.take cap x).length ≤ s.length + 1 := by
  unfold take
  split
  · exact Nat.le_of_eq (length_push _ _)
  · exact Nat.le_succ _

theorem length_takeAll_le (s : Ascending K V) (cap : ℕ) (xs : List (K × V)) :
    s.length ≤ (s.takeAll cap xs).length := by
  induction xs generalizing s with
  | nil => exact Nat.le_refl _
  | cons x xs ih =>
    apply Nat.le_trans (s.length_take_le cap x)
    exact ih (s.take cap x)

/-- A sequence that ascends further and for which there is room is taken as a whole. -/
theorem takeAll_entries {xs : List (K × V)}
    (hasc : (s.entries ++ xs).Pairwise (fun x y => x.1 < y.1))
    (hroom : s.length + xs.length ≤ cap) : (s.takeAll cap xs).entries = s.entries ++ xs := by
  induction xs generalizing s with
  | nil => simp [takeAll]
  | cons x xs ih =>
    have habove : s.Above x.1 :=
      above_iff.mpr (fun y hy => (List.pairwise_append.mp hasc).2.2 y hy x (by simp))
    rw [List.length_cons] at hroom
    have htake : s.take cap x = s.push x habove := take_of_taken ⟨habove, by omega⟩
    have hmore : (s.push x habove).entries ++ xs = s.entries ++ x :: xs := by simp [push]
    have hrest := ih (s := s.push x habove) (by rwa [hmore]) (by rw [length_push]; omega)
    rw [hmore] at hrest
    simpa only [takeAll, List.foldl_cons, htake] using hrest

end Ascending
end XStore.Lib
