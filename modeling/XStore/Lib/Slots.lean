import Mathlib.Data.List.InsertIdx
import Mathlib.Data.List.OfFn
import Mathlib.Logic.Function.Basic

/-! Arrays of a fixed length of which the first slots are in use: what a shift and a copy,
slot by slot, do to the list of the used ones. -/
namespace XStore.Lib
variable {α : Type*} {n : ℕ}

def readSlot (a : Fin n → α) (i : ℕ) : Option α :=
  if h : i < n then some (a ⟨i, h⟩) else none

def writeSlot (a : Fin n → α) (i : ℕ) (x : α) : Option (Fin n → α) :=
  if h : i < n then some (Function.update a ⟨i, h⟩ x) else none

def firstSlots (a : Fin n → α) (m : ℕ) : List α := (List.ofFn a).take m

variable (a : Fin n → α) {i m : ℕ}

theorem readSlot_of_lt (h : i < n) : readSlot a i = some (a ⟨i, h⟩) := dif_pos h

theorem writeSlot_of_lt (h : i < n) (x : α) :
    writeSlot a i x = some (Function.update a ⟨i, h⟩ x) := dif_pos h

theorem length_firstSlots (hm : m ≤ n) : (firstSlots a m).length = m := by
  simp [firstSlots, hm]

theorem getElem?_firstSlots : (firstSlots a m)[i]? = if i < m then readSlot a i else none := by
  unfold firstSlots readSlot
  rw [List.getElem?_take]
  split
  · rw [List.getElem?_ofFn]
  · rfl

theorem getElem?_firstSlots_of_lt (him : i < m) (hin : i < n) :
    (firstSlots a m)[i]? = some (a ⟨i, hin⟩) := by
  rw [getElem?_firstSlots, if_pos him, readSlot_of_lt a hin]

theorem take_firstSlots {k : ℕ} (hk : k ≤ m) : (firstSlots a m).take k = firstSlots a k := by
  unfold firstSlots
  rw [List.take_take, Nat.min_eq_left hk]

theorem firstSlots_eq {l : List α} (hm : m ≤ n) (hlen : l.length = m)
    (h : ∀ i (hi : i < n), i < m → l[i]? = some (a ⟨i, hi⟩)) : firstSlots a m = l := by
  apply List.ext_getElem?
  intro i
  by_cases him : i < m
  · rw [getElem?_firstSlots_of_lt a him (by omega), h i (by omega) him]
  · rw [getElem?_firstSlots, if_neg him, List.getElem?_eq_none (by omega)]

theorem firstSlots_push (hm : m < n) (x : α) :
    firstSlots (Function.update a ⟨m, hm⟩ x) (m + 1) = firstSlots a m ++ [x] := by
  have hlen := length_firstSlots a hm.le
  apply firstSlots_eq _ (by omega) (by simp [hlen])
  intro i hi him
  by_cases h : i = m
  · subst h
    rw [Function.update_self, List.getElem?_append_right (by omega), hlen, Nat.sub_self]
    rfl
  · rw [List.getElem?_append_left (by omega), getElem?_firstSlots_of_lt a (by omega) hi,
      Function.update_of_ne (fun heq => h (congrArg Fin.val heq))]

theorem firstSlots_succ (hm : m < n) : firstSlots a (m + 1) = firstSlots a m ++ [a ⟨m, hm⟩] := by
  have h := firstSlots_push a hm (a ⟨m, hm⟩)
  rwa [Function.update_eq_self] at h

def shifted (pos i : ℕ) (a : Fin n → α) : Fin n → α := fun j =>
  if pos < j.val ∧ j.val ≤ i then a ⟨j.val - 1, by omega⟩ else a j

/-- A loop that comes down to `pos` has nothing left to move. -/
theorem shifted_of_le {pos : ℕ} (h : i ≤ pos) : shifted pos i a = a := by
  funext j
  exact if_neg (by omega)

theorem shifted_step {pos : ℕ} (hpos : pos ≤ i) (hi : i + 1 < n) :
    shifted pos i (Function.update a ⟨i + 1, hi⟩ (a ⟨i, by omega⟩)) = shifted pos (i + 1) a := by
  funext j
  unfold shifted
  by_cases hj : j.val = i + 1
  · obtain rfl : j = ⟨i + 1, hi⟩ := Fin.ext hj
    rw [if_neg (by simp), if_pos (by simp; omega), Function.update_self]
    rfl
  · have hne : j ≠ ⟨i + 1, hi⟩ := fun heq => hj (congrArg Fin.val heq)
    by_cases hin : pos < j.val ∧ j.val ≤ i
    · have hprev : (⟨j.val - 1, by omega⟩ : Fin n) ≠ ⟨i + 1, hi⟩ := by
        intro heq
        have := congrArg Fin.val heq
        simp only at this
        omega
      rw [if_pos hin, if_pos (by omega), Function.update_of_ne hprev]
    · rw [if_neg hin, if_neg (by omega), Function.update_of_ne hne]

/-- The shift and the write into the slot it frees insert into the used slots. -/
theorem firstSlots_insertIdx {pos : ℕ} (hpos : pos ≤ m) (hm : m < n) (x : α) :
    firstSlots (Function.update (shifted pos m a) ⟨pos, by omega⟩ x) (m + 1) =
      (firstSlots a m).insertIdx pos x := by
  have hlen := length_firstSlots a hm.le
  apply firstSlots_eq _ (by omega)
    (by rw [List.length_insertIdx_of_le_length (by omega), hlen])
  intro i hi him
  rw [List.getElem?_insertIdx]
  by_cases hlt : i < pos
  · have hne : (⟨i, hi⟩ : Fin n) ≠ ⟨pos, by omega⟩ :=
      fun heq => absurd (congrArg Fin.val heq) hlt.ne
    rw [if_pos hlt, getElem?_firstSlots_of_lt a (by omega) hi, Function.update_of_ne hne]
    exact congrArg some (if_neg (by simp only; omega)).symm
  · rw [if_neg hlt]
    by_cases heq : i = pos
    · subst heq
      rw [if_pos rfl, if_pos (by omega), Function.update_self]
    · have hne : (⟨i, hi⟩ : Fin n) ≠ ⟨pos, by omega⟩ := fun h => heq (congrArg Fin.val h)
      rw [if_neg heq, getElem?_firstSlots_of_lt a (by omega) (by omega),
        Function.update_of_ne hne]
      exact congrArg some (if_pos (by simp only; omega)).symm

def copied (src : Fin n → α) (start cnt : ℕ) (dst : Fin n → α) : Fin n → α := fun j =>
  if h : j.val < cnt ∧ start + j.val < n then src ⟨start + j.val, h.2⟩ else dst j

theorem copied_zero (src : Fin n → α) (start : ℕ) : copied src start 0 a = a := by
  funext j
  exact dif_neg (by omega)

theorem copied_step (src : Fin n → α) {start cnt : ℕ} (h : start + cnt < n) :
    Function.update (copied src start cnt a) ⟨cnt, by omega⟩ (src ⟨start + cnt, h⟩) =
      copied src start (cnt + 1) a := by
  have hcnt : cnt < n := by omega
  funext j
  by_cases hj : j.val = cnt
  · obtain rfl : j = ⟨cnt, hcnt⟩ := Fin.ext hj
    rw [Function.update_self]
    unfold copied
    rw [dif_pos ⟨Nat.lt_succ_self cnt, h⟩]
  · rw [Function.update_of_ne (fun heq => hj (congrArg Fin.val heq))]
    unfold copied
    by_cases hin : j.val < cnt ∧ start + j.val < n
    · rw [dif_pos hin, dif_pos ⟨by omega, hin.2⟩]
    · rw [dif_neg hin, dif_neg (by omega)]

theorem firstSlots_copied (src : Fin n → α) {start cnt : ℕ} (h : start + cnt ≤ n) :
    firstSlots (copied src start cnt a) cnt = (firstSlots src (start + cnt)).drop start := by
  apply firstSlots_eq _ (by omega)
    (by rw [List.length_drop, length_firstSlots _ h, Nat.add_sub_cancel_left])
  intro i hi hic
  rw [List.getElem?_drop, getElem?_firstSlots_of_lt src (by omega) (by omega)]
  unfold copied
  rw [dif_pos (show i < cnt ∧ start + i < n by omega)]

end XStore.Lib
