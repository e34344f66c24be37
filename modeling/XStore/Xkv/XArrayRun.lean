import XStore.Xkv.XArray

/-! What stands in a sorted array after any sequence of inserts: a log with ascending keys. The
indices of `keys_at` and `vals_at` are ints, which 2^31 keys just fit. -/
namespace XStore.Xkv
open XStore.Lib
variable {K V : Type} [LinearOrder K] [BoundedOrder K] [Plain V]

namespace XArray

def storedKeys (a : XArray K V) : List K := (List.range a.size).map a.keyPtr

def room (keyArraySz valArraySz : ℕ) (V : Type) [Plain V] : ℕ :=
  Nat.min (keyArraySz / 8) (valArraySz / Xcomm.WrappedType.size (Plain.size V))

structure Holds (a : XArray K V) (s : Ascending K V) : Prop where
  size : a.size = s.length
  cell : ∀ i x, s.entries[i]? = some x →
    a.keyPtr i = x.1 ∧ ofPayload V (a.valPtr i).payload = x.2
  index : a.index = s.keys.zipIdx

variable {a a' : XArray K V} {s : Ascending K V} {k : K} {v : V}

section Prev
omit [LinearOrder K] [BoundedOrder K]

theorem keysAt_prev (hne : a.size ≠ 0) (hlen : a.size ≤ 2 ^ 31) :
    a.keysAt (toInt32 (a.size - 1)) = some (a.keyPtr (a.size - 1)) := by
  have hplace : ((a.size : ℤ) - 1) = ((a.size - 1 : ℕ) : ℤ) := by omega
  have hint : toInt32 ((a.size - 1 : ℕ) : ℤ) = ((a.size - 1 : ℕ) : ℤ) :=
    toInt32_eq (by omega) (by omega)
  rw [hplace, hint, keysAt, if_pos (by omega), Int.toNat_natCast]

theorem keysAt_prev_none (hlen : a.size = 2 ^ 31 + 1) :
    a.keysAt (toInt32 (a.size - 1)) = none := by
  have hneg : toInt32 (a.size - 1) < 0 := toInt32_neg (by omega) (by omega)
  exact if_neg (fun hin => by omega)

end Prev

omit [BoundedOrder K] in
theorem Holds.ofBlocks (keyArraySz valArraySz : ℕ) (keyPtr : ℕ → K)
    (valPtr : ℕ → Xcomm.WrappedType (Plain.size V)) :
    Holds (ofBlocks keyArraySz valArraySz keyPtr valPtr) .empty where
  size := rfl
  cell := by simp [Ascending.empty]
  index := rfl

namespace Holds

section Reads
omit [BoundedOrder K]

theorem column {α : Type} {f : ℕ → α} {g : K × V → α} (h : Holds a s)
    (hf : ∀ i x, s.entries[i]? = some x → f i = g x) (i : ℕ) :
    (if 0 ≤ (i : ℤ) ∧ (i : ℤ) < a.size then some (f (i : ℤ).toNat) else none) =
      (s.entries[i]?).map g := by
  have hsize : a.size = s.entries.length := h.size
  by_cases hi : i < s.entries.length
  · have hentry : s.entries[i]? = some s.entries[i] := List.getElem?_eq_getElem hi
    rw [if_pos (by omega), hentry, Option.map_some, Int.toNat_natCast, hf i _ hentry]
  · rw [if_neg (by omega), List.getElem?_eq_none (by omega), Option.map_none]

theorem keysAt (h : Holds a s) (i : ℕ) : a.keysAt i = s.keys[i]? := by
  rw [Ascending.keys_getElem?]
  exact h.column (fun i x hx => (h.cell i x hx).1) i

theorem valsAt (h : Holds a s) (i : ℕ) : a.valsAt i = (s.entries[i]?).map Prod.snd :=
  h.column (f := fun i => ofPayload V (a.valPtr i).payload) (fun i x hx => (h.cell i x hx).2) i

theorem storedKeys (h : Holds a s) : a.storedKeys = s.keys := by
  apply List.ext_getElem?
  intro i
  have hread := h.keysAt i
  unfold XArray.keysAt at hread
  rw [← hread]
  by_cases hi : i < a.size
  · simp [XArray.storedKeys, hi]
  · simp [XArray.storedKeys, hi]

theorem mem_storedKeys_iff (h : Holds a s) : k ∈ a.storedKeys ↔ ∃ p : ℕ, s.keys[p]? = some k := by
  rw [h.storedKeys, List.mem_iff_getElem?]

end Reads

theorem pos_eq_some_iff (h : Holds a s) {p : ℕ} : a.pos k = some p ↔ s.keys[p]? = some k := by
  have hsame : ∀ e : K × ℕ, sameKey k e = true ↔ e.1 = k := by
    intro e
    simp only [sameKey, KeyType.lt_ofOrder, Bool.and_eq_true, Bool.not_eq_true',
      decide_eq_false_iff_not, not_lt]
    exact ⟨fun hle => le_antisymm hle.2 hle.1, fun heq => ⟨heq.ge, heq.le⟩⟩
  have hfound : ∀ e, a.index.find? (sameKey k) = some e → s.keys[e.2]? = some k := by
    intro e he
    have hmem := List.mem_of_find?_eq_some he
    rw [h.index, List.mem_zipIdx_iff_getElem?] at hmem
    rw [hmem, (hsame e).mp (List.find?_some he)]
  unfold XArray.pos
  constructor
  · intro hpos
    obtain ⟨e, he, rfl⟩ := Option.map_eq_some_iff.mp hpos
    exact hfound e he
  · intro hp
    have hmem : (k, p) ∈ a.index := by
      rw [h.index, List.mem_zipIdx_iff_getElem?]
      exact hp
    obtain ⟨e, he⟩ : ∃ e, a.index.find? (sameKey k) = some e := by
      apply Option.isSome_iff_exists.mp
      exact List.find?_isSome.mpr ⟨(k, p), hmem, (hsame (k, p)).mpr rfl⟩
    rw [he, Option.map_some, Ascending.place_unique (hfound e he) hp]

theorem pos_eq_none_iff (h : Holds a s) : a.pos k = none ↔ k ∉ a.storedKeys := by
  rw [h.mem_storedKeys_iff, Option.eq_none_iff_forall_ne_some, not_exists]
  exact forall_congr' (fun p => not_congr h.pos_eq_some_iff)

theorem addIndex (h : Holds a s) (habove : s.Above k) :
    XArray.addIndex a.index k a.size = a.index ++ [(k, a.size)] := by
  have hnew : a.index.any (sameKey k) = false := by
    rw [← Bool.not_eq_true, List.any_eq_true, h.index]
    rintro ⟨⟨k', i⟩, hmem, hsame⟩
    rw [List.mem_zipIdx_iff_getElem?, Ascending.keys_getElem?, Option.map_eq_some_iff] at hmem
    obtain ⟨x, hx, rfl⟩ := hmem
    have hlt : x.1 < k := Ascending.above_iff.mp habove x (List.mem_of_getElem? hx)
    simp [sameKey, hlt] at hsame
  rw [XArray.addIndex, hnew, if_neg Bool.false_ne_true]

theorem append (h : Holds a s) (habove : s.Above k) :
    Holds (a.append k v true) (s.push (k, v) habove) where
  size := by simp [XArray.append, h.size]
  cell := by
    intro i x hx
    have hsize : a.size = s.entries.length := h.size
    by_cases hi : i = a.size
    · subst hi
      obtain rfl : (k, v) = x := by simpa [Ascending.push, hsize] using hx
      simp [XArray.append, Xcomm.WrappedType.reset]
    · have hlt : i < s.entries.length := by
        have hbound := (List.getElem?_eq_some_iff.mp hx).1
        simp only [Ascending.push, List.length_append, List.length_singleton] at hbound
        omega
      have hold : s.entries[i]? = some x := by
        simpa only [Ascending.push, List.getElem?_append_left hlt] using hx
      simpa [XArray.append, hi] using h.cell i x hold
  index := by
    change XArray.addIndex a.index k a.size = _
    rw [h.addIndex habove, h.index, h.size, Ascending.keys_push, List.zipIdx_append,
      Ascending.length_keys, Nat.zero_add]
    rfl

omit [BoundedOrder K] in
/-- Above the log is above the last key in the block. -/
theorem above_iff (h : Holds a s) (k : K) :
    s.Above k ↔ a.size = 0 ∨ a.keyPtr (a.size - 1) < k := by
  have hsize : a.size = s.entries.length := h.size
  unfold Ascending.Above
  by_cases hne : a.size = 0
  · have hnil : s.entries = [] := List.length_eq_zero_iff.mp (hsize.symm.trans hne)
    simp [hne, hnil]
  · have hentries : s.entries ≠ [] := fun hnil => hne (by rw [hsize, hnil, List.length_nil])
    have hlast : s.entries[a.size - 1]? = some (s.entries.getLast hentries) := by
      rw [hsize, ← List.getLast?_eq_getElem?, List.getLast?_eq_some_getLast hentries]
    rw [(h.cell _ _ hlast).1]
    simp [hne, List.getLast?_eq_some_getLast hentries]

theorem larger_iff (h : Holds a s) (hlen : s.length ≤ 2 ^ 31) : a.Larger k ↔ s.Above k := by
  have hsize : a.size ≤ 2 ^ 31 := h.size.trans_le hlen
  rw [h.above_iff]
  unfold Larger
  by_cases hne : a.size = 0
  · simp [hne]
  · simp [hne, keysAt_prev hne hsize]

omit [BoundedOrder K] in
theorem memRefusal_none_iff (h : Holds a s) :
    a.memRefusal = none ↔ s.length < room a.keyArraySz a.valArraySz V := by
  have hpos : 0 < Xcomm.WrappedType.size (Plain.size V) := by
    unfold Xcomm.WrappedType.size
    omega
  rw [XArray.memRefusal_none_iff, h.size, ← Nat.le_div_iff_mul_le (by omega),
    ← Nat.le_div_iff_mul_le hpos, ← Nat.le_min]
  rfl

/-- A lookup finds exactly the entries of the log. -/
theorem get_eq_some_iff (h : Holds a s) (hlen : s.length ≤ 2 ^ 31) :
    a.get k = some v ↔ (k, v) ∈ s.entries := by
  have hread : ∀ p : ℕ, s.keys[p]? = some k →
      a.valsAt (toInt32 p) = (s.entries[p]?).map Prod.snd := by
    intro p hp
    obtain ⟨hlt, -⟩ := List.getElem?_eq_some_iff.mp hp
    rw [Ascending.length_keys] at hlt
    rw [toInt32_eq (by omega) (by omega), h.valsAt]
  unfold XArray.get
  rw [Option.bind_eq_some_iff]
  constructor
  · intro hget
    obtain ⟨p, hpos, hval⟩ := hget
    have hp := h.pos_eq_some_iff.mp hpos
    rw [hread p hp] at hval
    obtain ⟨x, hx, rfl⟩ := Option.map_eq_some_iff.mp hval
    rw [Ascending.keys_getElem?, hx, Option.map_some] at hp
    obtain rfl := Option.some.inj hp
    exact List.mem_of_getElem? hx
  · intro hmem
    obtain ⟨p, hx⟩ := List.mem_iff_getElem?.mp hmem
    have hp : s.keys[p]? = some k := by rw [Ascending.keys_getElem?, hx, Option.map_some]
    refine ⟨p, h.pos_eq_some_iff.mpr hp, ?_⟩
    rw [hread p hp, hx, Option.map_some]

theorem get_last (h : Holds a s) (hlen : s.length = 2 ^ 31 + 1) :
    ∃ x ∈ s.entries, a.get x.1 = none := by
  have hlt : 2 ^ 31 < s.entries.length := by
    unfold Ascending.length at hlen
    omega
  have hentry := List.getElem?_eq_getElem hlt
  refine ⟨s.entries[2 ^ 31], List.getElem_mem hlt, ?_⟩
  have hp : s.keys[2 ^ 31]? = some s.entries[2 ^ 31].1 := by
    rw [Ascending.keys_getElem?, hentry, Option.map_some]
  unfold XArray.get
  rw [h.pos_eq_some_iff.mpr hp, Option.bind_some]
  have hneg : toInt32 ((2 ^ 31 : ℕ) : ℤ) < 0 := toInt32_neg (by omega) (by omega)
  exact if_neg (fun hin => by omega)

theorem refusal_ok (h : Holds a s) (hlen : s.length ≤ 2 ^ 31) : ∃ r, a.refusal k = .ok r := by
  unfold refusal
  split
  · next hne =>
    rw [keysAt_prev hne (h.size.trans_le hlen), need_some, ok_bind]
    exact ⟨_, rfl⟩
  · exact ⟨_, rfl⟩

theorem insert (h : Holds a s) (hlen : s.length ≤ 2 ^ 31) (v : V) :
    ∃ a' r, a.insert k v = .ok (a', r) ∧
      Holds a' (s.take (room a.keyArraySz a.valArraySz V) (k, v)) ∧
      (r = true ↔ s.Above k ∧ s.length < room a.keyArraySz a.valArraySz V) ∧
      (r = false → a' = a) ∧ a'.keyArraySz = a.keyArraySz ∧ a'.valArraySz = a.valArraySz := by
  have hnone : a.refusal k = .ok none ↔
      s.Above k ∧ s.length < room a.keyArraySz a.valArraySz V := by
    rw [refusal_none_iff, h.larger_iff hlen, h.memRefusal_none_iff]
  by_cases htaken : s.Above k ∧ s.length < room a.keyArraySz a.valArraySz V
  · refine ⟨a.append k v true, true, ?_, ?_, by simp [htaken], by simp, rfl, rfl⟩
    · exact insertWIndex_true_iff.mpr ⟨hnone.mpr htaken, rfl⟩
    · rw [Ascending.take_of_taken htaken]
      exact h.append htaken.1
  · obtain ⟨r, hr⟩ := h.refusal_ok (k := k) hlen
    cases r with
    | none => exact absurd (hnone.mp hr) htaken
    | some r =>
      refine ⟨a, false, ?_, ?_, by simp [htaken], fun _ => rfl, rfl, rfl⟩
      · simp [XArray.insert, insertWIndex, hr]
      · rwa [Ascending.take_of_dropped htaken]

/-- Into 2^31 + 1 entries it raises: the previous key is not found. -/
theorem insert_raises (h : Holds a s) (hlen : s.length = 2 ^ 31 + 1) (v : V) :
    a.insert k v = .error .emptyOption := by
  have hsize : a.size = 2 ^ 31 + 1 := h.size.trans hlen
  have hne : a.size ≠ 0 := by omega
  simp [XArray.insert, insertWIndex, refusal, hne, keysAt_prev_none hsize]

end Holds
end XArray
end XStore.Xkv
