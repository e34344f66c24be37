import XStore.Xkv.XArray

/-! Where a sorted array writes. The check of the key block counts 8 bytes a key, the write takes
`sizeof(KeyType)`. -/
namespace XStore.Xkv
open XStore.Lib
variable {K V : Type} [KeyType K] [Plain K] [Plain V]

namespace XArray

def step (a : XArray K V) (e : K × V × Bool) : Option (XArray K V) :=
  (a.insertWIndex e.1 e.2.1 e.2.2).toOption.map Prod.fst

/-- The bytes up to the end of place `size` are in the block of the keys. -/
def KeyFits (a : XArray K V) : Prop := (a.size + 1) * Plain.size K ≤ a.keyArraySz

/-- The bytes up to the end of place `size` are in the block of the values. -/
def ValFits (a : XArray K V) : Prop :=
  (a.size + 1) * Xcomm.WrappedType.size (Plain.size V) ≤ a.valArraySz

instance (a : XArray K V) : Decidable a.KeyFits := inferInstanceAs (Decidable (_ ≤ _))

/-- An accepted insert writes inside both blocks, and one that is refused for lack of key space
has none. -/
structure Inside (a : XArray K V) (e : K × V × Bool) : Prop where
  accepted : ∀ a', a.insertWIndex e.1 e.2.1 e.2.2 = .ok (a', true) →
    a'.size * Plain.size K ≤ a.keyArraySz ∧
      a'.size * Xcomm.WrappedType.size (Plain.size V) ≤ a.valArraySz
  refused : a.refusal e.1 = .ok (some .keySpace) → ¬ a.KeyFits

/-- The test with 8 bytes a key lets a larger key through only if it fits, and does let it
through if it fits; the other block may refuse it. -/
def TestAgrees (a : XArray K V) (e : K × V × Bool) : Prop :=
  a.Larger e.1 → ((a.size + 1) * 8 ≤ a.keyArraySz → a.ValFits → a.KeyFits) ∧
    (a.KeyFits → (a.size + 1) * 8 ≤ a.keyArraySz)

variable {a : XArray K V} {e : K × V × Bool}

theorem testAgrees_of_inside (h : a.Inside e) : a.TestAgrees e := by
  intro hlarger
  constructor
  · intro hkey hval
    have hnone : a.refusal e.1 = .ok none :=
      refusal_none_iff.mpr ⟨hlarger, memRefusal_none_iff.mpr ⟨hkey, hval⟩⟩
    exact (h.accepted _ (insertWIndex_true_iff.mpr ⟨hnone, rfl⟩)).1
  · intro hfits
    by_contra hnot
    have hkey : a.refusal e.1 = .ok (some .keySpace) :=
      refusal_keySpace_iff.mpr ⟨hlarger, not_le.mp hnot⟩
    exact h.refused hkey hfits

theorem inside_of_testAgrees (h : a.TestAgrees e) : a.Inside e := by
  constructor
  · intro a' hins
    obtain ⟨hnone, rfl⟩ := insertWIndex_true_iff.mp hins
    obtain ⟨hlarger, hmem⟩ := refusal_none_iff.mp hnone
    obtain ⟨hkey, hval⟩ := memRefusal_none_iff.mp hmem
    exact ⟨(h hlarger).1 hkey hval, hval⟩
  · intro hkey hfits
    obtain ⟨hlarger, hlt⟩ := refusal_keySpace_iff.mp hkey
    exact absurd ((h hlarger).2 hfits) (not_le.mpr hlt)

/-- Over two blocks all inserts stay inside, and none is refused without need, exactly if at
each of them the test with 8 bytes a key decides as the right one would. -/
theorem insert_inside_iff (keyArraySz valArraySz : ℕ) (keyPtr : ℕ → K)
    (valPtr : ℕ → Xcomm.WrappedType (Plain.size V)) (es : List (K × V × Bool)) :
    AllSteps step Inside es (ofBlocks keyArraySz valArraySz keyPtr valPtr) ↔
      AllSteps step TestAgrees es (ofBlocks keyArraySz valArraySz keyPtr valPtr) := by
  constructor
  · intro h
    exact h.mono (fun _ _ => testAgrees_of_inside)
  · intro h
    exact h.mono (fun _ _ => inside_of_testAgrees)

theorem insert_inside_of_eight (hs : Plain.size K = 8) (es : List (K × V × Bool)) :
    AllSteps step Inside es a := by
  have hagrees : ∀ (b : XArray K V) (e : K × V × Bool), b.TestAgrees e := by
    intro b e _
    unfold KeyFits
    rw [hs]
    exact ⟨fun h _ => h, id⟩
  induction es generalizing a with
  | nil => trivial
  | cons e es ih => exact ⟨inside_of_testAgrees (hagrees a e), fun a' _ => ih⟩

omit [Plain K] in
theorem step_blocks {a' : XArray K V} (h : a.step e = some a') :
    a'.keyArraySz = a.keyArraySz ∧ a'.valArraySz = a.valArraySz := by
  unfold step insertWIndex at h
  cases hr : a.refusal e.1 with
  | error f =>
    rw [hr] at h
    cases h
  | ok r =>
    rw [hr] at h
    cases r with
    | none =>
      obtain rfl := Option.some.inj h
      exact ⟨rfl, rfl⟩
    | some r =>
      obtain rfl := Option.some.inj h
      exact ⟨rfl, rfl⟩

/-- In the blocks that an array allocates itself, larger keys stay inside as well: there the
values run out first. -/
theorem insert_inside_ofMaxNumK (hs : 8 ≤ Plain.size K) (n : ℕ) (keyPtr : ℕ → K)
    (valPtr : ℕ → Xcomm.WrappedType (Plain.size V)) (es : List (K × V × Bool)) :
    AllSteps step Inside es (ofMaxNumK n keyPtr valPtr) := by
  have hpos : 0 < Xcomm.WrappedType.size (Plain.size V) := by
    unfold Xcomm.WrappedType.size
    omega
  have hall : ∀ a : XArray K V, a.keyArraySz = n * Plain.size K →
      a.valArraySz = n * Xcomm.WrappedType.size (Plain.size V) → AllSteps step Inside es a := by
    induction es with
    | nil => exact fun _ _ _ => trivial
    | cons e es ih =>
      intro a hkey hval
      have hagrees : a.TestAgrees e := by
        intro _
        unfold KeyFits ValFits
        rw [hkey, hval]
        constructor
        · intro _ hfits
          exact Nat.mul_le_mul_right _ (Nat.le_of_mul_le_mul_right hfits hpos)
        · intro hfits
          exact (Nat.mul_le_mul_left _ hs).trans hfits
      refine ⟨inside_of_testAgrees hagrees, fun a' hstep => ?_⟩
      obtain ⟨hkey', hval'⟩ := step_blocks hstep
      exact ih a' (hkey'.trans hkey) (hval'.trans hval)
  exact hall _ rfl rfl

end XArray

abbrev BytesKey (w : ℕ) := Fin (256 ^ w)

instance (w : ℕ) : Plain (BytesKey w) where
  size := w
  toBytes k := toBytes w k
  ofBytes bs := Fin.ofNat _ (ofBytes bs)
  length_toBytes k := by simp
  ofBytes_toBytes k := by
    rw [ofBytes_toBytes_of_lt k.isLt]
    exact Fin.ofNat_val_eq_self k

/-- Two keys of 16 bytes are accepted for a block of 16 bytes, and a key of 4 bytes is refused
for a block of 4. -/
theorem XArray.insert_outside :
    (¬ AllSteps step Inside [((1 : BytesKey 16), ((0 : XKey), false)), (2, (0, false))]
      (ofBlocks 16 128 (fun _ => 0) (fun _ => .init (fun _ => 0)))) ∧
    ¬ AllSteps step Inside [((1 : BytesKey 4), ((0 : XKey), false))]
      (ofBlocks 4 64 (fun _ => 0) (fun _ => .init (fun _ => 0))) := by
  constructor
  · intro h
    have hsecond := (h.2 _ rfl).1.accepted _ rfl
    exact absurd hsecond.1 (by decide)
  · intro h
    exact h.1.refused rfl (by decide)

end XStore.Xkv
