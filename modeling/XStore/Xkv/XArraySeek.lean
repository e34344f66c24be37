import XStore.Xkv.XArrayIter

/-! Seeking in a sorted array. For a key that is not there the iterator should come behind the
last key, but it stays where it was. -/
namespace XStore.Xkv
open XStore.Lib XStore.Xcache
variable {K V : Type} [LinearOrder K] [BoundedOrder K] [Plain V]

/-- After the seek the iterator yields the stored keys from `k` on, and none at all if `k` is
not stored. -/
def Positions (a : XArray K V) (i : ℕ) (k : K) : Prop :=
  ∃ xs, Yields a ((⟨i, a⟩ : ArrayIter K V).seek k a) xs ∧ xs.map Prod.fst =
    if k ∈ a.storedKeys then a.storedKeys.filter (fun k' => decide (k ≤ k')) else []

def TrainsInRange (a : XArray K V) (i : ℕ) (tr : XMLTrainer K) : Prop :=
  ∀ (S : Type) [SampleTrait S K] (fuel : ℕ) (it : ArrayIter K V) (s s' : S) (t : TrainSet K),
    tr.snapshpotTrainLabels fuel (⟨i, a⟩ : ArrayIter K V) a s = .ok (it, s', t) →
    ∃ xs, emit xs s = .ok t ∧ ∀ x ∈ xs, tr.startKey ≤ x.1 ∧ x.1 ≤ tr.endKey

/-- The seek is as it should be, also for the trainers that start at `k`. -/
structure SeekOk (a : XArray K V) (i : ℕ) (k : K) : Prop where
  positions : Positions a i k
  trains : ∀ tr : XMLTrainer K, tr.startKey = k → TrainsInRange a i tr

variable {a : XArray K V} {s : Ascending K V} {i : ℕ} {k : K}

theorem trainsInRange_of_yields {tr : XMLTrainer K} {ys : List (K × ℕ)}
    (hy : Yields a ((⟨i, a⟩ : ArrayIter K V).seek tr.startKey a) ys)
    (hlow : ∀ y ∈ ys, tr.startKey ≤ y.1) : TrainsInRange a i tr := by
  intro S _ fuel it s s' t h
  obtain ⟨it₀, hseek, h⟩ := bind_eq_ok.mp h
  obtain rfl := Except.ok.inj hseek
  obtain ⟨⟨it₁, s₁, t₁⟩, hloop, h⟩ := bind_eq_ok.mp h
  obtain ⟨t₂, hfin, h⟩ := bind_eq_ok.mp h
  obtain ⟨-, -, rfl⟩ : it₁ = it ∧ s₁ = s' ∧ t₂ = t := by simpa using h
  refine ⟨ys.takeWhile (fun y => !KeyType.gt y.1 tr.endKey), ?_, ?_⟩
  · rw [emit, labelLoop_yields hy hloop, ok_bind]
    exact hfin
  · intro y hin
    have hmem : y ∈ ys := (List.takeWhile_prefix _).subset hin
    have hhigh := List.mem_takeWhile_imp hin
    exact ⟨hlow y hmem, by simpa using hhigh⟩

namespace XArray.Holds

theorem seek_stored (h : Holds a s) {p : ℕ} (hp : s.keys[p]? = some k) (i : ℕ) :
    (⟨i, a⟩ : ArrayIter K V).seek k a = ⟨p, a⟩ := by
  simp only [ArrayIter.seek, h.pos_eq_some_iff.mpr hp]

/-- A key that is not stored leaves the iterator where it was. -/
theorem seek_absent (h : Holds a s) (hk : k ∉ a.storedKeys) (i : ℕ) :
    (⟨i, a⟩ : ArrayIter K V).seek k a = ⟨i, a⟩ := by
  simp only [ArrayIter.seek, h.pos_eq_none_iff.mpr hk]

theorem seekOk_stored (h : Holds a s) (hlen : s.length ≤ 2 ^ 31) (hk : k ∈ a.storedKeys)
    (i : ℕ) : SeekOk a i k := by
  obtain ⟨p, hp⟩ := h.mem_storedKeys_iff.mp hk
  have hkeys : (s.keys.zipIdx.drop p).map Prod.fst =
      a.storedKeys.filter (fun k' => decide (k ≤ k')) := by
    rw [List.map_drop, List.zipIdx_map_fst, h.storedKeys, Ascending.drop_eq_filter hp]
  have hyields := h.yields hlen p
  rw [← h.seek_stored hp i] at hyields
  constructor
  · exact ⟨_, hyields, by rw [hkeys, if_pos hk]⟩
  · intro tr htr
    subst htr
    apply trainsInRange_of_yields hyields
    intro y hy
    have hmem : y.1 ∈ (s.keys.zipIdx.drop p).map Prod.fst := List.mem_map_of_mem hy
    rw [hkeys, List.mem_filter] at hmem
    simpa using hmem.2

theorem seekOk_absent (h : Holds a s) (hk : k ∉ a.storedKeys) (hi : a.size ≤ i) :
    SeekOk a i k := by
  have hyields : Yields a ((⟨i, a⟩ : ArrayIter K V).seek k a) [] := by
    rw [h.seek_absent hk]
    exact .done (decide_eq_false (not_lt.mpr hi))
  constructor
  · exact ⟨[], hyields, by rw [if_neg hk, List.map_nil]⟩
  · intro tr htr
    subst htr
    exact trainsInRange_of_yields hyields (by simp)

theorem positions_cases (h : Holds a s) (hlen : s.length ≤ 2 ^ 31 + 1) (hp : Positions a i k) :
    k ∈ a.storedKeys ∧ a.size ≤ 2 ^ 31 ∨ k ∉ a.storedKeys ∧ a.size ≤ i := by
  have hsize : a.size = s.length := h.size
  obtain ⟨xs, hyields, hkeys⟩ := hp
  by_cases hk : k ∈ a.storedKeys
  · left
    refine ⟨hk, ?_⟩
    by_contra hmore
    obtain ⟨p, hp⟩ := h.mem_storedKeys_iff.mp hk
    obtain ⟨hlt, -⟩ := List.getElem?_eq_some_iff.mp hp
    rw [Ascending.length_keys] at hlt
    rw [h.seek_stored hp] at hyields
    exact h.not_yields (by omega) (by omega) xs hyields
  · right
    refine ⟨hk, ?_⟩
    rw [if_neg hk, List.map_eq_nil_iff] at hkeys
    subst hkeys
    rw [h.seek_absent hk] at hyields
    cases hyields with
    | done hnone => exact not_lt.mp (of_decide_eq_false hnone)

end XArray.Holds

/-- In an array reached by inserts, a seek from any position is as it should be exactly if the
key is stored and the places fit an int, or if it is not and the iterator was at the end. -/
theorem ArrayIter.seek_ok_iff (keyArraySz valArraySz : ℕ) (keyPtr : ℕ → K)
    (valPtr : ℕ → Xcomm.WrappedType (Plain.size V)) (es log : List (K × V)) (a : XArray K V)
    (hrun : run Logged.step es (XArray.ofBlocks keyArraySz valArraySz keyPtr valPtr, []) =
      some (a, log)) (i : ℕ) (k : K) :
    SeekOk a i k ↔
      k ∈ a.storedKeys ∧ a.size ≤ 2 ^ 31 ∨ k ∉ a.storedKeys ∧ a.size ≤ i := by
  obtain ⟨s, hinv, hlen⟩ :=
    (Logged.Inv.ofBlocks keyArraySz valArraySz keyPtr valPtr).reached hrun (Nat.zero_le _)
  have hsize : a.size = s.length := hinv.holds.size
  constructor
  · intro h
    exact hinv.holds.positions_cases hlen h.positions
  · intro h
    cases h with
    | inl hstored => exact hinv.holds.seekOk_stored (by omega) hstored.1 i
    | inr habsent => exact hinv.holds.seekOk_absent habsent.1 habsent.2

def threeKeys : XArray XKey XKey :=
  (((XArray.ofBlocks 24 192 (fun _ => 0) (fun _ => .init (fun _ => 0))).append 3 30 true).append
    5 50 true).append 7 70 true

theorem run_threeKeys : run Logged.step [((3 : XKey), (30 : XKey)), (5, 50), (7, 70)]
    (XArray.ofBlocks 24 192 (fun _ => 0) (fun _ => .init (fun _ => 0)), []) =
      some (threeKeys, [(3, 30), (5, 50), (7, 70)]) := rfl

/-- A seek for the key 4 leaves a new iterator at the key 3, and a trainer of the keys from 4 to
6 trains on it. -/
theorem ArrayIter.seek_stays : ¬ SeekOk threeKeys 0 4 ∧
    ((⟨4, 6, 0, 0, 0⟩ : XMLTrainer XKey).snapshpotTrainLabels 4 (ofArray threeKeys) threeKeys
      ({} : DefaultSample XKey)).toOption.map (fun r => r.2.2.set) = some [3, 5] := by
  constructor
  · intro h
    obtain ⟨s, hinv, hlen⟩ := (Logged.Inv.ofBlocks _ _ _ _).reached run_threeKeys (Nat.zero_le _)
    cases hinv.holds.positions_cases hlen h.positions with
    | inl hstored => exact absurd hstored.1 (by decide)
    | inr habsent => exact absurd habsent.2 (by decide)
  · decide +kernel

theorem ArrayIter.seek_ok_three : SeekOk threeKeys 2 5 :=
  (seek_ok_iff 24 192 _ _ _ _ threeKeys run_threeKeys 2 5).mpr (by decide)

end XStore.Xkv
