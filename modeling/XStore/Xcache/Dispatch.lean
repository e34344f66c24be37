import XStore.Lib.Bucket
import XStore.Xcache.Rmi
import XStore.Xkv.IterOrder

/-! Every key of the tree reaches exactly the trainer of the submodel it selects. -/
namespace XStore.Xcache
open XStore.Lib XStore.Xkv XStore.Xml
variable {N : ℕ} {K V M₁ M₂ : Type} [LinearOrder K] [BoundedOrder K]

namespace XMLTrainer
variable [Usize] (t : XMLTrainer K) (k : K) (ks : List K)

theorem startKey_updateKey : (t.updateKey k).startKey = min t.startKey k := by
  have h : (t.updateKey k).startKey = stdMin t.startKey k := by
    simp only [updateKey]
    split <;> rfl
  rw [h]
  by_cases hk : k < t.startKey
  · simp [stdMin, hk, hk.le]
  · simp [stdMin, hk, not_lt.mp hk]

theorem endKey_updateKey : (t.updateKey k).endKey = max t.endKey k := by
  have h : (t.updateKey k).endKey = stdMax t.endKey k := by
    simp only [updateKey]
    split <;> rfl
  rw [h]
  by_cases hk : t.endKey < k
  · simp [stdMax, hk, hk.le]
  · simp [stdMax, hk, not_lt.mp hk]

theorem lWatermark_updateKey : (t.updateKey k).lWatermark = t.lWatermark := by
  simp only [updateKey]
  split <;> rfl

theorem hWatermark_updateKey : (t.updateKey k).hWatermark =
    if t.hWatermark > t.lWatermark then t.hWatermark else (t.hWatermark + 1) % 2 ^ Usize.bits := by
  by_cases h : t.hWatermark > t.lWatermark <;> simp [updateKey, needTrain, h]

theorem needTrain_updateKey (h : t.lWatermark ≤ t.hWatermark)
    (hl : t.lWatermark + 1 < 2 ^ Usize.bits) :
    (t.updateKey k).needTrain = true ∧ t.lWatermark ≤ (t.updateKey k).hWatermark := by
  simp only [needTrain, decide_eq_true_eq, lWatermark_updateKey, hWatermark_updateKey]
  split
  · omega
  · rw [Nat.mod_eq_of_lt (by omega)]
    omega

def received (ks : List K) : XMLTrainer K := ks.foldl updateKey new

theorem foldl_startKey : (ks.foldl updateKey t).startKey ≤ t.startKey ∧
    ∀ k ∈ ks, (ks.foldl updateKey t).startKey ≤ k := by
  induction ks generalizing t with
  | nil => simp
  | cons k ks ih =>
    obtain ⟨hold, hnew⟩ := ih (t.updateKey k)
    rw [startKey_updateKey, le_min_iff] at hold
    refine ⟨hold.1, fun j hj => ?_⟩
    rcases List.mem_cons.mp hj with rfl | hj
    · exact hold.2
    · exact hnew j hj

theorem foldl_endKey : t.endKey ≤ (ks.foldl updateKey t).endKey ∧
    ∀ k ∈ ks, k ≤ (ks.foldl updateKey t).endKey := by
  induction ks generalizing t with
  | nil => simp
  | cons k ks ih =>
    obtain ⟨hold, hnew⟩ := ih (t.updateKey k)
    rw [endKey_updateKey, max_le_iff] at hold
    refine ⟨hold.1, fun j hj => ?_⟩
    rcases List.mem_cons.mp hj with rfl | hj
    · exact hold.2
    · exact hnew j hj

theorem foldl_needTrain (h : t.lWatermark ≤ t.hWatermark)
    (hl : t.lWatermark + 1 < 2 ^ Usize.bits)
    (hne : ks ≠ [] ∨ t.needTrain = true) : (ks.foldl updateKey t).needTrain = true := by
  induction ks generalizing t with
  | nil => exact hne.resolve_left (fun h => h rfl)
  | cons k ks ih =>
    obtain ⟨hdue, hle⟩ := t.needTrain_updateKey k h hl
    have heq := t.lWatermark_updateKey k
    exact ih (t.updateKey k) (heq ▸ hle) (heq ▸ hl) (Or.inr hdue)

/-- The range of a trainer spans the keys it received, and one key makes it due. -/
theorem received_spec {ks : List K} {k : K} (hk : k ∈ ks) :
    (received ks).needTrain = true ∧ (received ks).startKey ≤ k ∧ k ≤ (received ks).endKey :=
  ⟨foldl_needTrain new ks (le_refl 0)
      (by have := Usize.two_pow_bits; simp only [new]; omega) (Or.inl (List.ne_nil_of_mem hk)),
    (foldl_startKey new ks).2 k hk, (foldl_endKey new ks).2 k hk⟩

end XMLTrainer

section Loops
variable {kv : Store N K V} {it : NodeIter N K} {xs : List (Place K)} {fuel : ℕ}

/-- With a sampler that never fails the loop goes over all keys and counts them. -/
theorem Dispatcher.trainLoop_total {S : Type} [SampleTrait S K]
    (htotal : ∀ (s : S) k l t, ∃ st, SampleTrait.addTo s k l t = .ok st) (kv : Store N K V)
    (h : Walk XTreeIter.load kv.mem it xs) (hfuel : xs.length < fuel) (s : S) (count : ℕ)
    (t : TrainSet K) : ∃ t', trainLoop kv fuel it s count t = .ok (count + xs.length, t') := by
  induction xs generalizing fuel it s count t with
  | nil =>
    obtain ⟨fuel, rfl⟩ := Nat.exists_eq_succ_of_ne_zero (by omega : fuel ≠ 0)
    exact ⟨t, by simp [trainLoop, NodeIter.hasNext, h.nil]⟩
  | cons x xs ih =>
    obtain ⟨fuel, rfl⟩ := Nat.exists_eq_succ_of_ne_zero (by omega : fuel ≠ 0)
    obtain ⟨p, i, k⟩ := x
    obtain ⟨hnext, -, -, -, hkey⟩ := h.head
    obtain ⟨it', hstep, hwalk, -⟩ := h.next XTreeIter.arranges.loads
    obtain ⟨⟨s', t₁⟩, hadd⟩ := htotal s k count t
    obtain ⟨t', hloop⟩ := ih hwalk (by simpa using hfuel) s' (count + 1) t₁
    refine ⟨t', ?_⟩
    simp only [trainLoop, hnext, if_true, hkey, ok_bind, hadd, XTreeIter.next, hstep]
    rw [hloop, List.length_cons]
    congr 2
    omega

variable [Usize] [DoubleArith] [MlTrait M₁ K] {rmi : LocalTwoRMI M₁ M₂}

omit [LinearOrder K] [BoundedOrder K] in
theorem LocalTwoRMI.selectSecModel_lt (hsub : rmi.secondLayer ≠ []) (k : K) :
    rmi.selectSecModel k < rmi.secondLayer.length := by
  have hlen := List.length_pos_of_ne_nil hsub
  simp only [selectSecModel]
  split <;> omega

theorem LocalTwoRMI.dispatchLoop_eq (kv : Store N K V) (hsub : rmi.secondLayer ≠ [])
    (h : Walk XTreeIter.load kv.mem it xs) (hfuel : xs.length < fuel)
    {trainers : List (XMLTrainer K)} (hlen : trainers.length = rmi.secondLayer.length) :
    rmi.dispatchLoop kv fuel it trainers = .ok (scatter rmi.selectSecModel XMLTrainer.updateKey
      trainers (xs.map (fun x => x.2.2))) := by
  induction xs generalizing fuel it trainers with
  | nil =>
    obtain ⟨fuel, rfl⟩ := Nat.exists_eq_succ_of_ne_zero (by omega : fuel ≠ 0)
    simp [dispatchLoop, NodeIter.hasNext, h.nil]
  | cons x xs ih =>
    obtain ⟨fuel, rfl⟩ := Nat.exists_eq_succ_of_ne_zero (by omega : fuel ≠ 0)
    obtain ⟨p, i, k⟩ := x
    obtain ⟨hnext, -, -, -, hkey⟩ := h.head
    obtain ⟨it', hstep, hwalk, -⟩ := h.next XTreeIter.arranges.loads
    have hvalid : decide (rmi.selectSecModel k < trainers.length) = true := by
      rw [hlen]
      exact decide_eq_true (selectSecModel_lt hsub k)
    simp only [dispatchLoop, hnext, if_true, hkey, ok_bind, hvalid, ensure_true, XTreeIter.next,
      hstep]
    rw [ih hwalk (by simpa using hfuel) (by simpa using hlen)]
    rfl

end Loops

section Built
variable [StdSort] [Inhabited V] [Usize] [DoubleArith] [MlTrait M₁ K] {fuel : ℕ}
  {w : World N K V TrivalAlloc} {ops : List (K × V)} {rmi : LocalTwoRMI M₁ M₂}

omit [Usize] [DoubleArith] in
theorem Dispatcher.train_ok {S : Type} [SampleTrait S K]
    (htotal : ∀ (s : S) k l t, ∃ st, SampleTrait.addTo s k l t = .ok st) (d : Dispatcher M₁)
    (hN : 2 ≤ N) (hw : Built w ops) (hfuel : ops.length < fuel) (addr : Ptr → ℕ) (s : S) :
    ∃ model n, d.train fuel (⟨addr, w.mem, w.tree⟩ : Store N K V) s =
      .ok ({ d with model := model, upBound := ops.length % 2 ^ 32 }, n) := by
  obtain ⟨it, xs, hit, hwalk, hperm⟩ := hw.walk hN
  have hlen : xs.length = ops.length := by simpa using hperm.length_eq
  obtain ⟨t, hloop⟩ := trainLoop_total htotal ⟨addr, w.mem, w.tree⟩ hwalk (hlen ▸ hfuel) s 0 .empty
  simp only [train, hit, ok_bind, hloop, pure_eq_ok, Nat.zero_add, hlen]
  exact ⟨_, _, rfl⟩

omit [Usize] [DoubleArith] in
theorem LocalTwoRMI.defaultTrainFirst_ok (rmi : LocalTwoRMI M₁ M₂) (hN : 2 ≤ N) (hw : Built w ops)
    (hfuel : ops.length < fuel) (addr : Ptr → ℕ) :
    ∃ first n, rmi.defaultTrainFirst fuel (⟨addr, w.mem, w.tree⟩ : Store N K V) =
      .ok ({ rmi with firstLayer := first }, n) := by
  obtain ⟨model, n, htrain⟩ :=
    rmi.firstLayer.train_ok (fun _ _ _ _ => ⟨_, rfl⟩) hN hw hfuel addr (⟨⟩ : DefaultSample K)
  exact ⟨_, n, by rw [defaultTrainFirst, Dispatcher.defaultTrain, htrain]; rfl⟩

theorem LocalTwoRMI.dispatch_eq (rmi : LocalTwoRMI M₁ M₂) (hN : 2 ≤ N) (hw : Built w ops)
    (hsub : rmi.secondLayer ≠ []) (hfuel : ops.length < fuel) (addr : Ptr → ℕ) :
    ∃ keys : List K, keys.Perm (ops.map Prod.fst) ∧
      rmi.dispatchKeysToTrainers fuel (⟨addr, w.mem, w.tree⟩ : Store N K V) =
        .ok ((List.range rmi.secondLayer.length).map (fun i =>
          XMLTrainer.received (keys.filter (fun k => rmi.selectSecModel k == i)))) := by
  obtain ⟨it, xs, hit, hwalk, hperm⟩ := hw.walk hN
  have hlen : xs.length < fuel := by
    have := hperm.length_eq
    simp only [List.length_map] at this
    omega
  have hloop := dispatchLoop_eq ⟨addr, w.mem, w.tree⟩ hsub hwalk hlen
    (List.length_replicate (n := rmi.secondLayer.length) (a := XMLTrainer.new))
  have hdispatch : rmi.dispatchKeysToTrainers fuel (⟨addr, w.mem, w.tree⟩ : Store N K V) =
      rmi.dispatchLoop ⟨addr, w.mem, w.tree⟩ fuel it
        (List.replicate rmi.secondLayer.length .new) := by
    simp only [dispatchKeysToTrainers, hit, ok_bind]
  refine ⟨xs.map (fun x => x.2.2), hperm, ?_⟩
  rw [hdispatch, hloop]
  congr 1
  apply List.ext_getElem?
  intro i
  rw [getElem?_scatter, List.getElem?_replicate, List.getElem?_map]
  by_cases hi : i < rmi.secondLayer.length
  · rw [if_pos hi, List.getElem?_range hi]
    rfl
  · simp [hi]

/-- Dispatching makes the trainer of every submodel that some key selects due, on a range with
all these keys. -/
theorem LocalTwoRMI.dispatch_ok (rmi : LocalTwoRMI M₁ M₂) (hN : 2 ≤ N) (hw : Built w ops)
    (hsub : rmi.secondLayer ≠ []) (hfuel : ops.length < fuel) (addr : Ptr → ℕ) :
    ∃ trainers : List (XMLTrainer K),
      rmi.dispatchKeysToTrainers fuel (⟨addr, w.mem, w.tree⟩ : Store N K V) = .ok trainers ∧
      trainers.length = rmi.secondLayer.length ∧
      ∀ (i : ℕ) (t : XMLTrainer K), trainers[i]? = some t → ∀ k ∈ ops.map Prod.fst,
        rmi.selectSecModel k = i → t.needTrain = true ∧ t.startKey ≤ k ∧ k ≤ t.endKey := by
  obtain ⟨keys, hperm, hdispatch⟩ := rmi.dispatch_eq hN hw hsub hfuel addr
  refine ⟨_, hdispatch, by simp, ?_⟩
  intro i t ht k hk hselect
  rw [List.getElem?_map] at ht
  obtain ⟨j, hj, rfl⟩ := Option.map_eq_some_iff.mp ht
  obtain rfl : j = i := by
    obtain ⟨hlt, rfl⟩ := List.getElem?_eq_some_iff.mp hj
    simp
  refine XMLTrainer.received_spec ?_
  rw [List.mem_filter, beq_iff_eq]
  exact ⟨hperm.mem_iff.mpr hk, hselect⟩

end Built
end XStore.Xcache
