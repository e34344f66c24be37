import XStore.Xcache.Dispatch
import XStore.Xcache.Shrink
import XStore.Xcache.Snapshot

/-! End-to-end completeness of the cache: whatever the models predict, the range predicted for
a key of the tree contains the page of the leaf that stores it. -/
namespace XStore.Xcache
open XStore.Lib XStore.Xkv XStore.Xml
variable {N : ℕ} {K V S M M₁ M₂ : Type} [LinearOrder K] [BoundedOrder K] [StdSort]

/-- The training labels of the trainer stay below `b`. -/
def LabelsBelow [SampleTrait S K] (b fuel : ℕ) (kv : Store N K V) (s : S) (t : XMLTrainer K) :
    Prop :=
  ∀ (it₀ it : XCacheTreeIter N K) s' train,
    XCacheTreeIter.fromTT kv.mem kv.tree .empty = .ok it₀ →
    t.snapshpotTrainLabels fuel it₀ kv s = .ok (it, s', train) → ∀ l ∈ train.label, l < b

/-- The table maps some page in the range predicted for `k` to the leaf that stores `k`. -/
def Locates (kv : Store N K V) (model : XSubModel M) [MlTrait M K] (tt : TT) (k : K) : Prop :=
  ∃ leaf p slot, kv.tree.findLeaf k = .ok (some leaf) ∧ (kv.mem leaf).getKey slot = k ∧
    tt.getWoIncar p = .ok (kv.addr leaf) ∧
    max ((model.getPredictRange k).1.tdiv N) 0 ≤ p ∧
    p ≤ min ((model.getPredictRange k).2.tdiv N) (tt.size - 1)

theorem fromTT_tt {m : Mem N K V} {t : XTree K} {tt : TT} {it : XCacheTreeIter N K}
    (h : XCacheTreeIter.fromTT m t tt = .ok it) : it.tt = some tt := by
  simp only [XCacheTreeIter.fromTT, bind_eq_ok, pure_eq_ok, Except.ok.injEq] at h
  obtain ⟨core, -, rfl⟩ := h
  rfl

theorem trainSub_idle {SS : Type} [Usize] [SampleTrait S K] [SampleTrait SS K] [MlTrait M K]
    {fuel : ℕ} {kv : Store N K V} {it₀ : XCacheTreeIter N K}
    (hfrom : XCacheTreeIter.fromTT kv.mem kv.tree .empty = .ok it₀) (s : S) (ss : SS)
    (f : UpdateFunc) {t : XMLTrainer K} (hneed : t.needTrain = false) :
    trainSub fuel kv s ss f t = .ok ((.new : XSubModel M), .empty) := by
  simp [trainSub, hfrom, XMLTrainer.trainWItWShrink, hneed, fromTT_tt hfrom]

theorem trainSub_eq {SS : Type} [Usize] [SampleTrait S K] [SampleTrait SS K] [MlTrait M K]
    {fuel : ℕ} {kv : Store N K V} {it₀ it : XCacheTreeIter N K}
    (hfrom : XCacheTreeIter.fromTT kv.mem kv.tree .empty = .ok it₀) {s s' : S} {ss : SS}
    {f : UpdateFunc} {t : XMLTrainer K} {train st : TrainSet K} {tt : TT}
    (hneed : t.needTrain = true)
    (hsnap : t.snapshpotTrainLabels fuel it₀ kv s = .ok (it, s', train))
    (hshrink : shrink ss train = .ok st) (hlen : st.set.length = st.label.length)
    (htt : it.tt = some tt) :
    trainSub fuel kv s ss f t =
      .ok ((trainedOn st : XSubModel M).calError train.set train.label f, tt) := by
  have htrain := trainWItWShrink_eq (M := M) (f := f) hneed hsnap hshrink hlen
  simp only [trainSub, hfrom, ok_bind]
  rw [htrain]
  simp [htt]

variable [Inhabited V] {w : World N K V TrivalAlloc} {ops : List (K × V)} {addr : Ptr → ℕ}
  {fuel : ℕ}

omit [LinearOrder K] [BoundedOrder K] [StdSort] [Inhabited V] in
theorem tdiv_page {s e : ℤ} {l : ℕ} (hN : 0 < N) (hs : s ≤ l) (he : (l : ℤ) ≤ e) :
    s.tdiv N ≤ (l / N : ℕ) ∧ ((l / N : ℕ) : ℤ) ≤ e.tdiv N := by
  rw [Int.ofNat_tdiv]
  exact ⟨Int.tdiv_le_tdiv (by omega) hs, Int.tdiv_le_tdiv (by omega) he⟩

/-- One submodel, trained on all keys of its range. -/
theorem trainSub_complete [Usize] [MlTrait M K] (hN : 2 ≤ N) (hw : Built w ops)
    (haddr : ∀ p < w.alloc.allocated, addr p < 2 ^ 56) (hfuel : ops.length < fuel)
    {t : XMLTrainer K} (hneed : t.needTrain = true)
    (hlabels : LabelsBelow (2 ^ 30) fuel (⟨addr, w.mem, w.tree⟩ : Store N K V)
      ({} : DefaultSample K) t) :
    ∃ (model : XSubModel M) (tt : TT), trainSub fuel (⟨addr, w.mem, w.tree⟩ : Store N K V)
        ({} : DefaultSample K) ({} : DefaultSample K) defaultUpdateFunc t = .ok (model, tt) ∧
      ∀ k ∈ ops.map Prod.fst, t.startKey ≤ k → k ≤ t.endKey →
        Locates (⟨addr, w.mem, w.tree⟩ : Store N K V) model tt k := by
  obtain ⟨pages, hscan⟩ := Scans.exists hN hw haddr t.startKey
  set xs := seen w.mem pages t.endKey with hxs
  obtain ⟨it₀, it, visited, hfrom, hsnap, htt, hpre, hpage⟩ :=
    hscan.snapshot hfuel (addAll_default xs .empty) rfl
  simp only [TrainSet.empty, List.nil_append] at hsnap
  have hlen : (xs.map Prod.fst).length = (xs.map Prod.snd).length := by simp
  have hsub := trainSub_eq (M := M) (f := defaultUpdateFunc) hfrom hneed hsnap
    (shrink_default ⟨xs.map Prod.fst, xs.map Prod.snd⟩ hlen) hlen htt
  have hasc : (xs.map Prod.snd).Pairwise (fun a b => a < b) := by
    rw [List.pairwise_map]
    exact ((labelled_sorted hscan.chain 0).sublist (List.takeWhile_sublist _)).imp And.right
  have hsmall := hlabels it₀ it _ _ hfrom hsnap
  have hcov := covers_of_small (M := M) hlen hasc
    hsmall
  refine ⟨_, _, hsub, fun k hk hstart hend => ?_⟩
  obtain ⟨l, hl⟩ := mem_seen hscan.chain (hscan.keys k hk hstart) hend
  have hl30 : l < 2 ^ 30 := hsmall l (List.mem_map_of_mem hl)
  have hdiv : l / N ≤ l := Nat.div_le_self l N
  obtain ⟨leaf, hleaf, hstored⟩ := hpage k l hl
  have hlt : l / N < (visited.map (pageEntry addr w.mem)).length := by
    rw [List.length_map]
    exact (List.getElem?_eq_some_iff.mp hleaf).1
  obtain ⟨hlow, hhigh⟩ := hcov k l (by rwa [List.zip_map', List.map_id'])
  obtain ⟨e, he, rfl⟩ := Multiset.mem_map.mp hstored
  obtain ⟨slot, hslot, -⟩ := ((w.mem leaf).mem_keys e.1).mp hstored
  refine ⟨leaf, l / N, slot,
    hscan.stores leaf (hpre.mem (List.mem_of_getElem? hleaf)) e he, hslot,
    getWoIncar_pages addr w.mem visited (fun q hq => hscan.addr_lt q (hpre.mem hq)) _
      (by omega) leaf hleaf, ?_, ?_⟩
  · exact max_le (tdiv_page (by omega) hlow hhigh).1 (Int.natCast_nonneg _)
  · refine le_min (tdiv_page (by omega) hlow hhigh).2 ?_
    simp only [TT.size]
    omega

/-- End-to-end completeness with every key sampled: the first layer is trained, the keys are
dispatched, every submodel is trained with an empty table, and then every key of the tree is
located by the submodel it selects. -/
theorem cache_complete [Usize] [DoubleArith] [MlTrait M₁ K] [MlTrait M₂ K] (hN : 2 ≤ N)
    (hw : Built w ops) (addr : Ptr → ℕ) (haddr : ∀ p < w.alloc.allocated, addr p < 2 ^ 56)
    (rmi : LocalTwoRMI M₁ M₂) (hsub : rmi.secondLayer ≠ []) (fuel : ℕ)
    (hfuel : ops.length < fuel) :
    let kv : Store N K V := ⟨addr, w.mem, w.tree⟩
    ∃ rmi₁ n trainers, rmi.defaultTrainFirst fuel kv = .ok (rmi₁, n) ∧
      rmi₁.dispatchKeysToTrainers fuel kv = .ok trainers ∧
      ((∀ t ∈ trainers, t.needTrain = true →
          LabelsBelow (2 ^ 30) fuel kv ({} : DefaultSample K) t) →
        ∃ trained : List (XSubModel M₂ × TT),
          trainers.mapM (trainSub fuel kv ({} : DefaultSample K) ({} : DefaultSample K)
            defaultUpdateFunc) = .ok trained ∧
          let rmi₂ := { rmi₁ with secondLayer := trained.map Prod.fst }
          ∀ k ∈ ops.map Prod.fst, rmi₂.selectSecModel k < rmi₂.secondLayer.length ∧
            ∃ model tt, trained[rmi₂.selectSecModel k]? = some (model, tt) ∧
              rmi₂.getPredictRange k = .ok (model.getPredictRange k) ∧ Locates kv model tt k) := by
  intro kv
  obtain ⟨first, n, hfirst⟩ := LocalTwoRMI.defaultTrainFirst_ok rmi hN hw hfuel addr
  obtain ⟨trainers, hdispatch, hlen, htrainers⟩ :=
    LocalTwoRMI.dispatch_ok { rmi with firstLayer := first } hN hw hsub hfuel addr
  refine ⟨_, n, trainers, hfirst, hdispatch, fun hlabels => ?_⟩
  obtain ⟨it₀, hfrom⟩ : ∃ it₀, XCacheTreeIter.fromTT w.mem w.tree .empty = .ok it₀ := by
    obtain ⟨pages, hscan⟩ := Scans.exists hN hw haddr ⊥
    obtain ⟨it₀, -, hfrom, -⟩ := hscan.start
    exact ⟨it₀, hfrom⟩
  obtain ⟨trained, hrun, hall⟩ := mapM_ok
    (f := trainSub fuel kv ({} : DefaultSample K) ({} : DefaultSample K) defaultUpdateFunc)
    (P := fun t (r : XSubModel M₂ × TT) => t.needTrain = true → ∀ k ∈ ops.map Prod.fst,
      t.startKey ≤ k → k ≤ t.endKey → Locates kv r.1 r.2 k) (by
    intro t ht
    cases hneed : t.needTrain with
    | false => exact ⟨_, trainSub_idle hfrom _ _ _ hneed, by simp⟩
    | true =>
      obtain ⟨model, tt, hsub, hloc⟩ :=
        trainSub_complete (M := M₂) hN hw haddr hfuel hneed (hlabels t ht hneed)
      exact ⟨(model, tt), hsub, fun _ => hloc⟩)
  refine ⟨trained, hrun, fun k hk => ?_⟩
  have hsize : trained.length = rmi.secondLayer.length := hall.length_eq.symm.trans hlen
  -- training replaces the submodels, so the selected index stays
  set rmi₂ : LocalTwoRMI M₁ M₂ := ⟨first, trained.map Prod.fst⟩ with hrmi
  have hselect : ({ rmi with firstLayer := first } : LocalTwoRMI M₁ M₂).selectSecModel k =
      rmi₂.selectSecModel k := by
    simp only [LocalTwoRMI.selectSecModel, hrmi, List.length_map, hsize]
  have hlt : rmi₂.selectSecModel k < rmi₂.secondLayer.length := by
    refine LocalTwoRMI.selectSecModel_lt (fun hnil => hsub ?_) k
    rw [← List.length_eq_zero_iff, ← hsize, ← List.length_map (f := Prod.fst)]
    exact List.length_eq_zero_iff.mpr hnil
  have hi : rmi₂.selectSecModel k < trained.length := by simpa [hrmi] using hlt
  refine ⟨hlt, (trained[rmi₂.selectSecModel k]).1, (trained[rmi₂.selectSecModel k]).2,
    List.getElem?_eq_getElem hi, ?_, ?_⟩
  · simp only [LocalTwoRMI.getPredictRange]
    have hmodel : rmi₂.secondLayer[rmi₂.selectSecModel k]? =
        some (trained[rmi₂.selectSecModel k]).1 := by
      simp only [hrmi, List.getElem?_map]
      rw [List.getElem?_eq_getElem hi]
      rfl
    rw [hmodel, need_some, ok_bind, pure_eq_ok]
  · have hi' : rmi₂.selectSecModel k < trainers.length := by rwa [hall.length_eq]
    obtain ⟨hneed, hstart, hend⟩ :=
      htrainers _ _ (List.getElem?_eq_getElem hi') k hk hselect
    exact hall.get hi' hi hneed k hk hstart hend

omit [Inhabited V] in
theorem Scans.labels_lt (hN : 0 < N) {k e : K} {pages : List Ptr} (h : Scans addr w ops k pages) :
    ∀ x ∈ seen w.mem pages e, x.2 < N * ops.length := by
  rintro ⟨k, l⟩ hkl
  obtain ⟨j, p, hp, hdiv, -⟩ :=
    mem_labelled h.chain.distinct ((List.takeWhile_sublist _).mem hkl)
  have hj := (List.getElem?_eq_some_iff.mp hp).1
  have hle : pages.length ≤ ops.length := (length_le_entriesOf h.chain.occupied).trans h.count
  have hlt : l / N < ops.length := by omega
  rw [Nat.mul_comm]
  exact (Nat.div_lt_iff_lt_mul hN).mp hlt

/-- A sampler that invents no labels keeps them below this bound. -/
theorem labelsBelow_of_seen [SampleTrait S K] (hN : 2 ≤ N) (hw : Built w ops)
    (haddr : ∀ p < w.alloc.allocated, addr p < 2 ^ 56) (hfuel : ops.length < fuel) {s : S}
    {t : XMLTrainer K} (hs : ∀ pages, Chain w.mem pages → ∃ s' train train',
      addAll (seen w.mem pages t.endKey) s .empty = .ok (s', train) ∧
      SampleTrait.finalize s' train = .ok train' ∧
      ∀ l ∈ train'.label, ∃ x ∈ seen w.mem pages t.endKey, x.2 = l) :
    LabelsBelow (N * ops.length) fuel (⟨addr, w.mem, w.tree⟩ : Store N K V) s t := by
  intro it₀ it s₁ train₁ hfrom hsnap l hl
  obtain ⟨pages, hscan⟩ := Scans.exists hN hw haddr t.startKey
  obtain ⟨s', train, train', hadd, hfin, hlabels⟩ := hs pages hscan.chain
  obtain ⟨it₁, it', visited, hfrom', hsnap', -⟩ := hscan.snapshot hfuel hadd hfin
  obtain rfl : it₀ = it₁ := Except.ok.inj (hfrom.symm.trans hfrom')
  rw [hsnap'] at hsnap
  obtain ⟨-, -, rfl⟩ : it' = it ∧ s' = s₁ ∧ train' = train₁ := by simpa using hsnap
  obtain ⟨x, hx, rfl⟩ := hlabels l hl
  exact hscan.labels_lt (by omega) x hx

theorem labelsBelow_default (hN : 2 ≤ N) (hw : Built w ops)
    (haddr : ∀ p < w.alloc.allocated, addr p < 2 ^ 56) (hfuel : ops.length < fuel)
    (t : XMLTrainer K) : LabelsBelow (N * ops.length) fuel (⟨addr, w.mem, w.tree⟩ : Store N K V)
      ({} : DefaultSample K) t := by
  refine labelsBelow_of_seen hN hw haddr hfuel (fun pages _ =>
    ⟨_, _, _, addAll_default _ _, rfl, fun l hl => ?_⟩)
  exact List.mem_map.mp (by simpa [TrainSet.empty] using hl)

@[reducible]
def exactDouble : DoubleArith where
  div := (· / ·)
  mul := (· * ·)

omit [StdSort] in
theorem cache_complete_three :
    letI := insertionStdSort
    letI := usize64
    letI := exactDouble
    ∃ (w : World 2 XKey ℕ TrivalAlloc) (rmi : LocalTwoRMI FlatLR FlatLR)
      (trained : List (XSubModel FlatLR × TT)), Built w [(3, 30), (1, 10), (2, 20)] ∧
      rmi.secondLayer = trained.map Prod.fst ∧
      ∃ model tt, trained[rmi.selectSecModel (2 : XKey)]? = some (model, tt) ∧
        Locates (⟨fun p => 4096 + 256 * (p % 1024), w.mem, w.tree⟩ : Store 2 XKey ℕ)
          model tt 2 := by
  let : StdSort := insertionStdSort
  let : Usize := usize64
  let : DoubleArith := exactDouble
  obtain ⟨w, hw⟩ := Built.exists (le_refl 2) (fun _ => XNode.new : Mem 2 XKey ℕ)
    [(3, 30), (1, 10), (2, 20)] (by simp) (by decide) (by decide)
  have haddr : ∀ p < w.alloc.allocated, 4096 + 256 * (p % 1024) < 2 ^ 56 := by
    intro p _
    have := Nat.mod_lt p (show 1024 > 0 by decide)
    omega
  obtain ⟨rmi₁, n, trainers, hfirst, hdispatch, hall⟩ := cache_complete (le_refl 2) hw
    (fun p => 4096 + 256 * (p % 1024)) haddr
    (⟨⟨{}, 2, 0⟩, [.new, .new]⟩ : LocalTwoRMI FlatLR FlatLR) (by simp) 4 (by simp)
  obtain ⟨trained, hrun, hloc⟩ := hall (fun t _ _ it₀ it s' train hfrom hsnap l hl =>
    (labelsBelow_default (le_refl 2) hw haddr (by simp) t it₀ it s' train hfrom hsnap l hl).trans
      (by decide))
  obtain ⟨-, model, tt, htrained, -, hlocates⟩ := hloc 2 (by decide)
  exact ⟨w, _, trained, hw, rfl, model, tt, htrained, hlocates⟩

end XStore.Xcache
