import XStore.Xcache.PageComplete
import XStore.Ycsb.EvalAgree
import XStore.Ycsb.PageBounds

/-! The training of the whole index (db.hh): every submodel with its table, and what a client
needs of the two. -/
namespace XStore.Xcache
open XStore.Lib XStore.Xkv
variable {N : ℕ} {K V : Type} [LinearOrder K] [BoundedOrder K]

theorem Scans.mem_leaves [StdSort] [Inhabited V] (hN : 2 ≤ N) {w : World N K V TrivalAlloc}
    {ops : List (K × V)} (hw : Built w ops) {addr : Ptr → ℕ} {k : K} {pages : List Ptr}
    (h : Scans addr w ops k pages) {p : Ptr} (hp : p ∈ pages) : p ∈ w.tree.leaves := by
  obtain ⟨e, he⟩ := Multiset.card_pos_iff_exists_mem.mp (h.chain.occupied p hp)
  obtain ⟨⟨root, hroot, hleaf⟩, -⟩ := h.mem hN hw hp he
  rw [XTree.leaves_of_root hroot]
  exact hleaf

end XStore.Xcache

namespace XStore.Ycsb
open XStore.Lib XStore.Xkv XStore.Xcache XStore.Xml
variable {V M : Type} [StdSort]

section Train
variable [Usize] [DoubleArith] [MlTrait M XKey]

/-- `XCache(num_sub)`; the submodels are not there before they are trained. -/
def newCache (numSub : ℕ) : Res (LocalTwoRMI M M) := do
  let firstLayer ← Dispatcher.new numSub
  pure ⟨firstLayer, List.replicate numSub .new⟩

/-- The first layer; with values of any length it is trained on all keys by another way. -/
def trainFirst (vlen : Bool) (fuel : ℕ) (cache : LocalTwoRMI M M) (db : Store kNPageKey XKey V) :
    Res (LocalTwoRMI M M) :=
  if vlen then do
    let (cache, _) ← cache.defaultTrainFirst fuel db
    pure cache
  else do
    let (firstLayer, _) ← cache.firstLayer.train fuel db (StepSampler.new 1 : StepSampler XKey)
    pure { cache with firstLayer := firstLayer }

def trainDb (vlen : Bool) (nmodels fuel : ℕ) (db : Store kNPageKey XKey V) :
    Res (LocalTwoRMI M M × List TT) := do
  let cache ← newCache nmodels
  let cache ← trainFirst vlen fuel cache db
  let trainers ← cache.dispatchKeysToTrainers fuel db
  let trained ← trainers.mapM (trainSub fuel db (PageSampler.new : PageSampler kNPageKey XKey)
    (StepSampler.new 2 : StepSampler XKey) pageUpdater)
  pure ({ cache with secondLayer := trained.map Prod.fst }, trained.map Prod.snd)

end Train

/-- The model is monotone, and its predictions for the stored keys fit an int. -/
def Steady [MlTrait M XKey] (stored : XKey → Prop) (ml : M) : Prop :=
  Monotone (fun k : XKey => MlTrait.predict ml k) ∧
    ∀ k, stored k → truncate (MlTrait.predict ml k) < 2 ^ 31

/-- A submodel and its table serve the keys of a range: the table lists leaves only, and if the
model is steady, the leaf of every key is among the pages that a client reads for it. -/
structure Serves [Usize] [MlTrait M XKey] (db : Store kNPageKey XKey V) (stored keys : XKey → Prop)
    (model : XSubModel M) (tt : TT) : Prop where
  size : tt.size < 2 ^ 31
  entries : ∀ e ∈ tt.entries, e < 2 ^ 64
  leaves : ∀ q < tt.size, ∃ p ∈ db.tree.leaves, tt.getWoIncar q = .ok (db.addr p)
  ints : ∀ x ∈ [model.errMin, model.errMax, model.max], -2 ^ 31 ≤ x ∧ x < 2 ^ 31
  covers : Steady stored model.ml → ∀ k, keys k →
    ∃ leaf q, db.tree.findLeaf k = .ok (some leaf) ∧ tt.getWoIncar q = .ok (db.addr leaf) ∧
      InRange tt (model.getPredictRange k) q

section Sub
variable [Usize] [MlTrait M XKey] {stored : XKey → Prop}

omit [StdSort] in
theorem Serves.idle (db : Store kNPageKey XKey V) {keys : XKey → Prop} (hkeys : ∀ k, ¬ keys k) :
    Serves db stored keys (.new : XSubModel M) .empty where
  size := by decide
  entries e he := by cases he
  leaves q hq := absurd hq (Nat.not_lt_zero q)
  ints x hx := by
    have hzero : x = 0 := by simpa [XSubModel.new] using hx
    omega
  covers _ k hk := absurd hk (hkeys k)

omit [StdSort] in
/-- The page that a key was seen on is among those that the client reads. -/
theorem withinPages_inRange {db : Store kNPageKey XKey V} {model : XSubModel M} {tt : TT}
    {visited : List Ptr} {k : XKey} (h : WithinPages db model visited k)
    (htt : tt.entries = visited.map (pageEntry db.addr db.mem))
    (haddr : ∀ p ∈ visited, db.addr p < 2 ^ 56) (hcentred : Centred model)
    (hsize : tt.size < 2 ^ 31) :
    ∃ leaf q, db.tree.findLeaf k = .ok (some leaf) ∧ tt.getWoIncar q = .ok (db.addr leaf) ∧
      InRange tt (model.getPredictRange k) q := by
  obtain ⟨leaf, q, slot, hfind, -, hvisited, hlow, hhigh⟩ := h
  obtain ⟨hstart, hle, hmax⟩ := range_bounds hcentred k
  have hlt := hcentred.max_lt
  have hq : q < tt.size := by
    rw [TT.size, htt, List.length_map]
    exact (List.getElem?_eq_some_iff.mp hvisited).1
  rw [Int.tdiv_eq_ediv_of_nonneg hstart] at hlow
  rw [Int.tdiv_eq_ediv_of_nonneg (by omega)] at hhigh
  refine ⟨leaf, q, hfind, ?_, ?_⟩
  · obtain ⟨entries⟩ := tt
    obtain rfl : entries = visited.map (pageEntry db.addr db.mem) := htt
    exact getWoIncar_pages db.addr db.mem visited haddr q (by omega) leaf hvisited
  · rw [InRange, pageRange_eq hsize ⟨hstart, by omega⟩ ⟨by omega, by omega⟩]
    exact ⟨max_le hlow (by omega), le_min (by omega) hhigh⟩

end Sub

section Db
variable [Inhabited V] [Usize] [MlTrait M XKey] {w : World kNPageKey XKey V TrivalAlloc}
  {ops : List (XKey × V)} {addr : Ptr → ℕ} {fuel : ℕ}

/-- A trainer that has received keys of the tree leaves a submodel and a table that serve all
keys of its range. -/
theorem trainSub_serves (hw : Built w ops) (haddr : ∀ p < w.alloc.allocated, addr p < 2 ^ 56)
    (hfuel : ops.length < fuel) (hsmall : kNPageKey * ops.length ≤ 2 ^ 30) {t : XMLTrainer XKey}
    (hneed : t.needTrain = true) {k₀ : XKey} (hk₀ : k₀ ∈ ops.map Prod.fst)
    (hstart : t.startKey ≤ k₀) (hend : k₀ ≤ t.endKey) :
    ∃ (model : XSubModel M) (tt : TT), trainSub fuel (⟨addr, w.mem, w.tree⟩ : Store _ _ V)
        (PageSampler.new : PageSampler kNPageKey XKey) (StepSampler.new 2 : StepSampler XKey)
        pageUpdater t = .ok (model, tt) ∧
      Serves (⟨addr, w.mem, w.tree⟩ : Store _ _ V) (· ∈ ops.map Prod.fst)
        (fun k => k ∈ ops.map Prod.fst ∧ t.startKey ≤ k ∧ k ≤ t.endKey) model tt := by
  have hbelow := labelsBelow_pages (by decide) hw haddr hfuel t
  have hdefault := labelsBelow_default (by decide) hw haddr hfuel t
  obtain ⟨model, tt, visited, pages, train, last, hrun, htt, hscan, hpre, -, hsampled, -,
    hwithin⟩ := trainSub_scans (M := M) (by decide) hw haddr hfuel
      (keepsLastPage_two (N := kNPageKey)) pageUpdater_accumulates hneed hk₀ hstart hend
      (fun it₀ it s' train hfrom hsnap l hl =>
        lt_of_lt_of_le (hbelow it₀ it s' train hfrom hsnap l hl) hsmall)
  -- what the default sampler takes over the same scan is what the run is offered
  obtain ⟨it₀, it, -, hfrom, hsnap, -⟩ :=
    hscan.snapshot hfuel (addAll_default (seen w.mem pages t.endKey) .empty) rfl
  have hoffered : offered fuel (⟨addr, w.mem, w.tree⟩ : Store _ _ V) t = .ok (TrainSet.empty.append
      (seen w.mem pages t.endKey)) := by
    simp only [offered, hfrom, ok_bind, hsnap]
    rfl
  obtain ⟨l₀, hl₀⟩ := mem_seen hscan.chain (hscan.keys k₀ hk₀ hstart) hend
  obtain ⟨hcentred, -, hsize⟩ := trainSubM_spec selects_pageSampler (selects_stepSampler _)
    Shipped.ycsb.widens hneed hoffered (List.ne_nil_of_mem (List.mem_map_of_mem hl₀))
    (fun l hl => lt_of_lt_of_le (hdefault it₀ it _ _ hfrom hsnap l hl) hsmall)
    ((trainSubM_total fuel _ _ _ pageUpdater t).trans hrun)
  have hvisited : ∀ p ∈ visited, addr p < 2 ^ 56 := fun p hp => hscan.addr_lt p (hpre.mem hp)
  refine ⟨model, tt, hrun, hsize, ?_, ?_, ?_, ?_⟩
  · intro e he
    rw [htt] at he
    obtain ⟨p, hp, rfl⟩ := List.mem_map.mp he
    obtain ⟨-, hshift, -⟩ := pageEntry_spec addr w.mem p (hvisited p hp)
    have hlt := hvisited p hp
    rw [← hshift, Nat.shiftRight_eq_div_pow] at hlt
    have hbits : kIncarBit = 8 := rfl
    rw [hbits] at hlt
    omega
  · intro q hq
    obtain ⟨entries⟩ := tt
    obtain rfl : entries = visited.map (pageEntry addr w.mem) := htt
    rw [TT.size, List.length_map] at hq hsize
    exact ⟨visited[q], hscan.mem_leaves (by decide) hw (hpre.mem (List.getElem_mem hq)),
      getWoIncar_pages addr w.mem visited hvisited q (by omega) _
        (List.getElem?_eq_getElem hq)⟩
  · have h₁ := hcentred.max_nonneg
    have h₂ := hcentred.max_lt
    have h₃ := hcentred.errMin_ge
    have h₄ := hcentred.errMin_le
    have h₅ := hcentred.errMax_ge
    have h₆ := hcentred.errMax_le
    intro x hx
    simp only [List.mem_cons, List.not_mem_nil, or_false] at hx
    rcases hx with rfl | rfl | rfl <;> omega
  · rintro ⟨hmono, hfits⟩ k ⟨hk, hlow, hhigh⟩
    have hcast : CastHolds (⟨addr, w.mem, w.tree⟩ : Store kNPageKey XKey V) model.ml last train k :=
      castHolds_of_fits (fun z hz => hfits z (hsampled z hz))
    exact withinPages_inRange ((hwithin hmono k hk hlow hhigh).mpr hcast) htt hvisited hcentred
      hsize

omit [StdSort] [Inhabited V] in
theorem Serves.imp {db : Store kNPageKey XKey V} {stored keys keys' : XKey → Prop}
    {model : XSubModel M} {tt : TT} (h : Serves db stored keys model tt)
    (hkeys : ∀ k, keys' k → keys k) : Serves db stored keys' model tt :=
  { h with covers := fun hsteady k hk => h.covers hsteady k (hkeys k hk) }

omit [Usize] in
theorem trainFirst_ok (hw : Built w ops) (hfuel : ops.length < fuel) (vlen : Bool)
    (cache : LocalTwoRMI M M) : ∃ model, trainFirst vlen fuel cache
      (⟨addr, w.mem, w.tree⟩ : Store _ _ V) = .ok { cache with
        firstLayer := { cache.firstLayer with
          model := model
          upBound := ops.length % 2 ^ 32 } } := by
  cases vlen with
  | true =>
    obtain ⟨model, n, htrain⟩ := cache.firstLayer.train_ok (fun _ _ _ _ => ⟨_, rfl⟩) (by decide) hw
      hfuel addr (⟨⟩ : DefaultSample XKey)
    refine ⟨model, ?_⟩
    simp only [trainFirst, if_true, LocalTwoRMI.defaultTrainFirst, Dispatcher.defaultTrain]
    rw [htrain]
    rfl
  | false =>
    obtain ⟨model, n, htrain⟩ := cache.firstLayer.train_ok (fun _ _ _ _ => ⟨_, rfl⟩) (by decide) hw
      hfuel addr (StepSampler.new 1 : StepSampler XKey)
    refine ⟨model, ?_⟩
    simp only [trainFirst, Bool.false_eq_true, if_false]
    rw [htrain]
    rfl

theorem received_serves (hw : Built w ops) (haddr : ∀ p < w.alloc.allocated, addr p < 2 ^ 56)
    (hfuel : ops.length < fuel) (hsmall : kNPageKey * ops.length ≤ 2 ^ 30) {ks : List XKey}
    (hks : ∀ k ∈ ks, k ∈ ops.map Prod.fst) :
    ∃ r : XSubModel M × TT, trainSub fuel (⟨addr, w.mem, w.tree⟩ : Store _ _ V)
        (PageSampler.new : PageSampler kNPageKey XKey) (StepSampler.new 2 : StepSampler XKey)
        pageUpdater (XMLTrainer.received ks) = .ok r ∧
      Serves (⟨addr, w.mem, w.tree⟩ : Store _ _ V) (· ∈ ops.map Prod.fst) (· ∈ ks) r.1 r.2 := by
  cases ks with
  | nil =>
    have hneed : (XMLTrainer.received ([] : List XKey)).needTrain = false := rfl
    obtain ⟨pages, hscan⟩ := Scans.exists (by decide) hw haddr ⊥
    obtain ⟨it₀, -, hfrom, -⟩ := hscan.start
    exact ⟨_, trainSub_idle (M := M) hfrom _ _ _ hneed, .idle _ (fun k => List.not_mem_nil)⟩
  | cons k₀ rest =>
    obtain ⟨hneed, hstart, hend⟩ := XMLTrainer.received_spec (List.mem_cons_self (a := k₀))
    obtain ⟨model, tt, hsub, hserves⟩ := trainSub_serves (M := M) hw haddr hfuel hsmall hneed
      (hks k₀ List.mem_cons_self) hstart hend
    exact ⟨(model, tt), hsub, hserves.imp
      (fun k hk => ⟨hks k hk, (XMLTrainer.received_spec hk).2⟩)⟩

variable [DoubleArith]

/-- The training goes through, and every submodel and its table serve the keys that select it. -/
theorem trainDb_ok (hw : Built w ops) (haddr : ∀ p < w.alloc.allocated, addr p < 2 ^ 56)
    (hfuel : ops.length < fuel) (hsmall : kNPageKey * ops.length ≤ 2 ^ 30) (vlen : Bool)
    {nmodels : ℕ} (hn : 0 < nmodels) (hmany : nmodels < 4000000) :
    ∃ (cache : LocalTwoRMI M M) (tts : List TT),
      trainDb vlen nmodels fuel (⟨addr, w.mem, w.tree⟩ : Store _ _ V) = .ok (cache, tts) ∧
      cache.firstLayer.dispatchNum = nmodels ∧ cache.firstLayer.upBound < 2 ^ 32 ∧
      cache.secondLayer.length = nmodels ∧ tts.length = nmodels ∧
      ∀ i model tt, cache.secondLayer[i]? = some model → tts[i]? = some tt →
        Serves (⟨addr, w.mem, w.tree⟩ : Store _ _ V) (· ∈ ops.map Prod.fst)
          (fun k => k ∈ ops.map Prod.fst ∧ cache.selectSecModel k = i) model tt := by
  set db : Store kNPageKey XKey V := ⟨addr, w.mem, w.tree⟩ with hdb
  have hnew : newCache nmodels =
      .ok (⟨⟨MlTrait.init, nmodels, 0⟩, List.replicate nmodels .new⟩ : LocalTwoRMI M M) := by
    have hnum : decide (nmodels > 0 ∧ nmodels < 4000000) = true := decide_eq_true ⟨hn, hmany⟩
    simp only [newCache, Dispatcher.new, hnum, ensure_true, ok_bind, pure_eq_ok]
  obtain ⟨first, hfirst⟩ : ∃ first : M, trainFirst vlen fuel
      ⟨⟨MlTrait.init, nmodels, 0⟩, List.replicate nmodels .new⟩ db = .ok
        ⟨⟨first, nmodels, ops.length % 2 ^ 32⟩, List.replicate nmodels .new⟩ :=
    trainFirst_ok hw hfuel vlen _
  set cache : LocalTwoRMI M M :=
    ⟨⟨first, nmodels, ops.length % 2 ^ 32⟩, List.replicate nmodels .new⟩ with hcache
  have hlen : cache.secondLayer.length = nmodels := by simp [hcache]
  have hsub : cache.secondLayer ≠ [] := by
    rw [← List.length_pos_iff]
    omega
  obtain ⟨keys, hperm, hdispatch⟩ :=
    LocalTwoRMI.dispatch_eq cache (by decide) hw hsub hfuel addr
  set received := fun i => XMLTrainer.received (keys.filter (fun k => cache.selectSecModel k == i))
    with hreceived
  have htrain : ∀ i ∈ List.range cache.secondLayer.length,
      ∃ r : XSubModel M × TT, trainSub fuel db (PageSampler.new : PageSampler kNPageKey XKey)
        (StepSampler.new 2 : StepSampler XKey) pageUpdater (received i) = .ok r ∧
        Serves db (· ∈ ops.map Prod.fst)
          (· ∈ keys.filter (fun k => cache.selectSecModel k == i)) r.1 r.2 :=
    fun i _ => received_serves hw haddr hfuel hsmall
      (fun k hk => hperm.mem_iff.mp (List.mem_filter.mp hk).1)
  obtain ⟨trained, hrun, hall⟩ := mapM_ok htrain
  have hsize : trained.length = nmodels := by
    rw [← hall.length_eq, List.length_range, hlen]
  refine ⟨{ cache with secondLayer := trained.map Prod.fst }, trained.map Prod.snd, ?_, rfl, ?_, ?_,
    by simpa using hsize, ?_⟩
  · rw [← hdb] at hdispatch
    simp only [trainDb, hnew, hfirst, ok_bind, hdispatch, List.mapM_map, Function.comp_def, hrun,
      pure_eq_ok]
  · exact Nat.mod_lt _ (by decide)
  · rw [List.length_map, hsize]
  · intro i model tt hmodel htt
    rw [List.getElem?_map, Option.map_eq_some_iff] at hmodel htt
    obtain ⟨r, hr, rfl⟩ := hmodel
    obtain ⟨r', hr', rfl⟩ := htt
    obtain rfl := Option.some.inj (hr.symm.trans hr')
    obtain ⟨hi, rfl⟩ := List.getElem?_eq_some_iff.mp hr
    have hi' : i < nmodels := hsize ▸ hi
    refine (hall.get (by simpa [hlen] using hi') hi).imp (fun k hk => ?_)
    obtain ⟨hmem, hselect⟩ := hk
    have hlast : cache.secondLayer.length = (trained.map Prod.fst).length := by
      rw [hlen, List.length_map, hsize]
    have hsame : cache.selectSecModel k =
        (⟨cache.firstLayer, trained.map Prod.fst⟩ : LocalTwoRMI M M).selectSecModel k := by
      rw [LocalTwoRMI.selectSecModel, hlast]
      rfl
    simp only [List.get_eq_getElem, List.getElem_range]
    exact List.mem_filter.mpr ⟨hperm.mem_iff.mpr hmem, beq_iff_eq.mpr (hsame.trans hselect)⟩

end Db
end XStore.Ycsb
