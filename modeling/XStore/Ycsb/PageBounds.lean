import XStore.Xcache.Shrink
import XStore.Xcache.TrainerM
import XStore.Ycsb.Eval

/-! The pages that a client reads for a key, present or not: they are entries of the table. -/
namespace XStore.Ycsb
open XStore.Lib XStore.Xkv XStore.Xcache XStore.Xml
variable {N : ℕ} {K V S SS M : Type}

def pagesOf (N : ℕ) (tt : TT) (range : ℤ × ℤ) : ℤ × ℤ :=
  (max (range.1 / N) 0, min (tt.size - 1) (range.2 / N))

/-- With 16 keys in a page the conversions of `core_eval` change nothing. -/
theorem pageRange_eq [Usize] {tt : TT} {range : ℤ × ℤ} (hsize : tt.size < 2 ^ 31)
    (hrange : 0 ≤ range.1 ∧ range.1 < 2 ^ 31) (hrange' : 0 ≤ range.2 ∧ range.2 < 2 ^ 31) :
    pageRange tt range = pagesOf Ycsb.kNPageKey tt range := by
  have hpow : (2 : ℤ) ^ 32 ≤ 2 ^ Usize.bits := pow_le_pow_right₀ (by decide) Usize.bits_ge
  have hlow : toUsize range.1 = range.1 := Int.emod_eq_of_lt hrange.1 (by omega)
  have hhigh : toUsize range.2 = range.2 := Int.emod_eq_of_lt hrange'.1 (by omega)
  have hsize' : toInt32 (tt.size - 1) = tt.size - 1 := toInt32_eq (by omega) (by omega)
  simp only [pageRange, pagesOf, hlow, hhigh, hsize', Ycsb.kNPageKey]
  rw [toInt32_eq (by omega) (by omega), toInt32_eq (by omega) (by omega)]

theorem getWoIncar_defined {tt : TT} (hsize : tt.size < 2 ^ 31) {p : ℕ} (hp : p < tt.size) :
    ∃ a, tt.getWoIncar p = .ok a :=
  ⟨_, TT.getWoIncar_eq (by omega) (List.getElem?_eq_getElem hp)⟩

section Bounds
variable [MlTrait M K] {model : XSubModel M}

theorem range_bounds (h : Centred model) (k : K) : 0 ≤ (model.getPredictRange k).1 ∧
    (model.getPredictRange k).1 ≤ (model.getPredictRange k).2 ∧
    (model.getPredictRange k).2 ≤ model.max := by
  obtain ⟨hp₀, -, hpmax⟩ := h.getPointPredict k
  have hmin := h.errMin_le
  have hmax := h.errMax_ge
  rw [h.getPredictRange]
  simp only
  omega

theorem pagesOf_bounds {tt : TT} {range : ℤ × ℤ} (h₀ : 0 ≤ range.1) (hle : range.1 ≤ range.2)
    (hmax : range.2 / N < tt.size) : 0 ≤ (pagesOf N tt range).1 ∧
    (pagesOf N tt range).1 ≤ (pagesOf N tt range).2 ∧ (pagesOf N tt range).2 < tt.size := by
  have hdiv : range.1 / (N : ℤ) ≤ range.2 / N := by
    cases Nat.eq_zero_or_pos N with
    | inl hzero => simp [hzero]
    | inr hpos => exact Int.ediv_le_ediv (by omega) hle
  have hdiv₀ : 0 ≤ range.1 / (N : ℤ) := Int.ediv_nonneg h₀ (by omega)
  simp only [pagesOf]
  omega

end Bounds

/-- A submodel that was trained on at least one key, and the table filled during its training:
for every key the client reads at least one page, and only pages of the table. -/
theorem client_pages_in_bounds [LinearOrder K] [BoundedOrder K] [StdSort] [Usize]
    [SampleTrait S K] [SampleTrait SS K] [MlTrait M K] {f : UpdateFuncM} (hf : Shipped f)
    {s : S} (hs : Selects s) {ss : SS} (hss : Selects ss) (kv : Store N K V) {t : XMLTrainer K}
    (hneed : t.needTrain = true) {fuel : ℕ} {train : TrainSet K}
    (hoffered : offered fuel kv t = .ok train) (hne : train.label ≠ [])
    (hl : ∀ l ∈ train.label, l < 2 ^ 30) {model : XSubModel M} {tt : TT}
    (htrain : trainSubM fuel kv s ss f t = .ok (model, tt)) (k : K) :
    0 ≤ (model.getPredictRange k).1 ∧
    (model.getPredictRange k).1 ≤ (model.getPredictRange k).2 ∧
    (model.getPredictRange k).2 ≤ model.max ∧
    ∃ ns ne : ℕ, pagesOf N tt (model.getPredictRange k) = ((ns : ℤ), (ne : ℤ)) ∧ ns ≤ ne ∧
      ne < tt.size ∧ (∀ p, ns ≤ p → p ≤ ne → ∃ a, tt.getWoIncar p = .ok a) ∧
      (N = Ycsb.kNPageKey →
        pageRange tt (model.getPredictRange k) = ((ns : ℤ), (ne : ℤ))) := by
  obtain ⟨hcentred, hpage, hsize⟩ :=
    trainSubM_spec hs hss hf.widens hneed hoffered hne hl htrain
  obtain ⟨hlow, hle, hmax⟩ := range_bounds hcentred k
  have hlast : (model.getPredictRange k).2 / (N : ℤ) < tt.size := by
    refine lt_of_le_of_lt ?_ hpage
    cases Nat.eq_zero_or_pos N with
    | inl hzero => simp [hzero]
    | inr hpos => exact Int.ediv_le_ediv (by omega) hmax
  obtain ⟨hns, hnsne, hne'⟩ := pagesOf_bounds hlow hle hlast
  obtain ⟨ns, hns⟩ := Int.eq_ofNat_of_zero_le hns
  obtain ⟨ne, hnelast⟩ := Int.eq_ofNat_of_zero_le
    (by omega : 0 ≤ (pagesOf N tt (model.getPredictRange k)).2)
  rw [hns, hnelast] at hnsne
  rw [hnelast] at hne'
  refine ⟨hlow, hle, hmax, ns, ne, Prod.ext hns hnelast, by omega, by omega, ?_, ?_⟩
  · intro p _ hp
    exact getWoIncar_defined hsize (by omega)
  · intro hN
    have hlt := hcentred.max_lt
    subst hN
    rw [pageRange_eq hsize ⟨hlow, by omega⟩ ⟨by omega, by omega⟩]
    exact Prod.ext hns hnelast

theorem twoKeys_trainedM :
    letI := insertionStdSort
    letI := usize64
    (do
      let (kv, _, t) ← twoKeys
      let train ← offered 3 kv t
      let (model, tt) ← (trainSubM 3 kv (PageSampler.new : PageSampler 2 XKey)
        (StepSampler.new 2 : StepSampler XKey) (UpdateFunc.total (pageUpdateFunc 2)) t :
        Res (XSubModel FlatLR × TT))
      pure (t.needTrain, train, model.max, tt.size)) = .ok (true, ⟨[1, 2], [0, 1]⟩, 0, 1) := by
  decide +kernel

/-- The range of the key 7, which the tree does not hold. -/
theorem client_pages_in_bounds_seven :
    letI := insertionStdSort
    letI := usize64
    ∃ (kv : Store 2 XKey ℕ) (t : XMLTrainer XKey) (model : XSubModel FlatLR) (tt : TT),
      trainSubM 3 kv (PageSampler.new : PageSampler 2 XKey) (StepSampler.new 2 : StepSampler XKey)
        (UpdateFunc.total (pageUpdateFunc 2)) t = .ok (model, tt) ∧ tt.size = 1 ∧
      ∃ ns ne : ℕ, pagesOf 2 tt (model.getPredictRange 7) = ((ns : ℤ), (ne : ℤ)) ∧ ns ≤ ne ∧
        ne < tt.size := by
  let : StdSort := insertionStdSort
  let : Usize := usize64
  have hrun := twoKeys_trainedM
  simp only [bind_eq_ok, pure_eq_ok, Except.ok.injEq, Prod.mk.injEq] at hrun
  obtain ⟨⟨kv, it, t⟩, -, train, hoffered, ⟨model, tt⟩, htrain, hneed, rfl, -, hsize⟩ := hrun
  obtain ⟨-, -, -, ns, ne, hpages, hle, hlt, -⟩ := client_pages_in_bounds (.page 2)
    selects_pageSampler (selects_stepSampler _) kv hneed hoffered (by simp) (by decide) htrain 7
  exact ⟨kv, t, model, tt, htrain, hsize, ns, ne, hpages, hle, hlt⟩

end XStore.Ycsb
