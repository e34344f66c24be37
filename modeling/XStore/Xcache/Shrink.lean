import XStore.Xcache.ErrorBound
import Mathlib.Order.Fin.Basic

/-! Shrinking the training set: `max` comes from the last pair that the shrink sampler kept,
the error bounds from all pairs. -/
namespace XStore.Xcache
open XStore.Lib XStore.Xkv XStore.Xml
variable {K M : Type} [MlTrait M K]

def Covers (model : XSubModel M) (train : TrainSet K) : Prop :=
  ∀ k l, (k, l) ∈ train.set.zip train.label →
    (model.getPredictRange k).1 ≤ l ∧ (l : ℤ) ≤ (model.getPredictRange k).2

/-- The model's prediction, clamped below the label `last`. -/
def clamped (ml : M) (last : ℕ) (k : K) : ℤ :=
  max (min (doubleToInt (MlTrait.predict ml k)) (last - 1)) 0

/-- The last training pair is at a position that the shrink sampler keeps, its label fits an
int, and no clamped prediction plus the error of another pair overflows one. -/
def BoundHolds (M : Type) [MlTrait M K] (step : ℕ) (train : TrainSet K) : Prop :=
  ∀ last, train.label.getLast? = some last →
    (train.label.length - 1) % step = 0 ∧ last < 2 ^ 31 ∧
    ∀ k l k' l', (k, l) ∈ train.set.zip train.label → (k', l') ∈ train.set.zip train.label →
      let ml : M := MlTrait.train MlTrait.init (everyNth step 0 train.set)
        (everyNth step 0 train.label)
      clamped ml last k + l' - clamped ml last k' < 2 ^ 31

section Kept
variable {labels : List ℕ} {step last : ℕ}

theorem getLast?_everyNth (hstep : 1 ≤ step) (hinc : labels.Pairwise (fun a b => a < b))
    (hlast : labels.getLast? = some last) :
    ∃ kept, (everyNth step 0 labels).getLast? = some kept ∧ kept ≤ last ∧
      (kept = last ↔ (labels.length - 1) % step = 0) := by
  obtain ⟨init, rfl⟩ : ∃ init, labels = init ++ [last] := by
    obtain ⟨init, x, rfl⟩ := List.eq_nil_or_concat labels |>.resolve_left (by
      rintro rfl
      cases hlast)
    refine ⟨init, ?_⟩
    simp at hlast
    simp [hlast]
  have hsplit := everyNth_append_singleton (c := 0) hstep init last
  have hlen : wrapAdd step 0 init.length = ((init ++ [last]).length - 1) % step := by
    simp [wrapAdd]
  rw [hsplit, ← hlen]
  have hlt := (List.pairwise_append.mp hinc).2.2
  by_cases hz : wrapAdd step 0 init.length = 0
  · exact ⟨last, by simp [hz], le_rfl, by simp [hz]⟩
  · have hne : init ≠ [] := by
      rintro rfl
      exact hz (by simp [wrapAdd])
    obtain ⟨kept, hkept⟩ : ∃ kept, (everyNth step 0 init).getLast? = some kept := by
      cases h : (everyNth step 0 init).getLast? with
      | none => exact absurd (List.getLast?_eq_none_iff.mp h) (everyNth_ne_nil hne)
      | some kept => exact ⟨kept, rfl⟩
    have hmem : kept ∈ init := (everyNth_sublist init).mem (List.mem_of_getLast? hkept)
    have hlt' := hlt kept hmem last (by simp)
    refine ⟨kept, by simp [hz, hkept], hlt'.le, ?_⟩
    simp [hz, hlt'.ne]

end Kept

section Fit
variable {train : TrainSet K} {step last : ℕ}

theorem label_le_last (hinc : train.label.Pairwise (fun a b => a < b))
    (hlast : train.label.getLast? = some last) :
    ∀ kl ∈ train.set.zip train.label, kl.2 ≤ last := by
  intro kl hkl
  have hmem : kl.2 ∈ train.label := (List.of_mem_zip hkl).2
  obtain ⟨init, hinit⟩ := List.getLast?_eq_some_iff.mp hlast
  rw [hinit] at hmem hinc
  cases List.mem_append.mp hmem with
  | inl h => exact ((List.pairwise_append.mp hinc).2.2 _ h last (by simp)).le
  | inr h => exact (List.mem_singleton.mp h).le

theorem last_mem_zip (hlen : train.set.length = train.label.length)
    (hlast : train.label.getLast? = some last) :
    ∃ k, (k, last) ∈ train.set.zip train.label := by
  have hmem : last ∈ (train.set.zip train.label).map Prod.snd := by
    rw [List.map_snd_zip hlen.ge]
    exact List.mem_of_getLast? hlast
  obtain ⟨⟨k, l⟩, hkl, rfl⟩ := List.mem_map.mp hmem
  exact ⟨k, hkl⟩

/-- With the last label as `max`, the point prediction is the clamped one. -/
theorem trained_clamped {st : TrainSet K} (hlt : last < 2 ^ 31)
    (hmax : (trainedOn st : XSubModel M).max = toInt32 last) (k : K) :
    (trainedOn st : XSubModel M).getPointPredict k =
      clamped (MlTrait.train MlTrait.init st.set st.label : M) last k := by
  rw [toInt32_eq (by omega) (by omega)] at hmax
  simp only [XSubModel.getPointPredict, hmax, clamped]
  rw [toInt32_eq (by omega) (by omega)]
  rfl

/-- Bounds from errors of all pairs cover them exactly when no prediction plus the error of
another pair overflows. -/
theorem stretched_covers_iff {st : TrainSet K} (hlt : last < 2 ^ 31)
    (hall : ∀ kl ∈ train.set.zip train.label, kl.2 ≤ last)
    (hmax : (trainedOn st : XSubModel M).max = toInt32 last) :
    Covers (XSubModel.stretched (trainedOn st : XSubModel M) (fun _ _ => false)
      (train.set.zip train.label)) train ↔
      ∀ k l k' l', (k, l) ∈ train.set.zip train.label → (k', l') ∈ train.set.zip train.label →
        clamped (MlTrait.train MlTrait.init st.set st.label : M) last k + l' -
          clamped (MlTrait.train MlTrait.init st.set st.label : M) last k' < 2 ^ 31 := by
  have hpoint := trained_clamped hlt hmax
  have hcast : ∀ kl ∈ train.set.zip train.label, (kl.2 : ℤ) ≤ last :=
    fun kl h => by exact_mod_cast hall kl h
  obtain ⟨-, -, hdiff, -, hmaxLe⟩ := stretched_bounds (trainedOn st : XSubModel M)
    (fun _ _ => false) (train.set.zip train.label) last (by omega) hcast
  constructor
  · intro hcov k l k' l' hk hk'
    have hd := (hdiff _ ((mem_diffs _).mpr ⟨k', l', hk', rfl, rfl⟩)).2
    by_contra hover
    have hneg := toInt32_neg (x := (trainedOn st : XSubModel M).getPointPredict k +
        (XSubModel.stretched (trainedOn st : XSubModel M) (fun _ _ => false)
          (train.set.zip train.label)).errMax)
      (by rw [hpoint] at hd ⊢; omega)
      (by
        have := getPointPredict_bounds (trainedOn st : XSubModel M) k
        omega)
    have hle := (hcov k l hk).2.trans (min_le_right _ _)
    have hsame : (XSubModel.stretched (trainedOn st : XSubModel M) (fun _ _ => false)
        (train.set.zip train.label)).getPointPredict k =
      (trainedOn st : XSubModel M).getPointPredict k := rfl
    rw [hsame] at hle
    omega
  · intro hover k l hk
    have hsum : (trainedOn st : XSubModel M).getPointPredict k +
        (XSubModel.stretched (trainedOn st : XSubModel M) (fun _ _ => false)
          (train.set.zip train.label)).errMax < 2 ^ 31 := by
      rcases (spread_attained (0, 0) (diffs (trainedOn st : XSubModel M) (fun _ _ => false)
        (train.set.zip train.label))).2 with h | h
      · have := getPointPredict_bounds (trainedOn st : XSubModel M) k
        simp only [XSubModel.stretched, h]
        omega
      · obtain ⟨k', l', hk', -, heq⟩ := (mem_diffs _).mp h
        have hfits := hover k l k' l' hk hk'
        simp only [XSubModel.stretched, heq, hpoint]
        omega
    rw [stretched_range _ _ _ last (by omega) hcast k hsum]
    have hd := hdiff _ ((mem_diffs _).mpr ⟨k, l, hk, rfl, rfl⟩)
    have hl := hall (k, l) hk
    rw [hmax, toInt32_eq (by omega) (by omega)]
    simp only at hl ⊢
    omega

/-- The last pair is covered only if its label is the one that `max` was taken from. -/
theorem kept_of_covers {st : TrainSet K} {kept : ℕ}
    (hlen : train.set.length = train.label.length) (hlast : train.label.getLast? = some last)
    (hle : kept ≤ last) (hmax : (trainedOn st : XSubModel M).max = toInt32 kept)
    (hcov : Covers ((trainedOn st : XSubModel M).calError train.set train.label
      defaultUpdateFunc) train) : kept = last ∧ last < 2 ^ 31 := by
  obtain ⟨kLast, hkLast⟩ := last_mem_zip hlen hlast
  have hcap : last ≤ toInt32 kept := by
    refine (hcov kLast last hkLast).2.trans ?_
    rw [← hmax, ← (calError_keeps (trainedOn st : XSubModel M) train.set train.label
      defaultUpdateFunc).2]
    exact min_le_left _ _
  have hkeptLe : toInt32 kept ≤ kept := toInt32_le (by omega)
  have hlt := toInt32_lt kept
  omega

/-- Training on the kept pairs and measuring the errors on all of them covers the training
set exactly when the bound condition holds. -/
theorem covers_iff (hstep : 1 ≤ step) (hlen : train.set.length = train.label.length)
    (hinc : train.label.Pairwise (fun a b => a < b)) :
    Covers ((trainedOn ⟨everyNth step 0 train.set, everyNth step 0 train.label⟩ :
      XSubModel M).calError train.set train.label defaultUpdateFunc) train ↔
      BoundHolds M step train := by
  set st : TrainSet K := ⟨everyNth step 0 train.set, everyNth step 0 train.label⟩ with hst
  cases hlast : train.label.getLast? with
  | none =>
    have hnil : train.label = [] := List.getLast?_eq_none_iff.mp hlast
    constructor
    · intro _ last h
      rw [hlast] at h
      cases h
    · intro _ k l hkl
      rw [hnil, List.zip_nil_right] at hkl
      cases hkl
  | some last =>
    obtain ⟨kept, hkept, hle, hiff⟩ := getLast?_everyNth hstep hinc hlast
    have hmax : (trainedOn st : XSubModel M).max = toInt32 kept := by
      simp only [trainedOn, hst, hkept]
    have hall := label_le_last hinc hlast
    have hstretch := fun hlt : last < 2 ^ 31 =>
      calError_stretched (M := M) st train defaultUpdateFunc_accumulates
        (fun kl h => (hall kl h).trans_lt hlt)
    constructor
    · intro hcov last' hlast'
      obtain rfl := Option.some.inj (hlast.symm.trans hlast')
      obtain ⟨heq, hlt⟩ := kept_of_covers hlen hlast hle hmax hcov
      rw [heq] at hmax
      rw [hstretch hlt, stretched_covers_iff hlt hall hmax] at hcov
      exact ⟨hiff.mp heq, hlt, hcov⟩
    · intro hbound
      obtain ⟨hmod, hlt, hover⟩ := hbound last hlast
      rw [hiff.mpr hmod] at hmax
      rw [hstretch hlt, stretched_covers_iff hlt hall hmax]
      exact hover

theorem boundHolds_of_small (hsmall : ∀ l ∈ train.label, l < 2 ^ 30) : BoundHolds M 1 train := by
  intro last hlast
  have hlt := hsmall last (List.mem_of_getLast? hlast)
  refine ⟨Nat.mod_one _, by omega, ?_⟩
  intro k l k' l' _ hk' ml
  have hl' := hsmall l' (List.of_mem_zip hk').2
  simp only [clamped]
  omega

theorem covers_of_small (hlen : train.set.length = train.label.length)
    (hinc : train.label.Pairwise (fun a b => a < b)) (hsmall : ∀ l ∈ train.label, l < 2 ^ 30) :
    Covers ((trainedOn train : XSubModel M).calError train.set train.label defaultUpdateFunc)
      train := by
  have h := covers_iff (M := M) (le_refl 1) hlen hinc
  rw [everyNth_one, everyNth_one] at h
  exact h.mpr (boundHolds_of_small hsmall)

end Fit

section Train
variable {IT KV S : Type} [Usize] [KeyType K] [KeyIterTrait IT KV K] [SampleTrait S K]

theorem trainWItWShrink_eq {SS : Type} [SampleTrait SS K] {fuel : ℕ} {t : XMLTrainer K}
    {it it' : IT} {kv : KV} {s s' : S} {ss : SS} {train st : TrainSet K} {f : UpdateFunc}
    (hneed : t.needTrain = true)
    (hsnap : t.snapshpotTrainLabels fuel it kv s = .ok (it', s', train))
    (hshrink : shrink ss train = .ok st) (hlen : st.set.length = st.label.length) :
    t.trainWItWShrink fuel it kv s ss f =
      .ok ((trainedOn st : XSubModel M).calError train.set train.label f, it',
        t.trainDone) := by
  simp only [XMLTrainer.trainWItWShrink, hneed, if_true, hsnap, ok_bind, fit_eq hshrink hlen,
    pure_eq_ok]

/-- The whole training set is covered exactly when the shrink sampler keeps its last pair and
the arithmetic stays within an int. -/
theorem error_bound_iff {fuel : ℕ} {t : XMLTrainer K} {it it' : IT} {kv : KV} {s s' : S}
    {train : TrainSet K} (hneed : t.needTrain = true)
    (hsnap : t.snapshpotTrainLabels fuel it kv s = .ok (it', s', train))
    (hlen : train.set.length = train.label.length)
    (hinc : train.label.Pairwise (fun a b => a < b)) :
    (∃ (model : XSubModel M) (t' : XMLTrainer K), t.trainWItWShrink fuel it kv s
        ({} : DefaultSample K) defaultUpdateFunc = .ok (model, it', t') ∧
      (Covers model train ↔ BoundHolds M 1 train)) ∧
    ∀ step, 1 ≤ step → ∃ (model : XSubModel M) (t' : XMLTrainer K),
      t.trainWItWShrink fuel it kv s (StepSampler.new step : StepSampler K) defaultUpdateFunc =
        .ok (model, it', t') ∧
      (Covers model train ↔ BoundHolds M step train) := by
  constructor
  · refine ⟨_, _, trainWItWShrink_eq hneed hsnap (shrink_default train hlen) hlen, ?_⟩
    have h := covers_iff (M := M) (le_refl 1) hlen hinc
    rwa [everyNth_one, everyNth_one] at h
  · intro step hstep
    have hkept : (everyNth step 0 train.set).length = (everyNth step 0 train.label).length := by
      have h₁ := everyNth_map step 0 Prod.fst (train.set.zip train.label)
      have h₂ := everyNth_map step 0 Prod.snd (train.set.zip train.label)
      rw [List.map_fst_zip hlen.le] at h₁
      rw [List.map_snd_zip hlen.ge] at h₂
      rw [h₁, h₂, List.length_map, List.length_map]
    exact ⟨_, _, trainWItWShrink_eq hneed hsnap (shrink_stepSampler train hlen step) hkept,
      covers_iff hstep hlen hinc⟩

end Train

/-- The linear model after training on at most one pair: both of its parameters are 0. -/
structure FlatLR where
  deriving DecidableEq

instance : MlTrait FlatLR XKey where
  init := {}
  train m _ _ := m
  predict _ _ := 0

/-- A tree of the keys 1 and 2, a trainer that received both, and its training set; then the
range that a model shrunk by steps of two predicts for the key 2. -/
def twoKeys [StdSort] [Usize] : Res (Store 2 XKey ℕ × XCacheTreeIter 2 XKey × XMLTrainer XKey) := do
  let w ← (World.init (fun _ => XNode.new : Mem 2 XKey ℕ)).insertAll [(1, 10), (2, 20)]
  let it ← XCacheTreeIter.fromTT w.mem w.tree .empty
  pure (⟨fun p => 4096 + 256 * p, w.mem, w.tree⟩, it, (XMLTrainer.new.updateKey 1).updateKey 2)

theorem twoKeys_trained :
    letI := insertionStdSort
    letI := usize64
    (do
      let (kv, it, t) ← twoKeys
      let (it', _, train) ← t.snapshpotTrainLabels 3 it kv ({} : DefaultSample XKey)
      let (model, _, _) ← (t.trainWItWShrink 3 it kv ({} : DefaultSample XKey)
        (StepSampler.new 2 : StepSampler XKey) defaultUpdateFunc :
        Res (XSubModel FlatLR × XCacheTreeIter 2 XKey × XMLTrainer XKey))
      pure (t.needTrain, train, it'.hasNext, model.getPredictRange 2)) =
      .ok (true, ⟨[1, 2], [0, 1]⟩, false, (0, 0)) := by
  decide +kernel

/-- Two keys, steps of two: `max` is the label 0 of the first key, and the range predicted
for the second one, whose label is 1, ends there. -/
theorem error_bound_steps_of_two :
    letI := insertionStdSort
    letI := usize64
    ¬ ∀ (kv : Store 2 XKey ℕ) (it it' it'' : XCacheTreeIter 2 XKey) (t t' : XMLTrainer XKey)
      (s' : DefaultSample XKey) (train : TrainSet XKey) (step : ℕ) (model : XSubModel FlatLR),
      1 ≤ step → t.snapshpotTrainLabels 3 it kv ({} : DefaultSample XKey) = .ok (it', s', train) →
      train.label.Pairwise (fun a b => a < b) →
      t.trainWItWShrink 3 it kv ({} : DefaultSample XKey)
        (StepSampler.new step : StepSampler XKey) defaultUpdateFunc = .ok (model, it'', t') →
      Covers model train := by
  let : StdSort := insertionStdSort
  let : Usize := usize64
  intro h
  have hrun := twoKeys_trained
  simp only [bind_eq_ok, pure_eq_ok, Except.ok.injEq, Prod.mk.injEq] at hrun
  obtain ⟨⟨kv, it, t⟩, -, ⟨it', s', train⟩, hsnap, ⟨model, it'', t'⟩, htrain, -, rfl, -, hrange⟩ :=
    hrun
  have hcov := h kv it it' it'' t t' s' _ 2 model (by decide) hsnap (by decide) htrain
  have hend := (hcov 2 1 (by simp)).2
  rw [hrange] at hend
  exact absurd hend (by decide)

theorem error_bound_iff_two :
    letI := insertionStdSort
    letI := usize64
    ∃ (kv : Store 2 XKey ℕ) (it it' : XCacheTreeIter 2 XKey) (t t' : XMLTrainer XKey)
      (model : XSubModel FlatLR),
      t.trainWItWShrink 3 it kv ({} : DefaultSample XKey) ({} : DefaultSample XKey)
        defaultUpdateFunc = .ok (model, it', t') ∧
      (Covers model ⟨[1, 2], [0, 1]⟩ ↔ BoundHolds FlatLR 1 ⟨[1, 2], [0, 1]⟩) := by
  let : StdSort := insertionStdSort
  let : Usize := usize64
  have hrun := twoKeys_trained
  simp only [bind_eq_ok, pure_eq_ok, Except.ok.injEq, Prod.mk.injEq] at hrun
  obtain ⟨⟨kv, it, t⟩, -, ⟨it', s', train⟩, hsnap, -, -, hneed, rfl, -⟩ := hrun
  obtain ⟨⟨model, t', htrain, hiff⟩, -⟩ :=
    error_bound_iff (M := FlatLR) hneed hsnap rfl (by decide)
  exact ⟨kv, it, it', t, t', model, htrain, hiff⟩

end XStore.Xcache
