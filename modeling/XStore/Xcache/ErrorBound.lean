import XStore.Lib.EveryNth
import XStore.Lib.Spread
import XStore.Xcache.Trainer

/-! What the bounds of a trained model cover. -/
namespace XStore.Xcache
open XStore.Lib XStore.Xkv XStore.Xml
variable {K M : Type} [MlTrait M K]

/-- An update function that either leaves the bounds or stretches them to the difference of
label and prediction, as long as everything fits an int. -/
structure Accumulates (f : UpdateFunc) (skip : ℕ → ℕ → Bool) : Prop where
  step : ∀ (l p : ℕ) (mn mx : ℤ), l < 2 ^ 31 → p < 2 ^ 31 → -2 ^ 31 ≤ mn → mn < 2 ^ 31 →
    -2 ^ 31 ≤ mx → mx < 2 ^ 31 →
    f l p mn mx = if skip l p then (mn, mx) else (min mn (l - p), max mx (l - p))

theorem defaultUpdateFunc_accumulates : Accumulates defaultUpdateFunc (fun _ _ => false) := by
  constructor
  intro l p mn mx hl hp hmn hmn' hmx hmx'
  have hlabel : toInt64 (l : ℤ) = l := toInt64_eq (by omega) (by omega)
  have hpredict : toInt64 (p : ℤ) = p := toInt64_eq (by omega) (by omega)
  have hdiff : toInt64 ((l : ℤ) - p) = l - p := toInt64_eq (by omega) (by omega)
  have hmin : toInt32 (min mn ((l : ℤ) - p)) = min mn (l - p) :=
    toInt32_eq (by omega) (by omega)
  have hmax : toInt32 (max mx ((l : ℤ) - p)) = max mx (l - p) :=
    toInt32_eq (by omega) (by omega)
  simp [defaultUpdateFunc, hlabel, hpredict, hdiff, hmin, hmax]

section Model
variable (s : XSubModel M)

theorem getPointPredict_bounds (k : K) :
    0 ≤ s.getPointPredict k ∧ s.getPointPredict k < 2 ^ 31 := by
  have h := toInt32_lt (s.max - 1)
  simp only [XSubModel.getPointPredict]
  omega

def diffs (skip : ℕ → ℕ → Bool) (train : List (K × ℕ)) : List ℤ :=
  (train.filter (fun kl => !skip kl.2 (s.getPointPredict kl.1).toNat)).map
    (fun kl => kl.2 - s.getPointPredict kl.1)

theorem mem_diffs {skip : ℕ → ℕ → Bool} {train : List (K × ℕ)} {d : ℤ} :
    d ∈ diffs s skip train ↔ ∃ k l, (k, l) ∈ train ∧ skip l (s.getPointPredict k).toNat = false ∧
      d = l - s.getPointPredict k := by
  simp only [diffs, List.mem_map, List.mem_filter, Bool.not_eq_true', Prod.exists]
  constructor
  · rintro ⟨k, l, ⟨hmem, hskip⟩, rfl⟩
    exact ⟨k, l, hmem, hskip, rfl⟩
  · rintro ⟨k, l, hmem, hskip, rfl⟩
    exact ⟨k, l, ⟨hmem, hskip⟩, rfl⟩

theorem calError_eq {f : UpdateFunc} {skip : ℕ → ℕ → Bool} (hf : Accumulates f skip)
    (train : List (K × ℕ)) (hl : ∀ kl ∈ train, kl.2 < 2 ^ 31)
    (hmin : -2 ^ 31 ≤ s.errMin ∧ s.errMin < 2 ^ 31)
    (hmax : -2 ^ 31 ≤ s.errMax ∧ s.errMax < 2 ^ 31) :
    train.foldl (fun s kl =>
      let res := f kl.2 ((s.getPointPredict kl.1) % 2 ^ 64).toNat s.errMin s.errMax
      { s with errMin := res.1, errMax := res.2 }) s =
    { s with errMin := (spread (s.errMin, s.errMax) (diffs s skip train)).1
             errMax := (spread (s.errMin, s.errMax) (diffs s skip train)).2 } := by
  induction train generalizing s with
  | nil => rfl
  | cons kl train ih =>
    obtain ⟨k, l⟩ := kl
    obtain ⟨hp₀, hp⟩ := getPointPredict_bounds s k
    have hlt : l < 2 ^ 31 := hl (k, l) (by simp)
    have hmod : s.getPointPredict k % 2 ^ 64 = s.getPointPredict k :=
      Int.emod_eq_of_lt hp₀ (by omega)
    have hnat : ((s.getPointPredict k).toNat : ℤ) = s.getPointPredict k := Int.toNat_of_nonneg hp₀
    have hstep := hf.step l (s.getPointPredict k).toNat s.errMin s.errMax hlt (by omega)
      hmin.1 hmin.2 hmax.1 hmax.2
    rw [hnat] at hstep
    rw [List.foldl_cons]
    simp only [hmod, hstep]
    have htail : ∀ kl ∈ train, kl.2 < 2 ^ 31 := fun kl h => hl kl (List.mem_cons_of_mem _ h)
    by_cases hskip : skip l (s.getPointPredict k).toNat = true
    · rw [if_pos hskip, ih s htail hmin hmax]
      simp [diffs, hskip]
    · rw [if_neg hskip, ih _ htail (by simp only; omega) (by simp only; omega)]
      simp only [Bool.not_eq_true] at hskip
      simp only [diffs, List.filter_cons, hskip, Bool.not_false, if_true, List.map_cons,
        spread_cons]
      rfl

theorem calError_keeps (set : List K) (label : List ℕ) (f : UpdateFunc) :
    (s.calError set label f).ml = s.ml ∧ (s.calError set label f).max = s.max := by
  unfold XSubModel.calError
  induction set.zip label generalizing s with
  | nil => exact ⟨rfl, rfl⟩
  | cons kl train ih =>
    rw [List.foldl_cons, (ih _).1, (ih _).2]
    exact ⟨rfl, rfl⟩

def XSubModel.stretched (skip : ℕ → ℕ → Bool) (train : List (K × ℕ)) : XSubModel M :=
  { s with errMin := (spread (0, 0) (diffs s skip train)).1
           errMax := (spread (0, 0) (diffs s skip train)).2 }

/-- The bounds surround 0 and every difference, and stay within the largest label. -/
theorem stretched_bounds (skip : ℕ → ℕ → Bool) (train : List (K × ℕ)) (L : ℤ) (hL₀ : 0 ≤ L)
    (hl : ∀ kl ∈ train, (kl.2 : ℤ) ≤ L) :
    (XSubModel.stretched s skip train).errMin ≤ 0 ∧
      0 ≤ (XSubModel.stretched s skip train).errMax ∧
      (∀ d ∈ diffs s skip train, (XSubModel.stretched s skip train).errMin ≤ d ∧
        d ≤ (XSubModel.stretched s skip train).errMax) ∧
      -2 ^ 31 < (XSubModel.stretched s skip train).errMin ∧
      (XSubModel.stretched s skip train).errMax ≤ L := by
  have hacc := spread_acc (0, 0) (diffs s skip train)
  have hbounds : ∀ d ∈ diffs s skip train, -2 ^ 31 + 1 ≤ d ∧ d ≤ L := by
    intro d hd
    obtain ⟨k, l, hmem, -, rfl⟩ := (mem_diffs s).mp hd
    have hp := getPointPredict_bounds s k
    have hle := hl (k, l) hmem
    simp only at hle
    omega
  have hacc₀ : -2 ^ 31 + 1 ≤ ((0, 0) : ℤ × ℤ).1 ∧ ((0, 0) : ℤ × ℤ).2 ≤ L := by
    simp only
    omega
  have h := spread_bounds hacc₀ hbounds
  refine ⟨hacc.1, hacc.2, spread_mem (0, 0) _, ?_, h.2⟩
  have h₁ := h.1
  simp only [XSubModel.stretched]
  omega

/-- As long as nothing overflows, the range is what it is meant to be. -/
theorem stretched_range (skip : ℕ → ℕ → Bool) (train : List (K × ℕ)) (L : ℤ) (hL₀ : 0 ≤ L)
    (hl : ∀ kl ∈ train, (kl.2 : ℤ) ≤ L) (k : K)
    (hover : s.getPointPredict k + (XSubModel.stretched s skip train).errMax < 2 ^ 31) :
    (XSubModel.stretched s skip train).getPredictRange k =
      (max 0 (s.getPointPredict k + (XSubModel.stretched s skip train).errMin),
        min s.max (s.getPointPredict k + (XSubModel.stretched s skip train).errMax)) := by
  obtain ⟨hmin, hmax, -, hlow, -⟩ := stretched_bounds s skip train L hL₀ hl
  have hp := getPointPredict_bounds s k
  have hsame : (XSubModel.stretched s skip train).getPointPredict k = s.getPointPredict k := rfl
  simp only [XSubModel.getPredictRange, hsame]
  rw [toInt32_eq (by omega) (by omega), toInt32_eq (by omega) (by omega)]
  rfl

end Model

section Shrink

theorem addAll_stepSampler (step : ℕ) (xs : List (K × ℕ)) (c : ℕ) (t : TrainSet K) :
    ∃ c', addAll xs (⟨step, c⟩ : StepSampler K) t =
      .ok (⟨step, c'⟩, ⟨t.set ++ (everyNth step c xs).map Prod.fst,
        t.label ++ (everyNth step c xs).map Prod.snd⟩) := by
  induction xs generalizing c t with
  | nil => exact ⟨c, by simp [everyNth]⟩
  | cons kl xs ih =>
    obtain ⟨c', h⟩ := ih (wrapSucc step c) (if c = 0 then t.push kl.1 kl.2 else t)
    refine ⟨c', ?_⟩
    have hadd : SampleTrait.addTo (⟨step, c⟩ : StepSampler K) kl.1 kl.2 t =
        .ok (⟨step, wrapSucc step c⟩, if c = 0 then t.push kl.1 kl.2 else t) := rfl
    rw [addAll_cons_ok _ hadd, h]
    by_cases hc : c = 0 <;> simp [everyNth, hc, TrainSet.push]

theorem addAll_default (xs : List (K × ℕ)) (t : TrainSet K) :
    addAll xs ({} : DefaultSample K) t =
      .ok ({}, ⟨t.set ++ xs.map Prod.fst, t.label ++ xs.map Prod.snd⟩) := by
  induction xs generalizing t with
  | nil => simp
  | cons kl xs ih =>
    have hadd : SampleTrait.addTo ({} : DefaultSample K) kl.1 kl.2 t =
        .ok ({}, t.push kl.1 kl.2) := rfl
    rw [addAll_cons_ok _ hadd, ih]
    simp [TrainSet.push]

variable (train : TrainSet K) (hlen : train.set.length = train.label.length)
include hlen

theorem shrink_stepSampler (step : ℕ) : shrink (StepSampler.new step : StepSampler K) train =
    .ok ⟨everyNth step 0 train.set, everyNth step 0 train.label⟩ := by
  obtain ⟨c', h⟩ := addAll_stepSampler step (train.set.zip train.label) 0 .empty
  unfold shrink StepSampler.new
  rw [h, ok_bind]
  simp only [SampleTrait.finalize, TrainSet.empty, List.nil_append]
  rw [← everyNth_map, ← everyNth_map, List.map_fst_zip hlen.le, List.map_snd_zip hlen.ge]

theorem shrink_default : shrink ({} : DefaultSample K) train = .ok train := by
  simp only [shrink, addAll_default, ok_bind, SampleTrait.finalize, TrainSet.empty,
    List.nil_append]
  rw [List.map_fst_zip hlen.le, List.map_snd_zip hlen.ge]

end Shrink

def trainedOn (st : TrainSet K) : XSubModel M :=
  { ml := MlTrait.train MlTrait.init st.set st.label, errMin := 0, errMax := 0
    max := match st.label.getLast? with
      | some l => toInt32 l
      | none => 0 }

theorem trainMl_eq {st : TrainSet K} (hlen : st.set.length = st.label.length) :
    (XSubModel.new : XSubModel M).trainMl st.set st.label = .ok (trainedOn st) := by
  unfold XSubModel.trainMl trainedOn XSubModel.new
  rw [hlen, beq_self_eq_true, ensure_true, ok_bind]
  cases st.label.getLast? <;> rfl

theorem fit_eq {SS : Type} [SampleTrait SS K] {ss : SS} {train st : TrainSet K} {f : UpdateFunc}
    (hshrink : shrink ss train = .ok st) (hlen : st.set.length = st.label.length) :
    fit ss train f = .ok ((trainedOn st : XSubModel M).calError train.set train.label f) := by
  unfold fit
  rw [hshrink, ok_bind, trainMl_eq hlen, ok_bind]
  rfl

theorem calError_stretched (st train : TrainSet K) {f : UpdateFunc} {skip : ℕ → ℕ → Bool}
    (hf : Accumulates f skip) (hl : ∀ kl ∈ train.set.zip train.label, kl.2 < 2 ^ 31) :
    (trainedOn st : XSubModel M).calError train.set train.label f =
      XSubModel.stretched (trainedOn st) skip (train.set.zip train.label) := by
  have h := calError_eq (trainedOn st : XSubModel M) hf (train.set.zip train.label) hl
    (by simp [trainedOn]) (by simp [trainedOn])
  exact h

end XStore.Xcache
