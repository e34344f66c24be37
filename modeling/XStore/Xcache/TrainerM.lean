import XStore.DataDist.PageUpdater
import XStore.Xcache.Offers
import XStore.Xcache.PageSampling

/-! Training with an update function that can fail, and what bounds the shipped update functions
leave. -/
namespace XStore.Xcache
open XStore.Lib XStore.Xkv XStore.Xml
variable {N : ℕ} {K V S SS M : Type}

def fitM [MlTrait M K] [SampleTrait SS K] (ss : SS) (train : TrainSet K) (f : UpdateFuncM) :
    Res (XSubModel M) := do
  let sTrain ← shrink ss train
  let model ← (XSubModel.new : XSubModel M).trainMl sTrain.set sTrain.label
  model.calErrorM train.set train.label f

section Train
variable [Usize] [KeyType K] [SampleTrait S K] [SampleTrait SS K] [MlTrait M K]

def XMLTrainer.trainWItWShrinkM {IT KV : Type} [KeyIterTrait IT KV K] (fuel : ℕ)
    (t : XMLTrainer K) (it : IT) (kv : KV) (s : S) (ss : SS) (f : UpdateFuncM) :
    Res (XSubModel M × IT × XMLTrainer K) :=
  if t.needTrain then do
    let (it, _, train) ← t.snapshpotTrainLabels fuel it kv s
    let model ← fitM ss train f
    pure (model, it, t.trainDone)
  else pure (.new, it, t)

variable [StdSort]

def trainSubM (fuel : ℕ) (kv : Store N K V) (s : S) (ss : SS) (f : UpdateFuncM)
    (t : XMLTrainer K) : Res (XSubModel M × TT) := do
  let it ← XCacheTreeIter.fromTT kv.mem kv.tree .empty
  let (model, it, _) ← t.trainWItWShrinkM fuel it kv s ss f
  let tt ← need it.tt .nullDeref
  pure (model, tt)

theorem trainSubM_total (fuel : ℕ) (kv : Store N K V) (s : S) (ss : SS) (f : UpdateFunc)
    (t : XMLTrainer K) :
    (trainSubM fuel kv s ss f.total t : Res (XSubModel M × TT)) = trainSub fuel kv s ss f t := by
  simp only [trainSubM, trainSub, XMLTrainer.trainWItWShrinkM, XMLTrainer.trainWItWShrink, fitM,
    fit, XSubModel.calErrorM_total, pure_eq_ok]

/-- Every key that a training run offers to its sampler, with its label. -/
def offered (fuel : ℕ) (kv : Store N K V) (t : XMLTrainer K) : Res (TrainSet K) := do
  let it ← XCacheTreeIter.fromTT kv.mem kv.tree .empty
  let (_, _, train) ← t.snapshpotTrainLabels fuel it kv ({} : DefaultSample K)
  pure train

end Train

/-- The update functions of the repository; the loop of the last one has rounds enough. -/
inductive Shipped : UpdateFuncM → Prop
  | default : Shipped (UpdateFunc.total defaultUpdateFunc)
  | page (n : ℕ) : Shipped (UpdateFunc.total (pageUpdateFunc n))
  | ycsb : Shipped (UpdateFunc.total pageUpdater)
  | dataDist {n fuel : ℕ} : 1 ≤ n → 2 ^ 30 ≤ fuel → Shipped (DataDist.pageUpdater n fuel)

theorem Accumulates.widens {f : UpdateFunc} {skip : ℕ → ℕ → Bool} (hf : Accumulates f skip) :
    Widens f.total := by
  intro l p mn mx res hl hp hmn hmn₀ hmx₀ hmx h
  obtain rfl := Except.ok.inj h
  rw [hf.step l p mn mx (by omega) (by omega) (by omega) (by omega) (by omega) (by omega)]
  split
  · exact ⟨hmn, le_rfl, le_rfl, hmx⟩
  · exact ⟨by simp only; omega, min_le_left _ _, le_max_left _ _, by simp only; omega⟩

theorem Shipped.widens {f : UpdateFuncM} (hf : Shipped f) : Widens f := by
  cases hf with
  | default => exact defaultUpdateFunc_accumulates.widens
  | page n => exact pageUpdateFunc_accumulates.widens
  | ycsb => exact pageUpdater_accumulates.widens
  | dataDist hn hfuel =>
    intro l p mn mx res hl hp hmn hmn₀ hmx₀ hmx h
    rw [DataDist.pageUpdater_eq hn hl hp hfuel] at h
    obtain rfl := Except.ok.inj h
    obtain ⟨hlow, hle, hge, hhigh, -⟩ := DataDist.pageStretch_spec hn hl hp hmn hmn₀ hmx₀ hmx
    exact ⟨hlow, hle, hge, hhigh⟩

section Spec
variable [LinearOrder K] [BoundedOrder K] [StdSort] [SampleTrait S K] [SampleTrait SS K]
  [MlTrait M K]

omit [LinearOrder K] [BoundedOrder K] [StdSort] in
theorem shrink_label {ss : SS} (hss : Selects ss) {train st : TrainSet K}
    (h : shrink ss train = .ok st) : ∀ l ∈ st.label, l ∈ train.label := by
  obtain ⟨⟨ss', t⟩, hadd, hfin⟩ := bind_eq_ok.mp h
  intro l hl
  obtain ⟨kl, hkl, rfl⟩ := List.mem_map.mp (hss _ ss' t st hadd hfin l hl)
  exact (List.of_mem_zip hkl).2

omit [LinearOrder K] [BoundedOrder K] [StdSort] in
/-- The fitted model: bounds around 0, and `max` is 0 or the label of a training pair. -/
theorem fitM_spec {ss : SS} (hss : Selects ss) {f : UpdateFuncM} (hf : Widens f)
    {train : TrainSet K} (hl : ∀ l ∈ train.label, l < 2 ^ 30) {model : XSubModel M}
    (h : fitM ss train f = .ok model) :
    Centred model ∧ (model.max = 0 ∨ ∃ l ∈ train.label, model.max = l) := by
  obtain ⟨st, hshrink, h⟩ := bind_eq_ok.mp h
  obtain ⟨model₀, htrain, herror⟩ := bind_eq_ok.mp h
  have hsub := shrink_label hss hshrink
  have hlen : st.set.length = st.label.length := by
    obtain ⟨_, hsame, -⟩ := bind_eq_ok.mp htrain
    by_contra hne
    simp [beq_eq_false_iff_ne.mpr hne] at hsame
  obtain rfl := Except.ok.inj ((trainMl_eq hlen).symm.trans htrain)
  have hmax : (trainedOn st : XSubModel M).max = 0 ∨
      ∃ l ∈ train.label, (trainedOn st : XSubModel M).max = l := by
    cases hlast : st.label.getLast? with
    | none => exact Or.inl (by simp [trainedOn, hlast])
    | some l =>
      have hmem := hsub l (List.mem_of_getLast? hlast)
      have hlt := hl l hmem
      exact Or.inr ⟨l, hmem, by simp [trainedOn, hlast, toInt32_eq (x := l) (by omega) (by omega)]⟩
  have hs : Centred (trainedOn st : XSubModel M) := by
    have hrange : 0 ≤ (trainedOn st : XSubModel M).max ∧
        (trainedOn st : XSubModel M).max < 2 ^ 30 := by
      cases hmax with
      | inl hzero => omega
      | inr hlabel =>
        obtain ⟨l, hmem, heq⟩ := hlabel
        have hlt := hl l hmem
        omega
    exact ⟨hrange.1, hrange.2, by simp [trainedOn], le_rfl, le_rfl, by simp [trainedOn]⟩
  have hwide := hf.calErrorM hs hl herror
  exact ⟨hwide.centred hs, by rw [hwide.max]; exact hmax⟩

omit [LinearOrder K] [BoundedOrder K] in
theorem trainSubM_phases [Usize] [KeyType K] {s : S} {ss : SS} {f : UpdateFuncM} {kv : Store N K V}
    {t : XMLTrainer K} (hneed : t.needTrain = true) {fuel : ℕ} {model : XSubModel M} {tt : TT}
    (h : trainSubM fuel kv s ss f t = .ok (model, tt)) :
    ∃ (it₀ it₁ it : XCacheTreeIter N K) (s' : S) (picked chosen : TrainSet K),
      XCacheTreeIter.fromTT kv.mem kv.tree .empty = .ok it₀ ∧
      KeyIterTrait.seek t.startKey kv it₀ = .ok it₁ ∧
      labelLoop kv t.endKey fuel it₁ s .empty = .ok (it, s', picked) ∧
      SampleTrait.finalize s' picked = .ok chosen ∧ fitM ss chosen f = .ok model ∧
      it.tt = some tt := by
  obtain ⟨it₀, hfrom, h⟩ := bind_eq_ok.mp h
  obtain ⟨⟨model', it, t'⟩, htrain, h⟩ := bind_eq_ok.mp h
  obtain ⟨tt', htt, h⟩ := bind_eq_ok.mp h
  obtain ⟨rfl, rfl⟩ := Prod.mk.inj (Except.ok.inj h)
  rw [XMLTrainer.trainWItWShrinkM, if_pos hneed] at htrain
  obtain ⟨⟨it', s', chosen⟩, hsnap, htrain⟩ := bind_eq_ok.mp htrain
  obtain ⟨model'', hfit, htrain⟩ := bind_eq_ok.mp htrain
  obtain ⟨rfl, rfl, rfl⟩ : model'' = model' ∧ it' = it ∧ t.trainDone = t' := by
    simpa using htrain
  obtain ⟨it₁, hseek, hsnap⟩ := bind_eq_ok.mp hsnap
  obtain ⟨⟨it₂, s₂, picked⟩, hloop, hsnap⟩ := bind_eq_ok.mp hsnap
  obtain ⟨chosen', hfin, hsnap⟩ := bind_eq_ok.mp hsnap
  obtain ⟨rfl, rfl, rfl⟩ : it₂ = it' ∧ s₂ = s' ∧ chosen' = chosen := by simpa using hsnap
  exact ⟨it₀, it₁, it₂, s₂, picked, chosen', hfrom, hseek, hloop, hfin, hfit, need_eq_ok.mp htt⟩

omit [LinearOrder K] [BoundedOrder K] in
theorem offered_eq [KeyType K] {kv : Store N K V} {t : XMLTrainer K} {fuel : ℕ}
    {it₀ it₁ it : XCacheTreeIter N K} {xs : List (K × ℕ)}
    (hfrom : XCacheTreeIter.fromTT kv.mem kv.tree .empty = .ok it₀)
    (hseek : KeyIterTrait.seek t.startKey kv it₀ = .ok it₁)
    (hloop : labelLoop kv t.endKey fuel it₁ ({} : DefaultSample K) .empty =
      .ok (it, {}, ⟨xs.map Prod.fst, xs.map Prod.snd⟩)) :
    offered fuel kv t = .ok ⟨xs.map Prod.fst, xs.map Prod.snd⟩ := by
  simp only [offered, hfrom, ok_bind, XMLTrainer.snapshpotTrainLabels]
  rw [hseek, ok_bind, hloop]
  rfl

/-- A training run that was offered a key: the table has an entry for the page of `max`. -/
theorem trainSubM_spec [Usize] {s : S} (hs : Selects s) {ss : SS} (hss : Selects ss)
    {f : UpdateFuncM} (hf : Widens f) {kv : Store N K V} {t : XMLTrainer K}
    (hneed : t.needTrain = true) {fuel : ℕ} {train : TrainSet K}
    (hoffered : offered fuel kv t = .ok train) (hne : train.label ≠ [])
    (hl : ∀ l ∈ train.label, l < 2 ^ 30) {model : XSubModel M} {tt : TT}
    (h : trainSubM fuel kv s ss f t = .ok (model, tt)) :
    Centred model ∧ model.max / N < tt.size ∧ tt.size < 2 ^ 31 := by
  obtain ⟨it₀, it₁, it, s', picked, chosen, hfrom, hseek, hloop, hfin, hfit, htt⟩ :=
    trainSubM_phases hneed h
  obtain ⟨n, hn⟩ := (Numbered.fromTT hfrom).seek hseek
  obtain ⟨xs, m, hadd, hm, -, hpages, -, hlast, hother⟩ := labelLoop_offers kv t.endKey hn hloop
  -- the default sampler runs over the same pairs
  have hdefault := hother (DefaultSample K) {} {} .empty _ (addAll_default xs .empty)
  obtain rfl := Except.ok.inj (hoffered.symm.trans (offered_eq hfrom hseek hdefault))
  have hxs : xs ≠ [] := fun hnil => hne (by simp [hnil])
  have hchosen : ∀ l ∈ chosen.label, l ∈ xs.map Prod.snd := hs xs s' picked chosen hadd hfin
  obtain ⟨hcentred, hmax⟩ := fitM_spec hss hf (fun l hmem => hl l (hchosen l hmem)) hfit
  obtain ⟨tt₂, htt₂, hsize, -⟩ := hm
  obtain rfl : tt₂ = tt := Option.some.inj (htt₂.symm.trans htt)
  refine ⟨hcentred, ?_, ?_⟩
  · cases hmax with
    | inl hzero =>
      obtain ⟨kl, hkl⟩ := List.exists_mem_of_ne_nil xs hxs
      have hpos : 0 < m := Nat.zero_lt_of_lt (hpages kl hkl)
      rw [hzero, Int.zero_ediv, hsize]
      exact_mod_cast hpos
    | inr hlabel =>
      obtain ⟨l, hmem, heq⟩ := hlabel
      obtain ⟨kl, hkl, rfl⟩ := List.mem_map.mp (hchosen l hmem)
      have hlt := hpages kl hkl
      rw [heq, hsize]
      exact_mod_cast hlt
  · obtain ⟨kl, hkl⟩ : ∃ kl, xs.getLast? = some kl := by
      cases hgl : xs.getLast? with
      | none => exact absurd (List.getLast?_eq_none_iff.mp hgl) hxs
      | some kl => exact ⟨kl, rfl⟩
    have hle := hlast kl hkl
    have hlt := hl kl.2 (List.mem_map_of_mem (List.mem_of_getLast? hkl))
    have hdiv : kl.2 / N ≤ kl.2 := Nat.div_le_self _ _
    omega

end Spec
end XStore.Xcache
