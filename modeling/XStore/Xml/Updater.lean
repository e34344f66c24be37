import XStore.Xml.SubModel

/-! Update functions that can fail or run on. An update function that always answers is the
special case `UpdateFunc.total`. -/
namespace XStore.Xml
variable {M K : Type} [MlTrait M K]

abbrev UpdateFuncM := ℕ → ℕ → ℤ → ℤ → Res (ℤ × ℤ)

def UpdateFunc.total (f : UpdateFunc) : UpdateFuncM := fun label predict curMin curMax =>
  .ok (f label predict curMin curMax)

namespace XSubModel
variable (s : XSubModel M)

def update (f : UpdateFunc) (kl : K × ℕ) : XSubModel M :=
  let res := f kl.2 ((s.getPointPredict kl.1) % 2 ^ 64).toNat s.errMin s.errMax
  { s with errMin := res.1, errMax := res.2 }

def updateM (f : UpdateFuncM) (kl : K × ℕ) : Res (XSubModel M) := do
  let res ← f kl.2 ((s.getPointPredict kl.1) % 2 ^ 64).toNat s.errMin s.errMax
  pure { s with errMin := res.1, errMax := res.2 }

def calErrorM (trainData : List K) (trainLabel : List ℕ) (f : UpdateFuncM) : Res (XSubModel M) :=
  (trainData.zip trainLabel).foldlM (fun s kl => s.updateM f kl) s

theorem calError_eq_foldl (trainData : List K) (trainLabel : List ℕ) (f : UpdateFunc) :
    s.calError trainData trainLabel f =
      (trainData.zip trainLabel).foldl (fun s kl => s.update f kl) s := rfl

theorem calErrorM_total (trainData : List K) (trainLabel : List ℕ) (f : UpdateFunc) :
    s.calErrorM trainData trainLabel f.total = .ok (s.calError trainData trainLabel f) := by
  rw [calErrorM, calError_eq_foldl]
  induction trainData.zip trainLabel generalizing s with
  | nil => rfl
  | cons kl train ih =>
    rw [List.foldlM_cons, List.foldl_cons]
    exact ih _

end XSubModel

/-- The last label and the bounds fit an int with room for a sum, and the bounds stand around 0. -/
structure Centred (s : XSubModel M) : Prop where
  max_nonneg : 0 ≤ s.max
  max_lt : s.max < 2 ^ 30
  errMin_ge : -2 ^ 30 ≤ s.errMin
  errMin_le : s.errMin ≤ 0
  errMax_ge : 0 ≤ s.errMax
  errMax_le : s.errMax ≤ 2 ^ 30

/-- `s'` is `s` with bounds at least as wide, and still within `2^30` of 0. -/
structure Widened (s s' : XSubModel M) : Prop where
  ml : s'.ml = s.ml
  max : s'.max = s.max
  errMin : s'.errMin ≤ s.errMin
  errMax : s.errMax ≤ s'.errMax
  errMin_ge : -2 ^ 30 ≤ s'.errMin
  errMax_le : s'.errMax ≤ 2 ^ 30

namespace Widened
variable {s s' s'' : XSubModel M}

omit [MlTrait M K] in
theorem refl (hmin : -2 ^ 30 ≤ s.errMin) (hmax : s.errMax ≤ 2 ^ 30) : Widened s s :=
  ⟨rfl, rfl, Int.le_refl _, Int.le_refl _, hmin, hmax⟩

omit [MlTrait M K] in
theorem trans (h : Widened s s') (h' : Widened s' s'') : Widened s s'' where
  ml := h'.ml.trans h.ml
  max := h'.max.trans h.max
  errMin := Int.le_trans h'.errMin h.errMin
  errMax := Int.le_trans h.errMax h'.errMax
  errMin_ge := h'.errMin_ge
  errMax_le := h'.errMax_le

omit [MlTrait M K] in
theorem centred (h : Widened s s') (hs : Centred s) : Centred s' where
  max_nonneg := by rw [h.max]; exact hs.max_nonneg
  max_lt := by rw [h.max]; exact hs.max_lt
  errMin_ge := h.errMin_ge
  errMin_le := Int.le_trans h.errMin hs.errMin_le
  errMax_ge := Int.le_trans hs.errMax_ge h.errMax
  errMax_le := h.errMax_le

theorem getPointPredict (h : Widened s s') (k : K) :
    s'.getPointPredict k = s.getPointPredict k := by
  rw [XSubModel.getPointPredict, XSubModel.getPointPredict, h.ml, h.max]

end Widened

namespace Centred
variable {s : XSubModel M}

theorem getPointPredict (h : Centred s) (k : K) :
    0 ≤ s.getPointPredict k ∧ s.getPointPredict k < 2 ^ 30 ∧ s.getPointPredict k ≤ s.max := by
  have hlow := h.max_nonneg
  have hhigh := h.max_lt
  have hint : toInt32 (s.max - 1) = s.max - 1 := toInt32_eq (by omega) (by omega)
  simp only [XSubModel.getPointPredict, hint]
  omega

/-- The sums of a prediction and a bound do not overflow. -/
theorem getPredictRange (h : Centred s) (k : K) :
    s.getPredictRange k = (Max.max 0 (s.getPointPredict k + s.errMin),
      min s.max (s.getPointPredict k + s.errMax)) := by
  obtain ⟨hp₀, hp, -⟩ := h.getPointPredict k
  have hmin := h.errMin_ge
  have hmin₀ := h.errMin_le
  have hmax := h.errMax_le
  have hmax₀ := h.errMax_ge
  rw [XSubModel.getPredictRange, toInt32_eq (by omega) (by omega), toInt32_eq (by omega) (by omega)]

end Centred

/-- On labels and predictions below `2^30` an answer only widens the bounds, and not beyond
`2^30` from 0. -/
def Widens (f : UpdateFuncM) : Prop :=
  ∀ (l p : ℕ) (mn mx : ℤ) (res : ℤ × ℤ), l < 2 ^ 30 → p < 2 ^ 30 → -2 ^ 30 ≤ mn → mn ≤ 0 →
    0 ≤ mx → mx ≤ 2 ^ 30 → f l p mn mx = .ok res →
    -2 ^ 30 ≤ res.1 ∧ res.1 ≤ mn ∧ mx ≤ res.2 ∧ res.2 ≤ 2 ^ 30

namespace Widens
variable {f : UpdateFuncM} {s s' : XSubModel M}

theorem updateM (hf : Widens f) (hs : Centred s) {k : K} {l : ℕ} (hl : l < 2 ^ 30)
    (h : s.updateM f (k, l) = .ok s') : Widened s s' := by
  obtain ⟨hp₀, hp, -⟩ := hs.getPointPredict k
  obtain ⟨res, hres, h⟩ := bind_eq_ok.mp h
  obtain rfl := Except.ok.inj h
  have hmod : (s.getPointPredict k % 2 ^ 64).toNat < 2 ^ 30 := by
    rw [Int.emod_eq_of_lt hp₀ (by omega)]
    omega
  obtain ⟨hlow, hle, hge, hhigh⟩ := hf l _ _ _ res hl hmod hs.errMin_ge hs.errMin_le
    hs.errMax_ge hs.errMax_le hres
  exact ⟨rfl, rfl, hle, hge, hlow, hhigh⟩

theorem calErrorM (hf : Widens f) (hs : Centred s) {trainData : List K} {trainLabel : List ℕ}
    (hl : ∀ l ∈ trainLabel, l < 2 ^ 30) (h : s.calErrorM trainData trainLabel f = .ok s') :
    Widened s s' := by
  have hrun : ∀ (train : List (K × ℕ)) (s : XSubModel M), Centred s →
      (∀ kl ∈ train, kl.2 < 2 ^ 30) →
      train.foldlM (fun s kl => s.updateM f kl) s = .ok s' → Widened s s' := by
    intro train
    induction train with
    | nil =>
      intro s hs _ h
      obtain rfl := Except.ok.inj h
      exact Widened.refl hs.errMin_ge hs.errMax_le
    | cons kl train ih =>
      intro s hs hl h
      obtain ⟨k, l⟩ := kl
      rw [List.foldlM_cons] at h
      obtain ⟨s₁, hstep, hrest⟩ := bind_eq_ok.mp h
      have hwide := hf.updateM hs (hl (k, l) (by simp)) hstep
      exact hwide.trans
        (ih s₁ (hwide.centred hs) (fun kl hkl => hl kl (List.mem_cons_of_mem _ hkl)) hrest)
  exact hrun _ s hs (fun kl hkl => hl kl.2 (List.of_mem_zip hkl).2) h

end Widens
end XStore.Xml
