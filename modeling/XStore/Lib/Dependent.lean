import Mathlib.Analysis.InnerProductSpace.GramSchmidtOrtho
import Mathlib.Analysis.InnerProductSpace.PiL2
import Mathlib.LinearAlgebra.UnitaryGroup

/-! The first vector of a list that is a combination of those before it, and where the
triangular factor of a matrix shows it. -/
namespace XStore.Lib

section First
variable {p q : ℕ → Prop} {n i : ℕ}

open Classical in
noncomputable def firstIndex (p : ℕ → Prop) (n : ℕ) : Option ℕ :=
  (List.range n).find? (fun i => decide (p i))

theorem firstIndex_eq_none : firstIndex p n = none ↔ ∀ i < n, ¬ p i := by
  simp [firstIndex]

theorem firstIndex_eq_some : firstIndex p n = some i ↔ i < n ∧ p i ∧ ∀ j < i, ¬ p j := by
  simp only [firstIndex, List.find?_range_eq_some, decide_eq_true_eq, List.mem_range,
    Bool.not_eq_true', decide_eq_false_iff_not]
  exact and_left_comm

theorem firstIndex_congr (h : ∀ i < n, (∀ j < i, ¬ p j) → (p i ↔ q i)) :
    firstIndex p n = firstIndex q n := by
  cases hp : firstIndex p n with
  | none =>
    rw [firstIndex_eq_none] at hp
    symm
    rw [firstIndex_eq_none]
    intro i hi
    rw [← h i hi (fun j hj => hp j (by omega))]
    exact hp i hi
  | some i =>
    obtain ⟨hi, hpi, hbefore⟩ := firstIndex_eq_some.mp hp
    symm
    rw [firstIndex_eq_some]
    refine ⟨hi, (h i hi hbefore).mp hpi, fun j hj => ?_⟩
    rw [← h j (by omega) (fun k hk => hbefore k (by omega))]
    exact hbefore j hj

end First

section Depends
variable (𝕜 : Type*) {E F : Type*} [Field 𝕜] [AddCommGroup E] [Module 𝕜 E] [AddCommGroup F]
  [Module 𝕜 F]

def listSpan (vs : List E) : Submodule 𝕜 E := Submodule.span 𝕜 {v | v ∈ vs}

/-- The vector at `i` is a combination of those before it. -/
def Depends (vs : List E) (i : ℕ) : Prop := ∃ v, vs[i]? = some v ∧ v ∈ listSpan 𝕜 (vs.take i)

noncomputable def firstDependent (vs : List E) : Option ℕ := firstIndex (Depends 𝕜 vs) vs.length

variable {𝕜} {vs ws : List E} {v : E} {i : ℕ}

theorem listSpan_mono (h : ∀ v ∈ vs, v ∈ ws) : listSpan 𝕜 vs ≤ listSpan 𝕜 ws :=
  Submodule.span_mono h

theorem mem_listSpan (h : v ∈ vs) : v ∈ listSpan 𝕜 vs := Submodule.subset_span h

theorem depends_append (vs : List E) (v : E) (ws : List E) :
    Depends 𝕜 (vs ++ v :: ws) vs.length ↔ v ∈ listSpan 𝕜 vs := by
  simp [Depends]

theorem listSpan_eraseIdx (h : Depends 𝕜 vs i) : listSpan 𝕜 (vs.eraseIdx i) = listSpan 𝕜 vs := by
  obtain ⟨v, hv, hmem⟩ := h
  apply le_antisymm
  · exact listSpan_mono (fun w hw => List.mem_of_mem_eraseIdx hw)
  · refine Submodule.span_le.mpr (fun w hw => ?_)
    obtain ⟨j, hj⟩ := List.mem_iff_getElem?.mp hw
    by_cases hij : j = i
    · subst hij
      obtain rfl := Option.some.inj (hj.symm.trans hv)
      refine listSpan_mono (fun u hu => ?_) hmem
      rw [List.eraseIdx_eq_take_drop_succ]
      exact List.mem_append_left _ hu
    · apply mem_listSpan
      rw [List.mem_eraseIdx_iff_getElem?]
      exact ⟨j, hij, hj⟩

theorem depends_map (f : E →ₗ[𝕜] F) (hf : Function.Injective f) :
    Depends 𝕜 (vs.map f) i ↔ Depends 𝕜 vs i := by
  have hspan : listSpan 𝕜 ((vs.take i).map f) = (listSpan 𝕜 (vs.take i)).map f := by
    rw [listSpan, listSpan, Submodule.map_span]
    congr 1
    ext w
    simp only [Set.mem_ofPred_eq, List.mem_map, Set.mem_image]
  have hmem : ∀ v, f v ∈ (listSpan 𝕜 (vs.take i)).map f ↔ v ∈ listSpan 𝕜 (vs.take i) := by
    intro v
    rw [Submodule.mem_map]
    constructor
    · rintro ⟨u, hu, heq⟩
      exact hf heq ▸ hu
    · exact fun hv => ⟨v, hv, rfl⟩
  simp only [Depends, List.getElem?_map, Option.map_eq_some_iff, ← List.map_take, hspan]
  constructor
  · rintro ⟨_, ⟨v, hv, rfl⟩, h⟩
    exact ⟨v, hv, (hmem v).mp h⟩
  · rintro ⟨v, hv, h⟩
    exact ⟨f v, ⟨v, hv, rfl⟩, (hmem v).mpr h⟩

theorem firstDependent_le (h : v ∈ listSpan 𝕜 vs) :
    ∃ i ≤ vs.length, firstDependent 𝕜 (vs ++ v :: ws) = some i := by
  have hdep := (depends_append vs v ws).mpr h
  cases hfirst : firstDependent 𝕜 (vs ++ v :: ws) with
  | none => exact absurd hdep (firstIndex_eq_none.mp hfirst _ (by simp))
  | some i =>
    obtain ⟨-, -, hbefore⟩ := firstIndex_eq_some.mp hfirst
    exact ⟨i, not_lt.mp (fun hlt => hbefore _ hlt hdep), rfl⟩

theorem firstDependent_lt (h : firstDependent 𝕜 vs = some i) : i < vs.length :=
  (firstIndex_eq_some.mp h).1

theorem firstDependent_depends (h : firstDependent 𝕜 vs = some i) : Depends 𝕜 vs i :=
  (firstIndex_eq_some.mp h).2.1

end Depends

section Triangular
variable {m n : ℕ} {A R : Matrix (Fin m) (Fin n) ℝ}

def columns (A : Matrix (Fin m) (Fin n) ℝ) : List (Fin m → ℝ) := List.ofFn (fun j i => A i j)

/-- `A = Q R` with `Q` orthogonal and `R` zero below its diagonal. -/
structure TriangularFactor (A R : Matrix (Fin m) (Fin n) ℝ) : Prop where
  upper : ∀ (i : Fin m) (j : Fin n), j.val < i.val → R i j = 0
  factor : ∃ Q ∈ Matrix.orthogonalGroup (Fin m) ℝ, A = Q * R

def ZeroDiag (R : Matrix (Fin m) (Fin n) ℝ) (i : ℕ) : Prop :=
  ∃ (hm : i < m) (hn : i < n), R ⟨i, hm⟩ ⟨i, hn⟩ = 0

theorem mem_span_columns (hupper : ∀ (i : Fin m) (j : Fin n), j.val < i.val → R i j = 0) {k : ℕ}
    (hkm : k ≤ m) (hkn : k ≤ n) (hdiag : ∀ j < k, ¬ ZeroDiag R j) {w : Fin m → ℝ}
    (hw : ∀ i : Fin m, k ≤ i.val → w i = 0) : w ∈ listSpan ℝ ((columns R).take k) := by
  induction k generalizing w with
  | zero =>
    obtain rfl : w = 0 := funext (fun i => hw i (Nat.zero_le _))
    exact Submodule.zero_mem _
  | succ k ih =>
    let c : Fin m → ℝ := fun i => R i ⟨k, hkn⟩
    have hne : c ⟨k, hkm⟩ ≠ 0 := fun h => hdiag k (by omega) ⟨hkm, hkn, h⟩
    have hc : (columns R)[k]? = some c := by
      simp [columns, c]
      omega
    have hrest : w - (w ⟨k, hkm⟩ / c ⟨k, hkm⟩) • c ∈ listSpan ℝ ((columns R).take k) := by
      refine ih (by omega) (by omega) (fun j hj => hdiag j (by omega)) (fun i hi => ?_)
      rcases hi.lt_or_eq with hlt | heq
      · have hci : c i = 0 := hupper i ⟨k, hkn⟩ hlt
        simp [hw i hlt, hci]
      · obtain rfl : i = ⟨k, hkm⟩ := Fin.ext heq.symm
        simp [div_mul_cancel₀ _ hne]
    have hmem : c ∈ listSpan ℝ ((columns R).take (k + 1)) :=
      mem_listSpan (List.mem_iff_getElem?.mpr ⟨k, by rw [List.getElem?_take_of_lt (by omega), hc]⟩)
    have hle : listSpan ℝ ((columns R).take k) ≤ listSpan ℝ ((columns R).take (k + 1)) :=
      listSpan_mono (fun v hv => (List.take_subset_take_left _ (Nat.le_succ k)) hv)
    have hsum := Submodule.add_mem _ (hle hrest)
      (Submodule.smul_mem _ (w ⟨k, hkm⟩ / c ⟨k, hkm⟩) hmem)
    rwa [sub_add_cancel] at hsum

/-- A zero on the diagonal shows the first dependent column. -/
theorem zeroDiag_iff (hupper : ∀ (i : Fin m) (j : Fin n), j.val < i.val → R i j = 0) {k : ℕ}
    (hkm : k < m) (hkn : k < n) (hdiag : ∀ j < k, ¬ ZeroDiag R j) :
    ZeroDiag R k ↔ Depends ℝ (columns R) k := by
  have hcol : (columns R)[k]? = some (fun i => R i ⟨k, hkn⟩) := by simp [columns, hkn]
  constructor
  · rintro ⟨_, _, hzero⟩
    refine ⟨_, hcol, mem_span_columns hupper hkm.le hkn.le hdiag (fun i hi => ?_)⟩
    rcases hi.lt_or_eq with hlt | heq
    · exact hupper i ⟨k, hkn⟩ hlt
    · obtain rfl : i = ⟨k, hkm⟩ := Fin.ext heq.symm
      exact hzero
  · rintro ⟨v, hv, hmem⟩
    obtain rfl := Option.some.inj (hcol.symm.trans hv)
    -- the columns before it have a zero in row `k`
    have hker : listSpan ℝ ((columns R).take k) ≤
        LinearMap.ker (LinearMap.proj ⟨k, hkm⟩ : (Fin m → ℝ) →ₗ[ℝ] ℝ) := by
      refine Submodule.span_le.mpr (fun w hw => ?_)
      obtain ⟨j, hj⟩ := List.mem_iff_getElem?.mp hw
      have hjk : j < k := by
        by_contra hge
        rw [List.getElem?_eq_none (by rw [List.length_take]; omega)] at hj
        cases hj
      rw [List.getElem?_take_of_lt hjk] at hj
      have hjn : (columns R)[j]? = some (fun i => R i ⟨j, by omega⟩) := by
        simp [columns, hjk.trans hkn]
      obtain rfl := Option.some.inj (hjn.symm.trans hj)
      exact hupper ⟨k, hkm⟩ ⟨j, by omega⟩ hjk
    exact ⟨hkm, hkn, hker hmem⟩

theorem columns_mul (Q : Matrix (Fin m) (Fin m) ℝ) (R : Matrix (Fin m) (Fin n) ℝ) :
    columns (Q * R) = (columns R).map (Matrix.mulVecLin Q) := by
  rw [columns, columns, List.map_ofFn]
  congr 1

/-- The first zero of the diagonal is the first column that depends on those before it. -/
theorem TriangularFactor.firstIndex_eq (h : TriangularFactor A R) (hmn : n ≤ m) :
    firstIndex (ZeroDiag R) n = firstDependent ℝ (columns A) := by
  obtain ⟨Q, hQ, hA⟩ := h.factor
  have hinj : Function.Injective (Matrix.mulVecLin Q) := by
    intro v w hvw
    have hmul := congrArg (Matrix.mulVec Q.transpose) hvw
    have hone := (Matrix.mem_orthogonalGroup_iff' _ _).mp hQ
    simpa [Matrix.mulVec_mulVec, hone] using hmul
  have hlen : (columns A).length = n := List.length_ofFn
  rw [firstDependent, hlen]
  refine firstIndex_congr (fun k hk hdiag => ?_)
  rw [zeroDiag_iff h.upper (by omega) hk hdiag, hA, columns_mul, depends_map _ hinj]

theorem exists_triangularFactor (A : Matrix (Fin m) (Fin n) ℝ) (hmn : n ≤ m) :
    ∃ R, TriangularFactor A R := by
  let f : Fin m → EuclideanSpace ℝ (Fin m) := fun j =>
    if h : j.val < n then WithLp.toLp 2 (fun i => A i ⟨j, h⟩) else 0
  let b : OrthonormalBasis (Fin m) ℝ (EuclideanSpace ℝ (Fin m)) :=
    InnerProductSpace.gramSchmidtOrthonormalBasis (by simp) f
  let Q : Matrix (Fin m) (Fin m) ℝ := Matrix.of (fun i k => b k i)
  let R : Matrix (Fin m) (Fin n) ℝ := Matrix.of (fun k j => inner ℝ (b k) (f ⟨j, by omega⟩))
  refine ⟨R, ?_, Q, ?_, ?_⟩
  · intro i j hij
    exact InnerProductSpace.gramSchmidtOrthonormalBasis_inv_triangular _ f (Fin.lt_def.mpr hij)
  · rw [Matrix.mem_orthogonalGroup_iff']
    ext k l
    have hinner := orthonormal_iff_ite.mp b.orthonormal k l
    rw [EuclideanSpace.inner_eq_star_dotProduct] at hinner
    rw [Matrix.mul_apply, Matrix.one_apply]
    exact (Finset.sum_congr rfl (fun j _ => mul_comm _ _)).trans hinner
  · ext i j
    have hsum := congrArg (fun v => v i) (b.sum_repr' (f ⟨j, by omega⟩))
    have hf : f ⟨j, by omega⟩ i = A i j := by simp [f]
    simp only [hf] at hsum
    rw [← hsum, Matrix.mul_apply, WithLp.ofLp_sum, Finset.sum_apply]
    exact Finset.sum_congr rfl (fun k _ => mul_comm _ _)

end Triangular
end XStore.Lib
