import XStore.Lib.Dependent
import XStore.Lib.RowMajor
import XStore.Xml.MvLR

/-! When the training of a linear model ends. The solver names the first dependent column; the
index of the last feature is taken for that of the bias. -/
namespace XStore.Xml
open XStore.Lib
variable {K : Type}

theorem mapM_eq_map {α β : Type} {f : α → Res β} {g : α → β} {as : List α}
    (h : ∀ a ∈ as, f a = .ok (g a)) : as.mapM f = .ok (as.map g) := by
  induction as with
  | nil => simp
  | cons a as ih =>
    have hrest := ih (fun b hb => h b (List.mem_cons_of_mem a hb))
    simp [h a (by simp), hrest]

def info : Option ℕ → ℤ
  | none => 0
  | some i => i + 1

noncomputable def asMatrix (m n : ℕ) (a : List ℚ) : Matrix (Fin m) (Fin n) ℝ :=
  Matrix.of (fun i j => ((a.getD (i * n + j) 0 : ℚ) : ℝ))

/-- The solver without rounding: the result tells the first zero on the diagonal of a triangular
factor, of the matrix or, if it has more columns than rows, of its transpose. -/
structure SolvesExactly (dgels : Dgels) : Prop where
  tall : ∀ m n a b, n ≤ m → ∃ R, TriangularFactor (asMatrix m n a) R ∧
    (dgels m n a b).1 = info (firstIndex (ZeroDiag R) n)
  wide : ∀ m n a b, m < n → ∃ R, TriangularFactor (asMatrix m n a).transpose R ∧
    (dgels m n a b).1 = info (firstIndex (ZeroDiag R) m)
  length_eq : ∀ m n a b, (dgels m n a b).2.length = b.length

namespace Columns

structure Valid (D : ℕ) (c : Columns) : Prop where
  lt : ∀ f ∈ c.usefulFeatureIdxs, f < D
  ne : c.usefulFeatureIdxs ≠ []

def next (c : Columns) : Option ℕ → Columns
  | none => c
  | some i => c.drop (i + 1)

def row (c : Columns) (feature : List ℚ) : List ℚ :=
  c.usefulFeatureIdxs.map (fun f => feature.getD f 0) ++ if c.useBias then [1] else []

theorem next_some (c : Columns) (i : ℕ) : c.next (some i) =
    if c.usefulFeatureIdxs.length ≤ i + 1 then { c with useBias := false }
    else { c with usefulFeatureIdxs := c.usefulFeatureIdxs.eraseIdx i } := by
  have hge : ((i + 1 : ℤ) ≥ c.usefulFeatureIdxs.length) ↔ c.usefulFeatureIdxs.length ≤ i + 1 := by
    omega
  have hidx : ((i : ℤ) + 1 - 1).toNat = i := by omega
  simp only [next, drop, hge, hidx]

theorem length_row (c : Columns) (feature : List ℚ) : (c.row feature).length = c.count := by
  cases h : c.useBias <;> simp [row, count, h]

theorem fillRow_ok {D : ℕ} {c : Columns} (hc : c.Valid D) {feature : List ℚ}
    (hlen : feature.length = D) : c.fillRow D feature = .ok (c.row feature) := by
  have hmap : c.usefulFeatureIdxs.mapM (fun i => need feature[i]? .outOfRange) =
      .ok (c.usefulFeatureIdxs.map (fun f => feature.getD f 0)) := by
    refine mapM_eq_map (fun f hf => ?_)
    have hlt : f < feature.length := hlen ▸ hc.lt f hf
    simp [hlt]
  simp [fillRow, hlen, hmap, row]

/-- The selected features never run out. -/
theorem Valid.next {D : ℕ} {c : Columns} (hc : c.Valid D) (o : Option ℕ) : (c.next o).Valid D := by
  cases o with
  | none => exact hc
  | some i =>
    rw [next_some]
    split
    · exact ⟨hc.lt, hc.ne⟩
    · next hlt =>
      refine ⟨fun f hf => hc.lt f (List.mem_of_mem_eraseIdx hf), fun hnil => ?_⟩
      have hlen := congrArg List.length hnil
      rw [List.length_eraseIdx_of_lt (by omega), List.length_nil] at hlen
      omega

theorem count_next_le (c : Columns) (o : Option ℕ) : (c.next o).count ≤ c.count := by
  cases o with
  | none => exact le_rfl
  | some i =>
    rw [next_some]
    split
    · simp [count]
    · have hlen := List.length_eraseIdx_le c.usefulFeatureIdxs i
      simp only [count]
      omega

end Columns

namespace MvLR

theorem resetW_ok {D : ℕ} {c : Columns} (hc : c.Valid D) {b : List ℚ} (hb : c.count ≤ b.length) :
    ∃ w, resetW D c b = .ok w := by
  have hfold : ∀ (fs : List ℕ) (i : ℕ) (w : List ℚ), (∀ f ∈ fs, f < D) →
      i + fs.length ≤ b.length → ∃ w', (fs.zipIdx i).foldlM (fun (w : List ℚ) fi => do
        ensure (decide (fi.1 < D)) .featureIdx
        let x ← need b[fi.2]? .outOfRange
        pure (w.set fi.1 x)) w = .ok w' := by
    intro fs
    induction fs with
    | nil => exact fun _ w _ _ => ⟨w, rfl⟩
    | cons f fs ih =>
      intro i w hlt hlen
      rw [List.length_cons] at hlen
      have hi : i < b.length := by omega
      obtain ⟨w', hw'⟩ := ih (i + 1) (w.set f b[i]) (fun g hg => hlt g (List.mem_cons_of_mem f hg))
        (by omega)
      exact ⟨w', by simpa [hlt f (by simp), hi] using hw'⟩
  obtain ⟨w, hw⟩ := hfold c.usefulFeatureIdxs 0 (List.replicate (D + 1) 0) hc.lt (by
    simp only [Columns.count] at hb
    omega)
  unfold resetW
  rw [hw, ok_bind]
  cases hbias : c.useBias with
  | false => exact ⟨w, rfl⟩
  | true =>
    have hlt : c.usefulFeatureIdxs.length < b.length := by
      simp only [Columns.count, hbias, if_true] at hb
      omega
    exact ⟨w.set D b[c.usefulFeatureIdxs.length], by simp [hlt]⟩

theorem settle_ok {D : ℕ} {c : Columns} (hc : c.Valid D) {b : List ℚ} (hb : c.count ≤ b.length)
    (o : Option ℕ) : ∃ w, settle D c (info o) b = .ok (info o, c.next o, w) := by
  have hnext : (if info o > 0 then c.drop (info o) else c) = c.next o := by
    cases o with
    | none => rfl
    | some i =>
      have hpos : info (some i) > 0 := by
        simp only [info]
        omega
      rw [if_pos hpos]
      rfl
  have hvalid := hc.next o
  have hleft : (c.next o).usefulFeatureIdxs.length ≠ 0 := fun hlen =>
    hvalid.ne (List.length_eq_zero_iff.mp hlen)
  have hsolved : ¬ info o < 0 := by
    cases o with
    | none => simp [info]
    | some i =>
      simp only [info]
      omega
  obtain ⟨w, hw⟩ := resetW_ok hvalid ((c.count_next_le o).trans hb)
  refine ⟨w, ?_⟩
  simp only [settle, hnext, beq_eq_false_iff_ne.mpr hleft, hw, ok_bind, hsolved]
  simp

end MvLR

section Round
variable [ToFeature K] (trainData : List K)

noncomputable def feature (f : ℕ) : Fin trainData.length → ℝ := fun i =>
  (((ToFeature.toFeature (trainData.get i)).getD f 0 : ℚ) : ℝ)

noncomputable def Columns.vectors (c : Columns) : List (Fin trainData.length → ℝ) :=
  c.usefulFeatureIdxs.map (feature trainData) ++ if c.useBias then [fun _ => 1] else []

noncomputable def Columns.keyRow (c : Columns) (i : Fin trainData.length) : Fin c.count → ℝ :=
  fun j => (((c.row (ToFeature.toFeature (trainData.get i))).getD j 0 : ℚ) : ℝ)

/-- The first dependent column or, if there are more columns than keys, the first dependent
row. -/
noncomputable def Columns.report (c : Columns) : Option ℕ :=
  if c.count ≤ trainData.length then firstDependent ℝ (c.vectors trainData)
  else firstDependent ℝ (List.ofFn (c.keyRow trainData))

theorem Columns.length_vectors (c : Columns) : (c.vectors trainData).length = c.count := by
  cases h : c.useBias <;> simp [vectors, count, h]

theorem Columns.vectors_getElem? (c : Columns) (j : Fin c.count) :
    (c.vectors trainData)[j.val]? = some (fun i => c.keyRow trainData i j) := by
  obtain ⟨j, hj⟩ := j
  by_cases hlt : j < c.usefulFeatureIdxs.length
  · simp [vectors, keyRow, row, List.getElem?_append_left, hlt]
    rfl
  · have hbias : c.useBias = true ∧ j = c.usefulFeatureIdxs.length := by
      cases h : c.useBias with
      | false =>
        simp only [count, h] at hj
        exact absurd hj hlt
      | true =>
        simp only [count, h, if_true] at hj
        exact ⟨rfl, by omega⟩
    obtain ⟨hbias, rfl⟩ := hbias
    simp [vectors, keyRow, row, hbias]

variable {trainData}

theorem Columns.asMatrix_rows (c : Columns) (i : Fin trainData.length) (j : Fin c.count) :
    asMatrix trainData.length c.count
      (trainData.map (fun k => c.row (ToFeature.toFeature k))).flatten i j =
        c.keyRow trainData i j := by
  have hrows : ∀ r ∈ trainData.map (fun k => c.row (ToFeature.toFeature k)),
      r.length = c.count := by
    intro r hr
    obtain ⟨k, -, rfl⟩ := List.mem_map.mp hr
    exact c.length_row _
  have hget := getElem?_flatten hrows (i := i.val) j.isLt
  simp only [asMatrix, Matrix.of_apply, keyRow, List.getD_eq_getElem?_getD, hget]
  simp

theorem Columns.columns_asMatrix (c : Columns) :
    columns (asMatrix trainData.length c.count
      (trainData.map (fun k => c.row (ToFeature.toFeature k))).flatten) =
        c.vectors trainData := by
  apply List.ext_getElem?
  intro j
  by_cases hj : j < c.count
  · rw [c.vectors_getElem? trainData ⟨j, hj⟩]
    simp [columns, hj, c.asMatrix_rows]
  · rw [List.getElem?_eq_none, List.getElem?_eq_none]
    · rw [c.length_vectors]
      omega
    · simp only [columns, List.length_ofFn]
      omega

theorem Columns.columns_transpose (c : Columns) :
    columns (asMatrix trainData.length c.count
      (trainData.map (fun k => c.row (ToFeature.toFeature k))).flatten).transpose =
        List.ofFn (c.keyRow trainData) := by
  simp only [columns, Matrix.transpose_apply, c.asMatrix_rows]

theorem SolvesExactly.report {dgels : Dgels} (h : SolvesExactly dgels) (c : Columns)
    (b : List ℚ) :
    (dgels trainData.length c.count
      (trainData.map (fun k => c.row (ToFeature.toFeature k))).flatten b).1 =
        info (c.report trainData) := by
  unfold Columns.report
  split
  · next hle =>
    obtain ⟨R, hR, hres⟩ := h.tall trainData.length c.count _ b hle
    rw [hres, hR.firstIndex_eq hle, c.columns_asMatrix]
  · next hgt =>
    obtain ⟨R, hR, hres⟩ := h.wide trainData.length c.count _ b (not_le.mp hgt)
    rw [hres, hR.firstIndex_eq (not_le.mp hgt).le, c.columns_transpose]

variable {dgels : Dgels} {D : ℕ} {trainLabel : List ℕ} {c : Columns}

structure WellSized (D : ℕ) (trainData : List K) (trainLabel : List ℕ) : Prop where
  feature : ∀ k ∈ trainData, (ToFeature.toFeature k).length = D
  label : trainLabel.length = trainData.length

theorem MvLR.filled_eq (hsize : WellSized D trainData trainLabel) (hc : c.Valid D) :
    trainData.zipIdx.mapM (fun ki => do
      let row ← c.fillRow D (ToFeature.toFeature ki.1)
      let label : ℕ ← need trainLabel[ki.2]? .outOfRange
      pure (row, (label : ℚ))) =
    .ok (trainData.zipIdx.map (fun ki =>
      (c.row (ToFeature.toFeature ki.1), ((trainLabel.getD ki.2 0 : ℕ) : ℚ)))) := by
  refine mapM_eq_map (fun ki hki => ?_)
  have hkey := hsize.feature ki.1 (List.fst_mem_of_mem_zipIdx hki)
  have hidx : ki.2 < trainLabel.length := by
    have := List.snd_lt_of_mem_zipIdx hki
    have := hsize.label
    omega
  simp [Columns.fillRow_ok hc hkey, hidx]

theorem MvLR.trainRound_eq (h : SolvesExactly dgels) (hsize : WellSized D trainData trainLabel)
    (hc : c.Valid D) : ∃ w, trainRound dgels D trainData trainLabel c =
      .ok (info (c.report trainData), c.next (c.report trainData), w) := by
  have hrows : trainData.zipIdx.map (Prod.fst ∘ fun ki : K × ℕ =>
      (c.row (ToFeature.toFeature ki.1), ((trainLabel.getD ki.2 0 : ℕ) : ℚ))) =
      trainData.map (fun k => c.row (ToFeature.toFeature k)) := by
    conv_rhs => rw [← List.zipIdx_map_fst 0 trainData, List.map_map]
    rfl
  simp only [trainRound, filled_eq hsize hc, ok_bind, List.map_map, hrows, h.report]
  refine settle_ok hc ?_ _
  rw [h.length_eq]
  simp
  omega

end Round

/-- The columns in the middle of a run over `m` keys: the last feature stays. -/
structure Columns.At (m last : ℕ) (c : Columns) (fs : List ℕ) : Prop where
  features : c.usefulFeatureIdxs = fs ++ [last]
  tall : c.useBias = false → c.count ≤ m

namespace Columns.At
variable {m last i : ℕ} {c : Columns} {fs : List ℕ}

theorem count_eq (h : c.At m last fs) :
    c.count = fs.length + 1 + if c.useBias then 1 else 0 := by
  simp [count, h.features]

theorem erase (h : c.At m last fs) (hi : i < fs.length) :
    (c.next (some i)).At m last (fs.eraseIdx i) ∧
      (c.next (some i)).useBias = c.useBias ∧ (c.next (some i)).count < c.count := by
  have hlen : c.usefulFeatureIdxs.length = fs.length + 1 := by simp [h.features]
  have hnext : c.next (some i) =
      { c with usefulFeatureIdxs := fs.eraseIdx i ++ [last] } := by
    rw [next_some, if_neg (by omega), h.features, List.eraseIdx_append_of_lt_length hi]
  have hcount : (c.next (some i)).count + 1 = c.count := by
    have herase := List.length_eraseIdx_of_lt hi
    rw [h.count_eq, hnext]
    simp only [count, List.length_append, List.length_singleton, herase]
    omega
  refine ⟨⟨by rw [hnext], fun hbias => ?_⟩, by rw [hnext], by omega⟩
  have htall := h.tall (by rw [hnext] at hbias; exact hbias)
  omega

theorem dropBias (h : c.At m last fs) (hi : fs.length ≤ i) (hle : fs.length + 1 ≤ m) :
    (c.next (some i)).At m last fs ∧ (c.next (some i)).useBias = false ∧
      (c.useBias = true → (c.next (some i)).count < c.count) := by
  have hlen : c.usefulFeatureIdxs.length = fs.length + 1 := by simp [h.features]
  have hnext : c.next (some i) = { c with useBias := false } := by
    rw [next_some, if_pos (by omega)]
  refine ⟨⟨by rw [hnext, h.features], fun _ => ?_⟩, by rw [hnext], fun hbias => ?_⟩
  · simp [hnext, count, h.features, hle]
  · simp [hnext, count, hbias]

end Columns.At

section Fate
variable [ToFeature K] (trainData : List K) (last : ℕ)

/-- The column of the last feature is no combination of the others. -/
def LastFree (fs : List ℕ) : Prop :=
  feature trainData last ∉ listSpan ℝ (fs.map (feature trainData))

/-- Whether the features `fs` and, behind them, `last` can be trained. As long as there are more
columns than keys (for at most so many rounds), the solver names the first key whose row is a
combination of those before it, and the feature at that position goes. -/
def Solvable : ℕ → List ℕ → Prop
  | 0, fs => LastFree trainData last fs
  | n + 1, fs =>
    match firstDependent ℝ (List.ofFn (Columns.keyRow trainData ⟨fs ++ [last], true⟩)) with
    | none => True
    | some i => if i < fs.length then Solvable n (fs.eraseIdx i) else LastFree trainData last fs

/-- What becomes of the columns in the middle of a run. -/
def Columns.Fate (c : Columns) (fs : List ℕ) : Prop :=
  if c.useBias then Solvable trainData last (fs.length + 2 - trainData.length) fs
  else LastFree trainData last fs

variable {trainData last} {c : Columns} {fs : List ℕ}

theorem Columns.At.fate_tall (h : c.At trainData.length last fs)
    (htall : c.count ≤ trainData.length) :
    c.Fate trainData last fs ↔ LastFree trainData last fs := by
  cases hbias : c.useBias with
  | false => simp [Fate, hbias]
  | true =>
    have hcount := h.count_eq
    simp only [hbias, if_true] at hcount
    have hsteps : fs.length + 2 - trainData.length = 0 := by omega
    simp [Fate, hbias, hsteps, Solvable]

/-- A feature that is a combination of those before it does not count. -/
theorem lastFree_eraseIdx {i : ℕ} (h : Depends ℝ (fs.map (feature trainData)) i) :
    LastFree trainData last (fs.eraseIdx i) ↔ LastFree trainData last fs := by
  rw [LastFree, LastFree, ← List.eraseIdx_map, listSpan_eraseIdx h]

theorem Columns.At.step_tall (h : c.At trainData.length last fs)
    (htall : c.count ≤ trainData.length) :
    (c.report trainData = none ∧ c.Fate trainData last fs) ∨
    ∃ i fs', c.report trainData = some i ∧ (c.next (some i)).At trainData.length last fs' ∧
      ((c.next (some i)).Fate trainData last fs' ↔ c.Fate trainData last fs) ∧
      (c.Fate trainData last fs → (c.next (some i)).count < c.count) := by
  have hcount := h.count_eq
  have hreport : c.report trainData = firstDependent ℝ (fs.map (feature trainData) ++
      feature trainData last :: if c.useBias then [fun _ => 1] else []) := by
    simp [report, htall, vectors, h.features]
  have hlen : (fs.map (feature trainData)).length = fs.length := List.length_map _
  rw [h.fate_tall htall]
  cases hr : c.report trainData with
  | none =>
    refine Or.inl ⟨rfl, fun hmem => ?_⟩
    obtain ⟨i, -, hi⟩ := firstDependent_le hmem
    rw [hreport, hi] at hr
    cases hr
  | some i =>
    right
    have hdep := firstDependent_depends (hreport.symm.trans hr)
    have htall' : (c.next (some i)).count ≤ trainData.length := (c.count_next_le _).trans htall
    by_cases hi : i < fs.length
    · obtain ⟨hat, -, hlt⟩ := h.erase hi
      refine ⟨i, _, rfl, hat, ?_, fun _ => hlt⟩
      rw [hat.fate_tall htall']
      refine lastFree_eraseIdx ?_
      obtain ⟨v, hv, hmem⟩ := hdep
      rw [List.getElem?_append_left (by omega)] at hv
      rw [List.take_append_of_le_length (by omega)] at hmem
      exact ⟨v, hv, hmem⟩
    · obtain ⟨hat, -, hlt⟩ := h.dropBias (not_lt.mp hi) (by omega)
      refine ⟨i, fs, rfl, hat, hat.fate_tall htall', fun hfree => hlt ?_⟩
      -- without a bias only the last feature is left to depend on the others
      by_contra hbias
      have hib : i < fs.length + 1 := by
        have := firstDependent_lt (hreport.symm.trans hr)
        simpa [hbias] using this
      obtain rfl : i = fs.length := by omega
      rw [← hlen, depends_append] at hdep
      exact hfree hdep

theorem Columns.At.step_wide (h : c.At trainData.length last fs)
    (hwide : trainData.length < c.count) :
    (c.report trainData = none ∧ c.Fate trainData last fs) ∨
    ∃ i fs', c.report trainData = some i ∧ (c.next (some i)).At trainData.length last fs' ∧
      ((c.next (some i)).Fate trainData last fs' ↔ c.Fate trainData last fs) ∧
      (c.Fate trainData last fs → (c.next (some i)).count < c.count) := by
  have hbias : c.useBias = true := by
    by_contra hnot
    have := h.tall (by simpa using hnot)
    omega
  have hcount := h.count_eq
  simp only [hbias, if_true] at hcount
  have hc : c = ⟨fs ++ [last], true⟩ := by rw [← h.features, ← hbias]
  have hreport : c.report trainData =
      firstDependent ℝ (List.ofFn (keyRow trainData ⟨fs ++ [last], true⟩)) := by
    rw [report, if_neg (not_le.mpr hwide), ← hc]
  obtain ⟨n, hn⟩ : ∃ n, fs.length + 2 - trainData.length = n + 1 :=
    ⟨fs.length + 1 - trainData.length, by omega⟩
  have hfate : c.Fate trainData last fs ↔ Solvable trainData last (n + 1) fs := by
    simp [Fate, hbias, hn]
  rw [hfate, Solvable, ← hreport]
  cases hr : c.report trainData with
  | none => exact Or.inl ⟨rfl, trivial⟩
  | some i =>
    right
    have hi : i < trainData.length := by
      have := firstDependent_lt (hreport.symm.trans hr)
      simpa using this
    by_cases hif : i < fs.length
    · obtain ⟨hat, hkeep, hlt⟩ := h.erase hif
      refine ⟨i, _, rfl, hat, ?_, fun _ => hlt⟩
      have hsteps : (fs.eraseIdx i).length + 2 - trainData.length = n := by
        rw [List.length_eraseIdx_of_lt hif]
        omega
      simp [Fate, hkeep, hbias, hsteps, hif]
    · obtain ⟨hat, hoff, hlt⟩ := h.dropBias (not_lt.mp hif) (by omega)
      refine ⟨i, fs, rfl, hat, ?_, fun _ => hlt hbias⟩
      simp [Fate, hoff, hif]

/-- A round keeps the fate of the columns. -/
theorem Columns.At.step (h : c.At trainData.length last fs) :
    (c.report trainData = none ∧ c.Fate trainData last fs) ∨
    ∃ i fs', c.report trainData = some i ∧ (c.next (some i)).At trainData.length last fs' ∧
      ((c.next (some i)).Fate trainData last fs' ↔ c.Fate trainData last fs) ∧
      (c.Fate trainData last fs → (c.next (some i)).count < c.count) := by
  cases le_or_gt c.count trainData.length with
  | inl htall => exact h.step_tall htall
  | inr hwide => exact h.step_wide hwide

end Fate

section Train
variable [ToFeature K] {dgels : Dgels} {D last : ℕ} {trainData : List K} {trainLabel : List ℕ}
  {c : Columns} {fs : List ℕ}

theorem MvLR.trainLoop_succ (h : SolvesExactly dgels) (hsize : WellSized D trainData trainLabel)
    (hc : c.Valid D) (fuel : ℕ) :
    ∃ w, trainLoop dgels D trainData trainLabel (fuel + 1) c =
      match c.report trainData with
      | none => .ok w
      | some i => trainLoop dgels D trainData trainLabel fuel (c.next (some i)) := by
  obtain ⟨w, hw⟩ := trainRound_eq h hsize hc
  refine ⟨w, ?_⟩
  rw [trainLoop, hw, ok_bind]
  cases c.report trainData with
  | none => rfl
  | some i =>
    have hne : info (some i) ≠ 0 := by
      simp only [info]
      omega
    simp only [hne, ne_eq, not_false_eq_true, if_true]

theorem MvLR.trainLoop_ends (h : SolvesExactly dgels) (hsize : WellSized D trainData trainLabel)
    (hc : c.Valid D) (hat : c.At trainData.length last fs) (hfate : c.Fate trainData last fs) :
    ∃ fuel w, trainLoop dgels D trainData trainLabel fuel c = .ok w := by
  induction hcount : c.count using Nat.strong_induction_on generalizing c fs with
  | _ n ih =>
    cases hat.step with
    | inl hdone =>
      obtain ⟨w, hw⟩ := trainLoop_succ h hsize hc 0
      exact ⟨1, w, by rw [hw, hdone.1]⟩
    | inr hnext =>
      obtain ⟨i, fs', hr, hat', hiff, hlt⟩ := hnext
      obtain ⟨fuel, w, hrun⟩ := ih _ (hcount ▸ hlt hfate) (hc.next _) hat' (hiff.mpr hfate) rfl
      obtain ⟨w', hw'⟩ := trainLoop_succ h hsize hc fuel
      exact ⟨fuel + 1, w, by rw [hw', hr, ← hrun]⟩

/-- Without that fate the loop never ends. -/
theorem MvLR.trainLoop_runs_on (h : SolvesExactly dgels)
    (hsize : WellSized D trainData trainLabel) (hc : c.Valid D)
    (hat : c.At trainData.length last fs) (hfate : ¬ c.Fate trainData last fs) (fuel : ℕ) :
    trainLoop dgels D trainData trainLabel fuel c = .error .outOfFuel := by
  induction fuel generalizing c fs with
  | zero => rfl
  | succ fuel ih =>
    cases hat.step with
    | inl hdone => exact absurd hdone.2 hfate
    | inr hnext =>
      obtain ⟨i, fs', hr, hat', hiff, -⟩ := hnext
      obtain ⟨w, hw⟩ := trainLoop_succ h hsize hc fuel
      rw [hw, hr]
      exact ih (hc.next _) hat' (fun hfate' => hfate (hiff.mp hfate'))

/-- A round that does not end the loop leads from one set of columns to the next. -/
def MvLR.Goes (dgels : Dgels) (D : ℕ) (trainData : List K) (trainLabel : List ℕ)
    (c c' : Columns) : Prop :=
  ∃ res w, trainRound dgels D trainData trainLabel c = .ok (res, c', w) ∧ res ≠ 0

theorem MvLR.Goes.step (h : SolvesExactly dgels) (hsize : WellSized D trainData trainLabel)
    (hc : c.Valid D) (hat : c.At trainData.length last fs) (hfate : c.Fate trainData last fs)
    {c' : Columns} (hgo : Goes dgels D trainData trainLabel c c') :
    c'.Valid D ∧ (∃ fs', c'.At trainData.length last fs' ∧ c'.Fate trainData last fs') ∧
      c'.count < c.count := by
  obtain ⟨res, w, hround, hne⟩ := hgo
  obtain ⟨w', hround'⟩ := trainRound_eq h hsize hc
  rw [hround'] at hround
  obtain ⟨rfl, hrest⟩ := Prod.mk.inj (Except.ok.inj hround)
  obtain ⟨rfl, -⟩ := Prod.mk.inj hrest
  cases hat.step with
  | inl hdone =>
    rw [hdone.1] at hne
    exact absurd rfl hne
  | inr hnext =>
    obtain ⟨i, fs', hr, hat', hiff, hlt⟩ := hnext
    rw [hr]
    exact ⟨hc.next _, ⟨fs', hat', hiff.mpr hfate⟩, hlt hfate⟩

theorem MvLR.Goes.run (h : SolvesExactly dgels) (hsize : WellSized D trainData trainLabel)
    (hc : c.Valid D) (hat : c.At trainData.length last fs) (hfate : c.Fate trainData last fs)
    {c' : Columns} (hreach : Relation.ReflTransGen (Goes dgels D trainData trainLabel) c c') :
    c'.Valid D ∧ ∃ fs', c'.At trainData.length last fs' ∧ c'.Fate trainData last fs' := by
  induction hreach with
  | refl => exact ⟨hc, fs, hat, hfate⟩
  | tail _ hgo ih =>
    obtain ⟨hb, fs', hbat, hbfate⟩ := ih
    obtain ⟨hvalid, hnext, -⟩ := hgo.step h hsize hb hbat hbfate
    exact ⟨hvalid, hnext⟩

theorem MvLR.initColumns_at (trainData : List K) (hD : 1 ≤ D) : (initColumns D).Valid D ∧
    (initColumns D).At trainData.length (D - 1) (List.range (D - 1)) ∧
      ((initColumns D).Fate trainData (D - 1) (List.range (D - 1)) ↔
        Solvable trainData (D - 1) (D + 1 - trainData.length) (List.range (D - 1))) := by
  obtain ⟨n, rfl⟩ := Nat.exists_eq_add_of_le hD
  have hrange : List.range (1 + n) = List.range n ++ [n] := by
    rw [Nat.add_comm, List.range_succ]
  have hn : 1 + n - 1 = n := by omega
  refine ⟨⟨fun f hf => by simpa [initColumns] using hf, by simp [initColumns, hrange]⟩, ?_, ?_⟩
  · rw [hn]
    exact ⟨hrange, fun hbias => by simp [initColumns] at hbias⟩
  · have hsteps : n + 2 - trainData.length = 1 + n + 1 - trainData.length := by omega
    simp [Columns.Fate, initColumns, hn, hsteps]

end Train

noncomputable def leastSquares (m n : ℕ) (a b : List ℚ) : Fin n → ℚ :=
  let A : Matrix (Fin m) (Fin n) ℚ := Matrix.of (fun i j => a.getD (i * n + j) 0)
  let y : Fin m → ℚ := fun i => b.getD i 0
  if n ≤ m then ((A.transpose * A)⁻¹ * A.transpose).mulVec y
  else (A.transpose * (A * A.transpose)⁻¹).mulVec y

noncomputable def exactDgels : Dgels := fun m n a b =>
  (info (if n ≤ m then firstDependent ℝ (columns (asMatrix m n a))
    else firstDependent ℝ (columns (asMatrix m n a).transpose)),
    b.zipIdx.map (fun yi => if h : yi.2 < n then leastSquares m n a b ⟨yi.2, h⟩ else yi.1))

theorem exactDgels_solves : SolvesExactly exactDgels where
  tall m n a b hle := by
    obtain ⟨R, hR⟩ := exists_triangularFactor (asMatrix m n a) hle
    exact ⟨R, hR, by rw [hR.firstIndex_eq hle, exactDgels, if_pos hle]⟩
  wide m n a b hlt := by
    obtain ⟨R, hR⟩ := exists_triangularFactor (asMatrix m n a).transpose hlt.le
    exact ⟨R, hR, by rw [hR.firstIndex_eq hlt.le, exactDgels, if_neg (not_le.mpr hlt)]⟩
  length_eq m n a b := by simp [exactDgels]

structure PairKey where
  fst : ℕ
  snd : ℕ
  deriving DecidableEq, Repr

instance : ToFeature PairKey where
  toFeature k := [k.fst, k.snd]

end XStore.Xml
