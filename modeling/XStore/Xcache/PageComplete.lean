import XStore.Xcache.Complete
import XStore.Xcache.PageSampling
import Mathlib.Algebra.Order.Ring.Rat
import Mathlib.Data.Rat.Floor

/-! Completeness of training on both ends of every page: a monotone model locates the keys in
between as well. -/
namespace XStore.Xcache
open XStore.Lib XStore.Xkv XStore.Xml
variable {N : ℕ} {K V M M₁ M₂ SS : Type} [LinearOrder K]

theorem tdiv_mono_cross {a b : ℤ} {c d : ℕ} (hc : 0 < c) (hd : 0 < d)
    (h : a * d ≤ b * c) : a.tdiv c ≤ b.tdiv d := by
  -- without a sign the quotient is the floor
  have hpos : ∀ {a b : ℤ} {c d : ℕ}, 0 < c → 0 < d → 0 ≤ a → 0 ≤ b → a * d ≤ b * c →
      a.tdiv c ≤ b.tdiv d := by
    intro a b c d hc hd ha hb h
    rw [Int.tdiv_eq_ediv_of_nonneg ha, Int.tdiv_eq_ediv_of_nonneg hb,
      Int.le_ediv_iff_mul_le (by omega)]
    refine le_of_mul_le_mul_right ?_ (Int.natCast_pos.mpr hc)
    calc a / c * d * c = a / c * c * d := by ring
      _ ≤ a * d := mul_le_mul_of_nonneg_right (Int.ediv_mul_le a (by omega)) (by omega)
      _ ≤ b * c := h
  cases le_or_gt 0 a with
  | inl ha =>
    have hb : 0 ≤ b := by
      by_contra hb
      have hneg := mul_neg_of_neg_of_pos (not_le.mp hb) (Int.natCast_pos.mpr hc)
      have hnonneg := mul_nonneg ha (Int.natCast_nonneg d)
      omega
    exact hpos hc hd ha hb h
  | inr ha =>
    cases le_or_gt 0 b with
    | inl hb =>
      have hleft := Int.tdiv_nonneg (neg_nonneg.mpr ha.le) (Int.natCast_nonneg c)
      have hright := Int.tdiv_nonneg hb (Int.natCast_nonneg d)
      rw [Int.neg_tdiv] at hleft
      omega
    | inr hb =>
      have hflip := hpos hd hc (neg_nonneg.mpr hb.le) (neg_nonneg.mpr ha.le) (by linarith)
      rw [Int.neg_tdiv, Int.neg_tdiv] at hflip
      omega

theorem truncate_mono {x y : ℚ} (h : x ≤ y) : truncate x ≤ truncate y :=
  tdiv_mono_cross x.pos y.pos ((Rat.le_iff x y).mp h)

section Convert
variable [MlTrait M K] {s : XSubModel M}

omit [LinearOrder K] in
/-- A prediction beyond every int converts to the smallest one and clamps to 0. -/
theorem getPointPredict_beyond {k : K} (h : 2 ^ 31 ≤ truncate (MlTrait.predict s.ml k)) :
    s.getPointPredict k = 0 := by
  have hout : ¬ (-2 ^ 31 ≤ truncate (MlTrait.predict s.ml k) ∧
      truncate (MlTrait.predict s.ml k) < 2 ^ 31) := by omega
  have hmin := le_toInt32 (s.max - 1)
  simp only [XSubModel.getPointPredict, doubleToInt, if_neg hout]
  omega

theorem getPointPredict_mono (hmono : Monotone (fun k : K => MlTrait.predict s.ml k)) {a b : K}
    (hab : a ≤ b) (hfit : truncate (MlTrait.predict s.ml b) < 2 ^ 31) :
    s.getPointPredict a ≤ s.getPointPredict b := by
  have hle : truncate (MlTrait.predict s.ml a) ≤ truncate (MlTrait.predict s.ml b) :=
    truncate_mono (hmono hab)
  simp only [XSubModel.getPointPredict, doubleToInt]
  split <;> split <;> omega

end Convert

section Blocks
variable [BoundedOrder K] [StdSort] {m : Mem N K V} {pages : List Ptr} {e : K}

def block (m : Mem N K V) (t : ℕ) (p : Ptr) : List (K × ℕ) :=
  (places XTreeSIter.load m p).map (fun x => (x.2.2, t * N + x.2.1))

theorem labelled_blocks (m : Mem N K V) (t : ℕ) (ps : List Ptr) :
    labelled m t ps = (ps.mapIdx (fun j p => block m (t + j) p)).flatten := by
  induction ps generalizing t with
  | nil => rfl
  | cons p ps ih =>
    rw [List.mapIdx_cons, List.flatten_cons, labelled, ih, Nat.add_zero]
    simp only [block, Nat.add_assoc, Nat.add_comm 1, Nat.add_zero]

def seenBlocks (m : Mem N K V) (pages : List Ptr) (e : K) : List (List (K × ℕ)) :=
  cutBlocks (fun x => decide (x.1 ≤ e)) (pages.mapIdx (fun j p => block m j p))

theorem flatten_seenBlocks : (seenBlocks m pages e).flatten = seen m pages e := by
  rw [seenBlocks, flatten_cutBlocks, seen, labelled_blocks]
  simp only [Nat.zero_add]

theorem block_page (h : Chain m pages) {j : ℕ} {p : Ptr} (hp : pages[j]? = some p) :
    PageBlock N j (block m j p) := by
  obtain ⟨before, after, rfl⟩ := List.append_of_mem (List.mem_of_getElem? hp)
  have hsorted := labelled_sorted (h.of_append before) j
  rw [labelled] at hsorted
  refine ⟨?_, ?_, (List.pairwise_append.mp hsorted).1⟩
  · simpa [block] using places_ne_nil XTreeSIter.arranges (h.occupied p (by simp))
  · intro x hx
    obtain ⟨y, hy, rfl⟩ := List.mem_map.mp hx
    have hlt := (mem_places hy).2.1
    rw [Nat.mul_comm, Nat.mul_add_div (by omega), Nat.div_eq_of_lt hlt, Nat.add_zero]

theorem seenBlocks_getElem? (h : Chain m pages) {j : ℕ} {c : List (K × ℕ)}
    (hc : (seenBlocks m pages e)[j]? = some c) : ∃ p, pages[j]? = some p ∧ c <+: block m j p ∧
      c ≠ [] ∧ (j + 1 < (seenBlocks m pages e).length → c = block m j p) := by
  obtain ⟨b, hb, hpre, hne, hwhole⟩ := cutBlocks_getElem? (by
    intro b hb
    obtain ⟨j, hj⟩ := List.getElem?_of_mem hb
    rw [List.getElem?_mapIdx] at hj
    obtain ⟨p, hp, rfl⟩ := Option.map_eq_some_iff.mp hj
    exact (block_page h hp).ne) hc
  rw [List.getElem?_mapIdx] at hb
  obtain ⟨p, hp, rfl⟩ := Option.map_eq_some_iff.mp hb
  exact ⟨p, hp, hpre, hne, hwhole⟩

theorem seenBlocks_page (h : Chain m pages) {j : ℕ} {c : List (K × ℕ)}
    (hc : (seenBlocks m pages e)[j]? = some c) : PageBlock N j c := by
  obtain ⟨p, hp, hpre, hne, -⟩ := seenBlocks_getElem? h hc
  have hblock := block_page h hp
  exact ⟨hne, fun x hx => hblock.page x (hpre.mem hx), hblock.sorted.sublist hpre.sublist⟩

/-- Every page but the last one is seen as a whole. -/
theorem seenBlocks_long (h : Chain m pages)
    (hhalf : 1 < pages.length → ∀ p ∈ pages, N / 2 ≤ (m p).entries.card) {j : ℕ}
    {c : List (K × ℕ)} (hc : (seenBlocks m pages e)[j]? = some c)
    (hj : j + 1 < (seenBlocks m pages e).length) : N / 2 ≤ c.length := by
  obtain ⟨p, hp, -, -, hwhole⟩ := seenBlocks_getElem? h hc
  obtain ⟨q, hq, -⟩ := seenBlocks_getElem? h (List.getElem?_eq_getElem hj)
  have hlen := (List.getElem?_eq_some_iff.mp hq).1
  rw [hwhole hj, block, List.length_map, length_places XTreeSIter.arranges]
  exact hhalf (by omega) p (List.mem_of_getElem? hp)

end Blocks

theorem PageBlock.ends {j : ℕ} {c : List (K × ℕ)} (hb : PageBlock N j c) :
    ∃ a ∈ bothEnds c, ∃ z ∈ bothEnds c, ∀ x ∈ c, a.1 ≤ x.1 ∧ x.1 ≤ z.1 := by
  match c, hb with
  | a :: cs, hb =>
    obtain ⟨z, hz⟩ : ∃ z, (a :: cs).getLast? = some z :=
      ⟨_, List.getLast?_eq_some_getLast (by simp)⟩
    have hzmem : z ∈ bothEnds (a :: cs) := by
      rw [← getLast?_bothEnds] at hz
      exact List.mem_of_getLast? hz
    refine ⟨a, List.mem_cons_self, z, hzmem, fun x hx => ⟨?_, ?_⟩⟩
    · rcases List.mem_cons.mp hx with rfl | hx
      · exact le_rfl
      · exact ((List.pairwise_cons.mp hb.sorted).1 x hx).1.le
    · obtain ⟨init, hinit⟩ := List.getLast?_eq_some_iff.mp hz
      have hsorted := hb.sorted
      rw [hinit] at hx hsorted
      cases List.mem_append.mp hx with
      | inl hx => exact ((List.pairwise_append.mp hsorted).2.2 x hx z (by simp)).1.le
      | inr hx => rw [List.mem_singleton.mp hx]

section Range
variable [MlTrait M K] {s : XSubModel M} {train : List (K × ℕ)}

omit [LinearOrder K] in
theorem stretched_page {L : ℤ} (hL : 0 ≤ L) (hl : ∀ kl ∈ train, (kl.2 : ℤ) ≤ L) {y : K × ℕ}
    (hy : y ∈ train) : ∃ n : ℕ, n / N = y.2 / N ∧
      s.getPointPredict y.1 + (XSubModel.stretched s (samePage N) train).errMin ≤ n ∧
      (n : ℤ) ≤ s.getPointPredict y.1 + (XSubModel.stretched s (samePage N) train).errMax := by
  obtain ⟨hmin, hmax, hdiff, -, -⟩ := stretched_bounds s (samePage N) train L hL hl
  have hp := (getPointPredict_bounds s y.1).1
  cases hskip : samePage N y.2 (s.getPointPredict y.1).toNat with
  | true =>
    -- the updater skipped the pair, so the prediction itself is on the page
    refine ⟨(s.getPointPredict y.1).toNat, ?_, by omega, by omega⟩
    simpa [samePage] using (of_decide_eq_true hskip).symm
  | false =>
    have hd := hdiff _ ((mem_diffs s).mpr ⟨y.1, y.2, hy, hskip, rfl⟩)
    exact ⟨y.2, rfl, by omega, by omega⟩

/-- The clamped prediction of `k` is before the end of page `j`, or the error of a pair that the
updater does not skip takes it back there. -/
def ReachesBack (N : ℕ) (ml : M) (last : ℕ) (train : List (K × ℕ)) (j : ℕ) (k : K) : Prop :=
  clamped ml last k < N * (j + 1) ∨ ∃ z l, (z, l) ∈ train ∧
    samePage N l (clamped ml last z).toNat = false ∧
    clamped ml last k + l - clamped ml last z < N * (j + 1)

section Stretch
variable {L : ℤ} {j last : ℕ} {k : K}

omit [LinearOrder K] in
/-- The range starts on page `j` or before it exactly if the prediction reaches back there. -/
theorem stretched_start_iff (hL : 0 ≤ L) (hl : ∀ kl ∈ train, (kl.2 : ℤ) ≤ L)
    (hover : ∀ k, s.getPointPredict k + L < 2 ^ 31) (hN : 0 < N)
    (hpoint : ∀ k, s.getPointPredict k = clamped s.ml last k) :
    ((XSubModel.stretched s (samePage N) train).getPredictRange k).1.tdiv N ≤ j ↔
      ReachesBack N s.ml last train j k := by
  obtain ⟨hmin, hmax, hdiff, -, hle⟩ := stretched_bounds s (samePage N) train L hL hl
  have hsum := hover k
  have hstart : ((XSubModel.stretched s (samePage N) train).getPredictRange k).1.tdiv N ≤ j ↔
      s.getPointPredict k + (XSubModel.stretched s (samePage N) train).errMin < N * (j + 1) := by
    have hpos : (0 : ℤ) < N := by omega
    have hend : (0 : ℤ) < N * (j + 1) := by positivity
    rw [stretched_range s (samePage N) train L hL hl k (by omega), ← Int.lt_add_one_iff,
      Int.tdiv_eq_ediv_of_nonneg (le_max_left _ _), Int.ediv_lt_iff_lt_mul hpos, max_lt_iff,
      mul_comm]
    exact and_iff_right hend
  rw [hstart]
  constructor
  · intro h
    cases (spread_attained (0, 0) (diffs s (samePage N) train)).1 with
    | inl hzero =>
      left
      rw [← hpoint]
      simp only [XSubModel.stretched, hzero, add_zero] at h
      exact h
    | inr hattained =>
      obtain ⟨z, l, hz, hskip, hd⟩ := (mem_diffs s).mp hattained
      refine Or.inr ⟨z, l, hz, by rwa [← hpoint], ?_⟩
      simp only [XSubModel.stretched, hd] at h
      rw [← hpoint, ← hpoint]
      omega
  · rintro (h | ⟨z, l, hz, hskip, h⟩)
    · rw [← hpoint] at h
      omega
    · rw [← hpoint] at hskip
      have hd := (hdiff _ ((mem_diffs s).mpr ⟨z, l, hz, hskip, rfl⟩)).1
      rw [← hpoint, ← hpoint] at h
      omega

variable {a z : K × ℕ}

theorem stretched_end (hL : 0 ≤ L) (hl : ∀ kl ∈ train, (kl.2 : ℤ) ≤ L)
    (hover : ∀ k, s.getPointPredict k + L < 2 ^ 31)
    (hmono : Monotone (fun k : K => MlTrait.predict s.ml k)) (hN : 0 < N)
    (ha : a ∈ train) (hz : z ∈ train) (haj : a.2 / N = j) (hzj : z.2 / N = j)
    (hmax : ((j * N : ℕ) : ℤ) ≤ s.max) (hak : a.1 ≤ k) (hkz : k ≤ z.1) :
    (j : ℤ) ≤ ((XSubModel.stretched s (samePage N) train).getPredictRange k).2.tdiv N := by
  obtain ⟨-, -, -, -, hle⟩ := stretched_bounds s (samePage N) train L hL hl
  have hsum := hover k
  rw [stretched_range s (samePage N) train L hL hl k (by omega)]
  obtain ⟨n, hn, hhigh⟩ : ∃ n : ℕ, n / N = j ∧
      (n : ℤ) ≤ s.getPointPredict k + (XSubModel.stretched s (samePage N) train).errMax := by
    cases lt_or_ge (truncate (MlTrait.predict s.ml k)) (2 ^ 31) with
    | inl hfit =>
      obtain ⟨n, hn, -, hhigh⟩ := stretched_page (s := s) (N := N) hL hl ha
      have hp := getPointPredict_mono hmono hak hfit
      exact ⟨n, hn.trans haj, by omega⟩
    | inr hbeyond =>
      -- the last key of the page is beyond every int as well, and both count as 0
      obtain ⟨n, hn, -, hhigh⟩ := stretched_page (s := s) (N := N) hL hl hz
      have hp : s.getPointPredict z.1 = 0 :=
        getPointPredict_beyond (hbeyond.trans (truncate_mono (hmono hkz)))
      have hp' := getPointPredict_beyond hbeyond
      exact ⟨n, hn.trans hzj, by omega⟩
  have hjn : j * N ≤ n := by
    rw [← hn]
    exact Nat.div_mul_le_self n N
  have hpage := (tdiv_page (s := (j * N : ℕ)) (l := j * N) hN le_rfl
    (show ((j * N : ℕ) : ℤ) ≤ min s.max (s.getPointPredict k +
      (XSubModel.stretched s (samePage N) train).errMax) from le_min hmax (by omega))).2
  rwa [Nat.mul_div_cancel _ hN] at hpage

/-- Unless `k` is predicted within an int and the last key of its page is not, the range of `k`
starts on that page or before it. -/
theorem stretched_start (hL : 0 ≤ L) (hl : ∀ kl ∈ train, (kl.2 : ℤ) ≤ L)
    (hover : ∀ k, s.getPointPredict k + L < 2 ^ 31)
    (hmono : Monotone (fun k : K => MlTrait.predict s.ml k)) (hN : 0 < N) (hz : z ∈ train)
    (hzj : z.2 / N = j) (hkz : k ≤ z.1)
    (hcast : truncate (MlTrait.predict s.ml k) < 2 ^ 31 →
      truncate (MlTrait.predict s.ml z.1) < 2 ^ 31) :
    ((XSubModel.stretched s (samePage N) train).getPredictRange k).1.tdiv N ≤ j := by
  obtain ⟨hmin, -, -, -, hle⟩ := stretched_bounds s (samePage N) train L hL hl
  have hsum := hover k
  rw [stretched_range s (samePage N) train L hL hl k (by omega)]
  cases lt_or_ge (truncate (MlTrait.predict s.ml k)) (2 ^ 31) with
  | inl hfit =>
    obtain ⟨n, hn, hlow, -⟩ := stretched_page (s := s) (N := N) hL hl hz
    have hp := getPointPredict_mono hmono hkz (hcast hfit)
    rw [← hzj, ← hn]
    exact (tdiv_page hN (by omega) le_rfl).1
  | inr hbeyond =>
    have hp := getPointPredict_beyond hbeyond
    have hzero : max 0 (s.getPointPredict k +
        (XSubModel.stretched s (samePage N) train).errMin) = 0 := max_eq_left (by omega)
    rw [hzero, Int.zero_tdiv]
    omega

end Stretch

/-- After training on both ends of every page, the range of a key contains its page exactly if
no end of the page is predicted beyond an int and the key within, or the range reaches back. -/
theorem page_range_iff {bs : List (List (K × ℕ))}
    (hbs : ∀ j c, bs[j]? = some c → PageBlock N j c) {st : TrainSet K} {kept : ℕ}
    (hkept : st.label.getLast? = some kept) (hpage : kept / N + 1 = bs.length)
    (hkept30 : kept < 2 ^ 30) {f : UpdateFunc} (hf : Accumulates f (samePage N)) (hN : 0 < N)
    (hsmall : ∀ x ∈ bs.flatMap bothEnds, x.2 < 2 ^ 30)
    (hmono : Monotone (fun k : K => MlTrait.predict (trainedOn st : XSubModel M).ml k))
    {j : ℕ} {c : List (K × ℕ)} (hc : bs[j]? = some c) {x : K × ℕ} (hx : x ∈ c) :
    let model := (trainedOn st : XSubModel M).calError ((bs.flatMap bothEnds).map Prod.fst)
      ((bs.flatMap bothEnds).map Prod.snd) f
    (model.getPredictRange x.1).1.tdiv N ≤ j ∧ (j : ℤ) ≤ (model.getPredictRange x.1).2.tdiv N ↔
      ∀ z ∈ bothEnds c, truncate (MlTrait.predict model.ml x.1) < 2 ^ 31 →
        2 ^ 31 ≤ truncate (MlTrait.predict model.ml z.1) →
        ReachesBack N model.ml kept (bs.flatMap bothEnds) j x.1 := by
  intro model
  have hzip : ((bs.flatMap bothEnds).map Prod.fst).zip ((bs.flatMap bothEnds).map Prod.snd) =
      bs.flatMap bothEnds := by
    rw [List.zip_map', List.map_id']
  have hmodel : model = XSubModel.stretched (trainedOn st) (samePage N) (bs.flatMap bothEnds) := by
    have h := calError_stretched (M := M) st
      ⟨(bs.flatMap bothEnds).map Prod.fst, (bs.flatMap bothEnds).map Prod.snd⟩ hf
    simp only [hzip] at h
    exact h (fun x hx => by have := hsmall x hx; omega)
  have hmax : (trainedOn st : XSubModel M).max = toInt32 kept := by
    simp only [trainedOn, hkept]
  have hpoint : ∀ k, (trainedOn st : XSubModel M).getPointPredict k =
      clamped (trainedOn st : XSubModel M).ml kept k := trained_clamped (by omega) hmax
  rw [toInt32_eq (by omega) (by omega)] at hmax
  have hover : ∀ k, (trainedOn st : XSubModel M).getPointPredict k + (2 ^ 30 - 1) < 2 ^ 31 := by
    intro k
    rw [hpoint, clamped]
    omega
  have hl : ∀ y ∈ bs.flatMap bothEnds, (y.2 : ℤ) ≤ 2 ^ 30 - 1 :=
    fun y hy => by have := hsmall y hy; omega
  obtain ⟨a, ha, z, hz, hends⟩ := (hbs j c hc).ends
  have hmem : ∀ y ∈ bothEnds c, y ∈ bs.flatMap bothEnds :=
    fun y hy => List.mem_flatMap.mpr ⟨c, List.mem_of_getElem? hc, hy⟩
  have hj := (List.getElem?_eq_some_iff.mp hc).1
  have hdiv : ∀ y ∈ bothEnds c, y.2 / N = j :=
    fun y hy => (hbs j c hc).page y (bothEnds_subset hy)
  have hreach : ((j * N : ℕ) : ℤ) ≤ (trainedOn st : XSubModel M).max := by
    rw [hmax]
    have hle : j * N ≤ kept := (Nat.le_div_iff_mul_le hN).mp (by omega)
    exact_mod_cast hle
  have hml : model.ml = (trainedOn st : XSubModel M).ml := by rw [hmodel]; rfl
  have hupper := stretched_end (L := 2 ^ 30 - 1) (by omega) hl hover hmono hN (hmem a ha)
    (hmem z hz) (hdiv a ha) (hdiv z hz) hreach (hends x hx).1 (hends x hx).2
  have hlower := stretched_start_iff (j := j) (k := x.1) (L := 2 ^ 30 - 1) (by omega) hl hover hN
    hpoint
  rw [hml, hmodel]
  constructor
  · rintro ⟨hstart, -⟩ y - - -
    exact hlower.mp hstart
  · intro hcast
    refine ⟨?_, hupper⟩
    by_cases hbad : truncate (MlTrait.predict (trainedOn st : XSubModel M).ml x.1) < 2 ^ 31 ∧
        2 ^ 31 ≤ truncate (MlTrait.predict (trainedOn st : XSubModel M).ml z.1)
    · exact hlower.mpr (hcast z hz hbad.1 hbad.2)
    · exact stretched_start (L := 2 ^ 30 - 1) (by omega) hl hover hmono hN (hmem z hz)
        (hdiv z hz) (hends x hx).2 (fun hfit => by omega)

end Range

section Keep
variable [SampleTrait SS K] {bs : List (List (K × ℕ))}

/-- Shrinking keeps every `step`-th pair, and the last one kept is still on the last page. -/
def KeepsLastPage (N step : ℕ) (ss : SS) : Prop :=
  ∀ bs : List (List (K × ℕ)), bs ≠ [] → (∀ j c, bs[j]? = some c → PageBlock N j c) →
    (∀ j c, bs[j]? = some c → j + 1 < bs.length → 2 ≤ c.length) →
    ∃ st kept, shrink ss (TrainSet.empty.append (bs.flatMap bothEnds)) = .ok st ∧
      st.set.length = st.label.length ∧
      st.label = everyNth step 0 ((bs.flatMap bothEnds).map Prod.snd) ∧
      st.label.getLast? = some kept ∧ kept ∈ (bs.flatMap bothEnds).map Prod.snd ∧
      kept / N + 1 = bs.length

theorem last_page (hne : bs ≠ []) (hbs : ∀ j c, bs[j]? = some c → PageBlock N j c)
    (pick : List (K × ℕ) → List (K × ℕ)) (hpick : ∀ c, c ≠ [] → pick c ≠ [])
    (hsub : ∀ c, ∀ x ∈ pick c, x ∈ c) : ∃ x, (bs.flatMap pick).getLast? = some x ∧
      x.2 / N + 1 = bs.length := by
  obtain ⟨init, c, rfl⟩ := (List.eq_nil_or_concat' bs).resolve_left hne
  have hc : (init ++ [c])[init.length]? = some c := by simp
  have hblock := hbs init.length c hc
  obtain ⟨x, hx⟩ : ∃ x, (pick c).getLast? = some x :=
    ⟨_, List.getLast?_eq_some_getLast (hpick c hblock.ne)⟩
  refine ⟨x, ?_, ?_⟩
  · rw [List.flatMap_append, List.flatMap_singleton, List.getLast?_append, hx]
    rfl
  · rw [hblock.page x (hsub c x (List.mem_of_getLast? hx)), List.length_append,
      List.length_singleton]

theorem keepsLastPage_default : KeepsLastPage N 1 ({} : DefaultSample K) := by
  intro bs hne hbs _
  obtain ⟨x, hx, hpage⟩ := last_page hne hbs bothEnds
    (fun c hc => by cases c with | nil => exact absurd rfl hc | cons y ys => simp [bothEnds])
    (fun c x hx => bothEnds_subset hx)
  refine ⟨_, x.2, shrink_default _ (by simp [TrainSet.append, TrainSet.empty]),
    by simp [TrainSet.append, TrainSet.empty], ?_, ?_, ?_, hpage⟩
  · simp [TrainSet.append, TrainSet.empty, everyNth_one]
  · simp [TrainSet.append, TrainSet.empty, hx]
  · exact List.mem_map_of_mem (List.mem_of_getLast? hx)

theorem keepsLastPage_two : KeepsLastPage N 2 (StepSampler.new 2 : StepSampler K) := by
  intro bs hne hbs hlong
  obtain ⟨x, hx, hpage⟩ := last_page hne hbs
    (fun b => b.head?.toList)
    (fun c hc => by cases c with | nil => exact absurd rfl hc | cons y ys => simp)
    (fun c x hx => List.mem_of_head? (Option.mem_toList.mp hx))
  have hblocks : ∀ b ∈ bs, b ≠ [] := by
    intro b hb
    obtain ⟨j, hj⟩ := List.getElem?_of_mem hb
    exact (hbs j b hj).ne
  have hsecond := everyNth_two_bothEnds hblocks hlong
  rw [← hsecond] at hx
  refine ⟨_, x.2, shrink_stepSampler _ (by simp [TrainSet.append, TrainSet.empty]) 2, ?_, ?_, ?_,
    ?_, hpage⟩
  · simp [TrainSet.append, TrainSet.empty, everyNth_map]
  · simp [TrainSet.append, TrainSet.empty]
  · simp [TrainSet.append, TrainSet.empty, everyNth_map, hx]
  · exact List.mem_map_of_mem ((everyNth_sublist _).mem (List.mem_of_getLast? hx))

end Keep

/-- The page of `k` in the list of pages visited is in the range predicted for `k`. -/
def WithinPages [BoundedOrder K] [MlTrait M K] (kv : Store N K V) (model : XSubModel M)
    (visited : List Ptr) (k : K) : Prop :=
  ∃ (leaf : Ptr) (p : ℕ) (slot : Fin N), kv.tree.findLeaf k = .ok (some leaf) ∧
    (kv.mem leaf).getKey slot = k ∧ visited[p]? = some leaf ∧
    (model.getPredictRange k).1.tdiv N ≤ p ∧ (p : ℤ) ≤ (model.getPredictRange k).2.tdiv N

/-- A key predicted within an int, on a page with a sampled key predicted beyond, is not past
that page for all that: its prediction or the error of a pair reaches back. -/
def CastHolds [MlTrait M K] [BoundedOrder K] (kv : Store N K V) (ml : M) (last : ℕ)
    (train : TrainSet K) (k : K) : Prop :=
  ∀ z l, (z, l) ∈ train.set.zip train.label → kv.tree.findLeaf z = kv.tree.findLeaf k →
    truncate (MlTrait.predict ml k) < 2 ^ 31 → 2 ^ 31 ≤ truncate (MlTrait.predict ml z) →
    ReachesBack N ml last (train.set.zip train.label) (l / N) k

/-- As long as the predictions of the sampled keys fit an int, the condition holds. -/
theorem castHolds_of_fits [MlTrait M K] [BoundedOrder K] {kv : Store N K V} {ml : M} {last : ℕ}
    {train : TrainSet K} {k : K} (h : ∀ z ∈ train.set, truncate (MlTrait.predict ml z) < 2 ^ 31) :
    CastHolds kv ml last train k :=
  fun z _ hz _ _ hbeyond => absurd (h z (List.of_mem_zip hz).1) (not_lt.mpr hbeyond)

/-- On a page whose pairs are found in its leaf, the sampled keys of the leaf are its two ends. -/
theorem castHolds_iff [MlTrait M K] [BoundedOrder K] {kv : Store N K V} {ml : M} {last : ℕ}
    {bs : List (List (K × ℕ))} (hbs : ∀ j c, bs[j]? = some c → PageBlock N j c)
    {visited : List Ptr} (hnodup : visited.Nodup)
    (hfound : ∀ x ∈ bs.flatten, ∃ leaf, visited[x.2 / N]? = some leaf ∧
      kv.tree.findLeaf x.1 = .ok (some leaf))
    {j : ℕ} {c : List (K × ℕ)} (hj : bs[j]? = some c) {k : K} {l : ℕ} (hl : (k, l) ∈ c) :
    CastHolds kv ml last (TrainSet.empty.append (bs.flatMap bothEnds)) k ↔
      ∀ z ∈ bothEnds c, truncate (MlTrait.predict ml k) < 2 ^ 31 →
        2 ^ 31 ≤ truncate (MlTrait.predict ml z.1) →
        ReachesBack N ml last (bs.flatMap bothEnds) j k := by
  have hzip : (TrainSet.empty.append (bs.flatMap bothEnds)).set.zip
      (TrainSet.empty.append (bs.flatMap bothEnds)).label = bs.flatMap bothEnds := by
    simp only [TrainSet.append, TrainSet.empty, List.nil_append]
    rw [List.zip_map', List.map_id']
  -- the leaf of a pair of block `n` is the page with the number `n`
  have hpage : ∀ n b, bs[n]? = some b → ∀ x ∈ b, x.2 / N = n ∧ ∃ leaf, visited[n]? = some leaf ∧
      kv.tree.findLeaf x.1 = .ok (some leaf) := by
    intro n b hn x hx
    have hdiv := (hbs n b hn).page x hx
    exact ⟨hdiv, hdiv ▸ hfound x (List.mem_flatten.mpr ⟨b, List.mem_of_getElem? hn, hx⟩)⟩
  obtain ⟨-, leaf, hleaf, hfind⟩ := hpage j c hj _ hl
  unfold CastHolds
  rw [hzip]
  constructor
  · intro h z hz hfit hbeyond
    obtain ⟨hdiv, leaf', hleaf', hfind'⟩ := hpage j c hj z (bothEnds_subset hz)
    obtain rfl : leaf' = leaf := Option.some.inj (hleaf'.symm.trans hleaf)
    have hreach := h z.1 z.2 (List.mem_flatMap.mpr ⟨c, List.mem_of_getElem? hj, hz⟩)
      (hfind'.trans hfind.symm) hfit hbeyond
    rwa [hdiv] at hreach
  · intro h z i hz hleaves hfit hbeyond
    obtain ⟨b, hb, hzb⟩ := List.mem_flatMap.mp hz
    obtain ⟨n, hn⟩ := List.getElem?_of_mem hb
    obtain ⟨hdiv, leaf', hleaf', hfind'⟩ := hpage n b hn _ (bothEnds_subset hzb)
    obtain rfl : leaf' = leaf :=
      Option.some.inj (Except.ok.inj (hfind'.symm.trans (hleaves.trans hfind)))
    obtain rfl : n = j := (List.getElem?_inj (List.getElem?_eq_some_iff.mp hleaf').1 hnodup).mp
      (hleaf'.trans hleaf.symm)
    obtain rfl : b = c := Option.some.inj (hn.symm.trans hj)
    rw [hdiv]
    exact h (z, i) hzb hfit hbeyond

section Built
variable [BoundedOrder K] [StdSort] [Inhabited V] {ops : List (K × V)} {addr : Ptr → ℕ} {fuel : ℕ}

def Samples {S : Type} [SampleTrait S K] (fuel : ℕ) (kv : Store N K V) (s : S) (t : XMLTrainer K)
    (train : TrainSet K) : Prop :=
  ∃ (it₀ it : XCacheTreeIter N K) (s' : S),
    XCacheTreeIter.fromTT kv.mem kv.tree .empty = .ok it₀ ∧
    t.snapshpotTrainLabels fuel it₀ kv s = .ok (it, s', train)

theorem Scans.stored {w : World N K V TrivalAlloc} (hN : 2 ≤ N) (hw : Built w ops) {k : K}
    {pages : List Ptr} (h : Scans addr w ops k pages) {p : Ptr} (hp : p ∈ pages) {x : K}
    (hx : x ∈ (w.mem p).entries.map Prod.fst) :
    x ∈ ops.map Prod.fst ∧ w.tree.findLeaf x = .ok (some p) := by
  obtain ⟨e, he, rfl⟩ := Multiset.mem_map.mp hx
  exact ⟨List.mem_map_of_mem (h.mem hN hw hp he).2, h.stores p hp e he⟩

/-- One submodel, trained on both ends of every page of its range; its table lists the first of
the pages that the scan of the range goes over. -/
theorem trainSub_scans [Usize] [MlTrait M K] [SampleTrait SS K] {w : World N K V TrivalAlloc}
    (hN : 4 ≤ N) (hw : Built w ops) (haddr : ∀ p < w.alloc.allocated, addr p < 2 ^ 56)
    (hfuel : ops.length < fuel) {step : ℕ} {ss : SS} (hss : KeepsLastPage N step ss)
    {f : UpdateFunc} (hf : Accumulates f (samePage N)) {t : XMLTrainer K}
    (hneed : t.needTrain = true) {k₀ : K} (hk₀ : k₀ ∈ ops.map Prod.fst)
    (hstart₀ : t.startKey ≤ k₀) (hend₀ : k₀ ≤ t.endKey)
    (hlabels : LabelsBelow (2 ^ 30) fuel (⟨addr, w.mem, w.tree⟩ : Store N K V)
      (PageSampler.new : PageSampler N K) t) :
    ∃ (model : XSubModel M) (tt : TT) (visited pages : List Ptr) (train : TrainSet K) (last : ℕ),
      trainSub fuel (⟨addr, w.mem, w.tree⟩ : Store N K V) (PageSampler.new : PageSampler N K) ss f
        t = .ok (model, tt) ∧ tt.entries = visited.map (pageEntry addr w.mem) ∧
      Scans addr w ops t.startKey pages ∧ visited <+: pages ∧
      Samples fuel (⟨addr, w.mem, w.tree⟩ : Store N K V) (PageSampler.new : PageSampler N K) t
        train ∧ (∀ z ∈ train.set, z ∈ ops.map Prod.fst) ∧
      (everyNth step 0 train.label).getLast? = some last ∧
      (Monotone (fun k : K => MlTrait.predict model.ml k) → ∀ k ∈ ops.map Prod.fst,
        t.startKey ≤ k → k ≤ t.endKey →
          (WithinPages (⟨addr, w.mem, w.tree⟩ : Store N K V) model visited k ↔
            CastHolds (⟨addr, w.mem, w.tree⟩ : Store N K V) model.ml last train k)) := by
  obtain ⟨pages, hscan⟩ := Scans.exists (by omega) hw haddr t.startKey
  set bs := seenBlocks w.mem pages t.endKey with hbsdef
  have hbs : ∀ j c, bs[j]? = some c → PageBlock N j c :=
    fun j c hc => seenBlocks_page hscan.chain hc
  have hlong : ∀ j c, bs[j]? = some c → j + 1 < bs.length → 2 ≤ c.length := by
    intro j c hc hj
    have := seenBlocks_long hscan.chain hscan.half hc hj
    omega
  have hseen : seen w.mem pages t.endKey = bs.flatten := flatten_seenBlocks.symm
  have hne : bs ≠ [] := by
    rintro hnil
    obtain ⟨l, hl⟩ := mem_seen hscan.chain (hscan.keys k₀ hk₀ hstart₀) hend₀
    rw [hseen, hnil] at hl
    cases hl
  obtain ⟨s, t', hadd, hfin⟩ := PageSampler.addAll_finalize .empty hbs
  rw [← hseen] at hadd
  obtain ⟨it₀, it, visited, hfrom, hsnap, htt, hpre, hpage⟩ := hscan.snapshot hfuel hadd hfin
  obtain ⟨st, kept, hshrink, hlen, hlabel, hkept, hmem, hlast⟩ := hss bs hne hbs hlong
  have hsub := trainSub_eq (M := M) (f := f) hfrom hneed hsnap hshrink hlen htt
  have hsmall := hlabels it₀ it _ _ hfrom hsnap
  have hsmall' : ∀ x ∈ bs.flatMap bothEnds, x.2 < 2 ^ 30 := by
    intro x hx
    exact hsmall x.2 (List.mem_map_of_mem hx)
  obtain ⟨y, hy, rfl⟩ := List.mem_map.mp hmem
  -- the page of every pair seen is the leaf that the lookup of its key finds
  have hfound : ∀ x ∈ bs.flatten, ∃ leaf, visited[x.2 / N]? = some leaf ∧
      x.1 ∈ (w.mem leaf).entries.map Prod.fst ∧ x.1 ∈ ops.map Prod.fst ∧
      w.tree.findLeaf x.1 = .ok (some leaf) := by
    intro x hx
    rw [← hseen] at hx
    obtain ⟨leaf, hleaf, hstored⟩ := hpage x.1 x.2 hx
    exact ⟨leaf, hleaf, hstored,
      hscan.stored (by omega) hw (hpre.mem (List.mem_of_getElem? hleaf)) hstored⟩
  have hsampled : ∀ z ∈ (TrainSet.empty.append (bs.flatMap bothEnds)).set,
      z ∈ ops.map Prod.fst := by
    intro z hz
    obtain ⟨x, hx, rfl⟩ := List.mem_map.mp hz
    obtain ⟨b, hb, hx⟩ := List.mem_flatMap.mp hx
    obtain ⟨leaf, -, -, hin, -⟩ := hfound x (List.mem_flatten.mpr ⟨b, hb, bothEnds_subset hx⟩)
    exact hin
  refine ⟨_, _, visited, pages, _, y.2, hsub, rfl, hscan, hpre, ⟨it₀, it, s, hfrom, hsnap⟩,
    hsampled, by rw [← hkept, hlabel]; rfl, ?_⟩
  intro hmono k hk hstart hend
  rw [(calError_keeps (trainedOn st : XSubModel M) _ _ f).1] at hmono
  obtain ⟨l, hl⟩ := mem_seen hscan.chain (hscan.keys k hk hstart) hend
  rw [hseen] at hl
  obtain ⟨leaf, hleaf, hstored, -, hfind⟩ := hfound _ hl
  obtain ⟨slot, hslot, -⟩ := ((w.mem leaf).mem_keys k).mp hstored
  obtain ⟨c, hc, hlc⟩ := List.mem_flatten.mp hl
  obtain ⟨j, hj⟩ := List.getElem?_of_mem hc
  rw [show l / N = j from (hbs j c hj).page _ hlc] at hleaf
  have hnodup : visited.Nodup := hscan.chain.nodup.sublist hpre.sublist
  have hrange := page_range_iff (M := M) hbs hkept hlast (hsmall' y hy) hf (by omega) hsmall'
    hmono hj hlc
  rw [castHolds_iff hbs hnodup (fun x hx => by
    obtain ⟨leaf, hat, -, -, hfind⟩ := hfound x hx
    exact ⟨leaf, hat, hfind⟩) hj hlc]
  refine Iff.trans ⟨?_, fun h => ⟨leaf, j, slot, hfind, hslot, hleaf, h.1, h.2⟩⟩ hrange
  rintro ⟨leaf', p, -, hfind', -, hp, hlow, hhigh⟩
  obtain rfl : leaf' = leaf := Option.some.inj (Except.ok.inj (hfind'.symm.trans hfind))
  obtain rfl : p = j := (List.getElem?_inj (List.getElem?_eq_some_iff.mp hp).1 hnodup).mp
    (hp.trans hleaf.symm)
  exact ⟨hlow, hhigh⟩

theorem trainSub_pages [Usize] [MlTrait M K] [SampleTrait SS K] {w : World N K V TrivalAlloc}
    (hN : 4 ≤ N) (hw : Built w ops) (haddr : ∀ p < w.alloc.allocated, addr p < 2 ^ 56)
    (hfuel : ops.length < fuel) {step : ℕ} {ss : SS} (hss : KeepsLastPage N step ss)
    {f : UpdateFunc} (hf : Accumulates f (samePage N)) {t : XMLTrainer K}
    (hneed : t.needTrain = true) {k₀ : K} (hk₀ : k₀ ∈ ops.map Prod.fst)
    (hstart₀ : t.startKey ≤ k₀) (hend₀ : k₀ ≤ t.endKey)
    (hlabels : LabelsBelow (2 ^ 30) fuel (⟨addr, w.mem, w.tree⟩ : Store N K V)
      (PageSampler.new : PageSampler N K) t) {keys : K → Prop}
    (hkeys : ∀ k, keys k → k ∈ ops.map Prod.fst ∧ t.startKey ≤ k ∧ k ≤ t.endKey) :
    ∃ (model : XSubModel M) (tt : TT) (visited : List Ptr) (train : TrainSet K) (last : ℕ),
      trainSub fuel (⟨addr, w.mem, w.tree⟩ : Store N K V) (PageSampler.new : PageSampler N K) ss f
        t = .ok (model, tt) ∧ tt.entries = visited.map (pageEntry addr w.mem) ∧ visited.Nodup ∧
      Samples fuel (⟨addr, w.mem, w.tree⟩ : Store N K V) (PageSampler.new : PageSampler N K) t
        train ∧ (everyNth step 0 train.label).getLast? = some last ∧
      (Monotone (fun k : K => MlTrait.predict model.ml k) →
        ((∀ k, keys k → WithinPages (⟨addr, w.mem, w.tree⟩ : Store N K V) model visited k) ↔
          ∀ k, keys k →
            CastHolds (⟨addr, w.mem, w.tree⟩ : Store N K V) model.ml last train k)) := by
  obtain ⟨model, tt, visited, pages, train, last, hrun, hentries, hscan, hpre, hsamples, -, hlast,
    hwithin⟩ := trainSub_scans (M := M) hN hw haddr hfuel hss hf hneed hk₀ hstart₀ hend₀ hlabels
  refine ⟨model, tt, visited, train, last, hrun, hentries, hscan.chain.nodup.sublist hpre.sublist,
    hsamples, hlast, fun hmono => ?_⟩
  have hkey := fun k hk => hwithin hmono k (hkeys k hk).1 (hkeys k hk).2.1 (hkeys k hk).2.2
  exact ⟨fun h k hk => (hkey k hk).mp (h k hk), fun h k hk => (hkey k hk).mpr (h k hk)⟩

theorem labelsBelow_pages {w : World N K V TrivalAlloc} (hN : 2 ≤ N) (hw : Built w ops)
    (haddr : ∀ p < w.alloc.allocated, addr p < 2 ^ 56) (hfuel : ops.length < fuel)
    (t : XMLTrainer K) : LabelsBelow (N * ops.length) fuel (⟨addr, w.mem, w.tree⟩ : Store N K V)
      (PageSampler.new : PageSampler N K) t := by
  refine labelsBelow_of_seen hN hw haddr hfuel (fun pages hpages => ?_)
  obtain ⟨s, t', hadd, hfin⟩ := PageSampler.addAll_finalize .empty
    (fun j c hc => seenBlocks_page (e := t.endKey) hpages hc)
  rw [flatten_seenBlocks] at hadd
  refine ⟨s, t', _, hadd, hfin, fun l hl => ?_⟩
  obtain ⟨x, hx, rfl⟩ := List.mem_map.mp hl
  obtain ⟨c, hc, hx⟩ := List.mem_flatMap.mp hx
  refine ⟨x, ?_, rfl⟩
  rw [← flatten_seenBlocks]
  exact List.mem_flatten.mpr ⟨c, hc, bothEnds_subset hx⟩

end Built

/-- A steep line: its prediction for the key 3 is the first one beyond an int. -/
structure SteepLR where
  deriving DecidableEq

instance : MlTrait SteepLR XKey where
  init := {}
  train m _ _ := m
  predict _ k := ((2 ^ 30 * (k.val - 1) : ℤ) : ℚ)

theorem steepLR_mono (ml : SteepLR) : Monotone (fun k : XKey => MlTrait.predict ml k) := by
  intro a b hab
  have hval : a.val ≤ b.val := hab
  exact Int.cast_le.mpr (by omega)

def seventeen : List (XKey × ℕ) := (List.range 17).map (fun i => (Fin.ofNat _ (i + 1), i))

/-- A tree of these keys, one trainer that all of them were dispatched to, and its submodel and
table. -/
def steepTrained [StdSort] [Usize] [DoubleArith] :
    Res ((World 16 XKey ℕ TrivalAlloc × List (XMLTrainer XKey) × XMLTrainer XKey) ×
      XSubModel SteepLR × TT) := do
  let w ← (World.init (fun _ => XNode.new : Mem 16 XKey ℕ)).insertAll seventeen
  let kv : Store 16 XKey ℕ := ⟨fun p => 4096 + 256 * (p % 1024), w.mem, w.tree⟩
  let rmi : LocalTwoRMI SteepLR SteepLR := ⟨⟨{}, 1, 0⟩, [.new]⟩
  let trainers ← rmi.dispatchKeysToTrainers 18 kv
  let t ← need trainers[0]? .outOfRange
  let trained ← trainSub 18 kv (PageSampler.new : PageSampler 16 XKey) ({} : DefaultSample XKey)
    pageUpdater t
  pure ((w, trainers, t), trained)

theorem steepTrained_misses :
    letI := insertionStdSort
    letI := usize64
    letI := exactDouble
    (do
      let ((w, _, _), model, tt) ← steepTrained
      let leaf ← w.tree.findLeaf 2
      let p ← need leaf .nullDeref
      pure (model.getPredictRange (2 : XKey), tt.entries.length, decide (tt.entries[1]? =
        some (pageEntry (fun p => 4096 + 256 * (p % 1024)) w.mem p)))) =
      .ok ((23, 24), 2, false) := by
  decide +kernel

end XStore.Xcache
