import XStore.Xcache.Shrink
import XStore.Xml.Updater
import Mathlib.Data.List.Pairwise
import Mathlib.Tactic.Ring

/-! The page updater of the data_dist server (data_dist/server/db.hh): its bounds are moved to
the near end of the right page, and a pair that the bounds already cover is skipped. -/
namespace XStore.DataDist
open XStore.Xcache XStore.Xml
variable {N : ℕ} {M K : Type} [MlTrait M K]

/-- The sum of a u64 and an int is a u64. -/
def u64AddInt (a : ℕ) (b : ℤ) : ℕ := ((a + b) % 2 ^ 64).toNat

def gapLoop (N predict targetId : ℕ) (step : ℤ) : ℕ → ℤ → Res ℤ
  | 0, _ => .error .outOfFuel
  | fuel + 1, gap =>
    if LogicAddr.decodeLogicId N (u64AddInt predict gap) ≠ targetId then
      gapLoop N predict targetId step fuel (toInt32 (gap + step))
    else pure gap

def pageUpdater (N fuel : ℕ) : UpdateFuncM := fun label predict curMin curMax =>
  if LogicAddr.decodeLogicId N predict = LogicAddr.decodeLogicId N label then pure (curMin, curMax)
  else
    let targetId := LogicAddr.decodeLogicId N label
    if LogicAddr.decodeLogicId N (u64AddInt predict curMin) ≤ targetId ∧
        LogicAddr.decodeLogicId N (u64AddInt predict curMax) ≥ targetId then
      pure (curMin, curMax)
    else do
      let err := toInt64 ((label : ℤ) - predict)
      let step := if err < 0 then -1 else 1
      let gap ← gapLoop N predict targetId step fuel 0
      let newMin := min curMin gap
      let newMax := max curMax gap
      ensure (decide (newMin ≤ curMin) && decide (newMax ≥ newMax)) .boundsWiden
      pure (newMin, newMax)

theorem u64AddInt_eq {a : ℕ} {b : ℤ} (hlo : 0 ≤ a + b) (hhi : a + b < 2 ^ 64) :
    u64AddInt a b = (a + b).toNat := by
  rw [u64AddInt, Int.emod_eq_of_lt hlo hhi]

section Loop
variable {p t : ℕ} {step gap : ℤ}

theorem gapLoop_eq (n : ℕ) {fuel : ℕ} (hfuel : n < fuel)
    (hbefore : ∀ j : ℕ, j < n → LogicAddr.decodeLogicId N (u64AddInt p (gap + j * step)) ≠ t)
    (hat : LogicAddr.decodeLogicId N (u64AddInt p (gap + n * step)) = t)
    (hint : ∀ j : ℕ, j ≤ n → -2 ^ 31 ≤ gap + j * step ∧ gap + j * step < 2 ^ 31) :
    gapLoop N p t step fuel gap = .ok (gap + n * step) := by
  induction n generalizing fuel gap with
  | zero =>
    obtain ⟨fuel, rfl⟩ := Nat.exists_eq_succ_of_ne_zero (by omega : fuel ≠ 0)
    simp only [Nat.cast_zero, zero_mul, add_zero] at hat ⊢
    rw [gapLoop, if_neg (not_not.mpr hat), pure_eq_ok]
  | succ n ih =>
    obtain ⟨fuel, rfl⟩ := Nat.exists_eq_succ_of_ne_zero (by omega : fuel ≠ 0)
    have hshift : ∀ j : ℕ, gap + step + j * step = gap + (j + 1 : ℕ) * step := by
      intro j
      push_cast
      ring
    have hfirst := hbefore 0 (by omega)
    have hsecond := hint 1 (by omega)
    simp only [Nat.cast_zero, zero_mul, add_zero] at hfirst
    rw [Nat.cast_one, one_mul] at hsecond
    rw [gapLoop, if_pos hfirst, toInt32_eq hsecond.1 hsecond.2, ← hshift n]
    apply ih (by omega)
    · intro j hj
      rw [hshift]
      exact hbefore (j + 1) (by omega)
    · rw [hshift]
      exact hat
    · intro j hj
      rw [hshift]
      exact hint (j + 1) (by omega)

end Loop

/-- The end of the label's page that is nearer to the prediction. -/
def nearEnd (N l p : ℕ) : ℕ := if l < p then l / N * N + (N - 1) else l / N * N

section Gap
variable {l p : ℕ}

theorem nearEnd_page (hN : 1 ≤ N) : nearEnd N l p / N = l / N := by
  rw [nearEnd]
  split
  · have hlast : N - 1 < N := by omega
    rw [Nat.mul_comm, Nat.mul_add_div hN, Nat.div_eq_of_lt hlast, Nat.add_zero]
  · exact Nat.mul_div_cancel _ hN

/-- A prediction behind the label's page: the loop walks down to its last position. -/
theorem nearEnd_down (hN : 1 ≤ N) (hlt : l < p) (hpage : p / N ≠ l / N) :
    l ≤ nearEnd N l p ∧ nearEnd N l p < p ∧ ∀ x, nearEnd N l p < x → x / N ≠ l / N := by
  have hdiv : l / N < p / N := lt_of_le_of_ne (Nat.div_le_div_right hlt.le) hpage.symm
  have hmul : (l / N + 1) * N ≤ p := (Nat.le_div_iff_mul_le hN).mp hdiv
  have hend : nearEnd N l p + 1 = (l / N + 1) * N := by
    rw [nearEnd, if_pos hlt, Nat.add_mul, Nat.one_mul]
    omega
  have hl : l < (l / N + 1) * N := (Nat.div_lt_iff_lt_mul hN).mp (Nat.lt_succ_self _)
  refine ⟨by omega, by omega, fun x hx => ?_⟩
  have hx : l / N + 1 ≤ x / N := (Nat.le_div_iff_mul_le hN).mpr (by omega)
  omega

/-- A prediction ahead of the label's page: the loop walks up to its first position. -/
theorem nearEnd_up (hN : 1 ≤ N) (hle : ¬ l < p) (hpage : p / N ≠ l / N) :
    nearEnd N l p ≤ l ∧ p < nearEnd N l p ∧ ∀ x, x < nearEnd N l p → x / N ≠ l / N := by
  have hdiv : p / N < l / N := lt_of_le_of_ne (Nat.div_le_div_right (by omega)) hpage
  have hend : nearEnd N l p = l / N * N := by rw [nearEnd, if_neg hle]
  rw [hend]
  refine ⟨Nat.div_mul_le_self l N, (Nat.div_lt_iff_lt_mul hN).mp hdiv, fun x hx => ?_⟩
  exact ((Nat.div_lt_iff_lt_mul hN).mpr hx).ne

theorem gapLoop_nearEnd (hN : 1 ≤ N) (hl : l < 2 ^ 30) (hp : p < 2 ^ 30) (hpage : p / N ≠ l / N)
    {fuel : ℕ} (hfuel : 2 ^ 30 ≤ fuel) :
    gapLoop N p (l / N) (if toInt64 ((l : ℤ) - p) < 0 then -1 else 1) fuel 0 =
      .ok ((nearEnd N l p : ℤ) - p) := by
  rw [toInt64_eq (by omega) (by omega)]
  have hat := nearEnd_page (l := l) (p := p) hN
  by_cases hlt : l < p
  · obtain ⟨hle, hend, hbehind⟩ := nearEnd_down hN hlt hpage
    have hloop : gapLoop N p (l / N) (-1) fuel 0 =
        .ok (0 + ((p - nearEnd N l p : ℕ) : ℤ) * (-1)) := by
      refine gapLoop_eq (p - nearEnd N l p) (by omega) (fun j hj => ?_) ?_ (fun j hj => by omega)
      · rw [u64AddInt_eq (by omega) (by omega)]
        exact hbehind _ (by omega)
      · rw [u64AddInt_eq (by omega) (by omega), ← hat, LogicAddr.decodeLogicId]
        congr 1
        omega
    rw [if_pos (by omega), hloop]
    congr 1
    omega
  · obtain ⟨hle, hend, hahead⟩ := nearEnd_up hN hlt hpage
    have hloop : gapLoop N p (l / N) 1 fuel 0 =
        .ok (0 + ((nearEnd N l p - p : ℕ) : ℤ) * 1) := by
      refine gapLoop_eq (nearEnd N l p - p) (by omega) (fun j hj => ?_) ?_ (fun j hj => by omega)
      · rw [u64AddInt_eq (by omega) (by omega)]
        exact hahead _ (by omega)
      · rw [u64AddInt_eq (by omega) (by omega), ← hat, LogicAddr.decodeLogicId]
        congr 1
        omega
    rw [if_neg (by omega), hloop]
    congr 1
    omega

/-- What the updater computes on labels and predictions below `2^30`. -/
def pageStretch (N : ℕ) : UpdateFunc := fun l p mn mx =>
  if LogicAddr.decodeLogicId N p = LogicAddr.decodeLogicId N l ∨
      LogicAddr.decodeLogicId N (u64AddInt p mn) ≤ LogicAddr.decodeLogicId N l ∧
      LogicAddr.decodeLogicId N (u64AddInt p mx) ≥ LogicAddr.decodeLogicId N l then (mn, mx)
  else (min mn (nearEnd N l p - p), max mx (nearEnd N l p - p))

theorem pageUpdater_eq (hN : 1 ≤ N) (hl : l < 2 ^ 30) (hp : p < 2 ^ 30) {fuel : ℕ}
    (hfuel : 2 ^ 30 ≤ fuel) (mn mx : ℤ) :
    pageUpdater N fuel l p mn mx = .ok (pageStretch N l p mn mx) := by
  unfold pageUpdater pageStretch
  by_cases hpage : LogicAddr.decodeLogicId N p = LogicAddr.decodeLogicId N l
  · simp [hpage]
  · by_cases hcover : LogicAddr.decodeLogicId N (u64AddInt p mn) ≤ LogicAddr.decodeLogicId N l ∧
        LogicAddr.decodeLogicId N (u64AddInt p mx) ≥ LogicAddr.decodeLogicId N l
    · simp [hcover]
    · have hgap : gapLoop N p (LogicAddr.decodeLogicId N l)
          (if toInt64 ((l : ℤ) - p) < 0 then -1 else 1) fuel 0 = .ok ((nearEnd N l p : ℤ) - p) :=
        gapLoop_nearEnd hN hl hp hpage hfuel
      rw [if_neg hpage, if_neg hcover, if_neg (not_or.mpr ⟨hpage, hcover⟩)]
      simp only [hgap, ok_bind]
      simp

/-- The bounds reach from the prediction to the page of the label. -/
def Covers (N : ℕ) (l : ℕ) (p mn mx : ℤ) : Prop :=
  max 0 (p + mn) / N ≤ l / N ∧ (l : ℤ) / N ≤ (p + mx) / N

theorem Covers.mono {q mn mx mn' mx' : ℤ} (hN : 1 ≤ N) (h : Covers N l q mn mx)
    (hmin : mn' ≤ mn) (hmax : mx ≤ mx') : Covers N l q mn' mx' := by
  have hN' : (0 : ℤ) < N := by omega
  constructor
  · exact (Int.ediv_le_ediv hN' (by omega)).trans h.1
  · exact h.2.trans (Int.ediv_le_ediv hN' (by omega))

theorem Covers.of_positions {q mn mx : ℤ} {x y : ℕ} (hN : 1 ≤ N) (hx : max 0 (q + mn) ≤ x)
    (hy : (y : ℤ) ≤ q + mx) (hlow : x / N ≤ l / N) (hhigh : l / N ≤ y / N) :
    Covers N l q mn mx := by
  have hN' : (0 : ℤ) < N := by omega
  have hlow' : (x : ℤ) / N ≤ l / N := by exact_mod_cast hlow
  have hhigh' : (l : ℤ) / N ≤ y / N := by exact_mod_cast hhigh
  exact ⟨(Int.ediv_le_ediv hN' hx).trans hlow', hhigh'.trans (Int.ediv_le_ediv hN' hy)⟩

theorem pageStretch_spec (hN : 1 ≤ N) (hl : l < 2 ^ 30) (hp : p < 2 ^ 30) {mn mx : ℤ}
    (hmn : -2 ^ 30 ≤ mn) (hmn' : mn ≤ 0) (hmx : 0 ≤ mx) (hmx' : mx ≤ 2 ^ 30) :
    -2 ^ 30 ≤ (pageStretch N l p mn mx).1 ∧ (pageStretch N l p mn mx).1 ≤ mn ∧
      mx ≤ (pageStretch N l p mn mx).2 ∧ (pageStretch N l p mn mx).2 ≤ 2 ^ 30 ∧
      Covers N l p (pageStretch N l p mn mx).1 (pageStretch N l p mn mx).2 := by
  unfold pageStretch
  by_cases hpage : LogicAddr.decodeLogicId N p = LogicAddr.decodeLogicId N l
  · rw [if_pos (Or.inl hpage)]
    refine ⟨hmn, le_rfl, le_rfl, hmx', ?_⟩
    exact Covers.of_positions (x := p) (y := p) hN (by omega) (by omega) (le_of_eq hpage)
      (ge_of_eq hpage)
  · by_cases hcover : LogicAddr.decodeLogicId N (u64AddInt p mn) ≤ LogicAddr.decodeLogicId N l ∧
        LogicAddr.decodeLogicId N (u64AddInt p mx) ≥ LogicAddr.decodeLogicId N l
    · rw [if_pos (Or.inr hcover)]
      refine ⟨hmn, le_rfl, le_rfl, hmx', ?_⟩
      have hhigh := u64AddInt_eq (a := p) (b := mx) (by omega) (by omega)
      by_cases hwrap : 0 ≤ (p : ℤ) + mn
      · have hlow := u64AddInt_eq (a := p) (b := mn) hwrap (by omega)
        exact Covers.of_positions hN (by omega) (by omega) hcover.1 hcover.2
      · -- the lower bound starts at 0, whatever the wrapped sum says
        exact Covers.of_positions (x := 0) hN (by omega) (by omega) (by simp) hcover.2
    · rw [if_neg (not_or.mpr ⟨hpage, hcover⟩)]
      have hat := nearEnd_page (l := l) (p := p) hN
      have hend : nearEnd N l p < 2 ^ 30 := by
        by_cases hlt : l < p
        · exact (nearEnd_down hN hlt hpage).2.1.trans hp
        · exact lt_of_le_of_lt (nearEnd_up hN hlt hpage).1 hl
      refine ⟨by simp only; omega, min_le_left _ _, le_max_left _ _, by simp only; omega, ?_⟩
      exact Covers.of_positions (x := nearEnd N l p) (y := nearEnd N l p) hN (by simp only; omega)
        (by simp only; omega) hat.le hat.ge

end Gap

section Run
variable {s : XSubModel M} {fuel : ℕ}

theorem updateM_spec (hN : 1 ≤ N) (hfuel : 2 ^ 30 ≤ fuel) (hs : Centred s) {k : K} {l : ℕ}
    (hl : l < 2 ^ 30) :
    s.updateM (pageUpdater N fuel) (k, l) = .ok (s.update (pageStretch N) (k, l)) ∧
      Widened s (s.update (pageStretch N) (k, l)) ∧
      Covers N l (s.getPointPredict k) (s.update (pageStretch N) (k, l)).errMin
        (s.update (pageStretch N) (k, l)).errMax := by
  obtain ⟨hp₀, hp, -⟩ := hs.getPointPredict k
  obtain ⟨p, hpredict⟩ := Int.eq_ofNat_of_zero_le hp₀
  have hmod : (s.getPointPredict k % 2 ^ 64).toNat = p := by
    rw [Int.emod_eq_of_lt hp₀ (by omega), hpredict]
    rfl
  have hlt : p < 2 ^ 30 := by omega
  obtain ⟨hlow, hle, hge, hhigh, hcover⟩ := pageStretch_spec (N := N) hN hl hlt hs.errMin_ge
    hs.errMin_le hs.errMax_ge hs.errMax_le
  simp only [XSubModel.updateM, XSubModel.update, hmod]
  rw [pageUpdater_eq hN hl hlt hfuel, hpredict]
  exact ⟨rfl, ⟨rfl, rfl, hle, hge, hlow, hhigh⟩, hcover⟩

def stretched (N : ℕ) (s : XSubModel M) (train : List (K × ℕ)) : XSubModel M :=
  train.foldl (fun s kl => s.update (pageStretch N) kl) s

/-- All pairs: the loop ends, the bounds only widen, and they cover every pair in the end. -/
theorem stretched_spec (hN : 1 ≤ N) (hfuel : 2 ^ 30 ≤ fuel) (hs : Centred s)
    (train : List (K × ℕ)) (hl : ∀ kl ∈ train, kl.2 < 2 ^ 30) :
    train.foldlM (fun s kl => s.updateM (pageUpdater N fuel) kl) s = .ok (stretched N s train) ∧
      Widened s (stretched N s train) ∧ ∀ kl ∈ train, Covers N kl.2 (s.getPointPredict kl.1)
        (stretched N s train).errMin (stretched N s train).errMax := by
  induction train generalizing s with
  | nil => exact ⟨rfl, Widened.refl hs.errMin_ge hs.errMax_le, by simp⟩
  | cons kl train ih =>
    obtain ⟨k, l⟩ := kl
    obtain ⟨hstep, hwide, hcover⟩ := updateM_spec hN hfuel hs (hl (k, l) (by simp))
    obtain ⟨hrun, hrest, hcovers⟩ :=
      ih (hwide.centred hs) (fun kl h => hl kl (List.mem_cons_of_mem _ h))
    rw [List.foldlM_cons, hstep, ok_bind]
    refine ⟨hrun, hwide.trans hrest, fun kl hkl => ?_⟩
    cases List.mem_cons.mp hkl with
    | inl heq =>
      subst heq
      exact hcover.mono hN hrest.errMin hrest.errMax
    | inr hkl =>
      rw [← hwide.getPointPredict]
      exact hcovers kl hkl

theorem stretched_take (hN : 1 ≤ N) (hs : Centred s) {train : List (K × ℕ)}
    (hl : ∀ kl ∈ train, kl.2 < 2 ^ 30) {i j : ℕ} (hij : i ≤ j) :
    Widened (stretched N s (train.take i)) (stretched N s (train.take j)) := by
  have hwide := (stretched_spec hN (le_refl _) hs (train.take i)
    (fun kl h => hl kl (List.mem_of_mem_take h))).2.1
  have hrest := (stretched_spec hN (le_refl _) (hwide.centred hs) ((train.take j).drop i)
    (fun kl h => hl kl (List.mem_of_mem_take (List.mem_of_mem_drop h)))).2.1
  have hsplit : train.take j = train.take i ++ (train.take j).drop i := by
    rw [← Nat.min_eq_left hij, ← List.take_take, Nat.min_eq_left hij, List.take_append_drop]
  have hfold : stretched N s (train.take j) =
      stretched N (stretched N s (train.take i)) ((train.take j).drop i) := by
    conv_lhs => rw [hsplit]
    exact List.foldl_append
  rw [hfold]
  exact hrest

theorem Covers.range {k : K} {l : ℕ} (hN : 1 ≤ N) (hs : Centred s) (hlast : (l : ℤ) ≤ s.max)
    (h : Covers N l (s.getPointPredict k) s.errMin s.errMax) :
    (s.getPredictRange k).1 / N ≤ l / N ∧ (l : ℤ) / N ≤ (s.getPredictRange k).2 / N := by
  rw [hs.getPredictRange]
  refine ⟨h.1, ?_⟩
  have hN' : (0 : ℤ) < N := by omega
  cases min_choice s.max (s.getPointPredict k + s.errMax) with
  | inl heq =>
    simp only [heq]
    exact Int.ediv_le_ediv hN' hlast
  | inr heq =>
    simp only [heq]
    exact h.2

end Run

end XStore.DataDist
