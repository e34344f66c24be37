import XStore.Xml.Mat

/-! When the two matrix products agree. The routine is told that the buffers are column-major,
and they are row-major. -/
namespace XStore.Xml
open XStore.Lib Finset
variable {α : Type}

theorem foldlM_range {β : Type} {P : ℕ → β → Prop} {f : β → ℕ → Res β} {n : ℕ} {s : β}
    (h₀ : P 0 s) (hstep : ∀ i < n, ∀ s, P i s → ∃ s', f s i = .ok s' ∧ P (i + 1) s') :
    ∃ s', (List.range n).foldlM f s = .ok s' ∧ P n s' := by
  induction n with
  | zero => exact ⟨s, rfl, h₀⟩
  | succ n ih =>
    obtain ⟨s₁, hrun, h₁⟩ := ih (fun i hi => hstep i (by omega))
    obtain ⟨s₂, hlast, h₂⟩ := hstep n (by omega) s₁ h₁
    refine ⟨s₂, ?_, h₂⟩
    simp [List.range_succ, List.foldlM_append, hrun, hlast]

namespace Mat
variable [CommSemiring α] {a b c : Mat α}

def entry (a : Mat α) (r j : ℕ) : α := a.ptr.getD (r * a.ncol + j) 0

def prod (a b : Mat α) (p : ℕ) : α :=
  ∑ i ∈ range a.ncol, a.entry (p / b.ncol) i * b.entry i (p % b.ncol)

theorem at?_eq {r j : ℕ} (hr : r < a.nrow) (hj : j < a.ncol) : a.at? r j = some (a.entry r j) := by
  have hlt : r * a.ncol + j < a.ptr.length := by
    rw [a.size]
    exact rowMajor_lt hr hj
  simp [at?, entry, hlt]

theorem dot_eq (hab : a.ncol = b.nrow) {r j : ℕ} (hr : r < a.nrow) (hj : j < b.ncol) :
    a.dot b r j = .ok (∑ i ∈ range a.ncol, a.entry r i * b.entry i j) := by
  obtain ⟨x, hrun, rfl⟩ := foldlM_range (n := a.ncol) (s := (0 : α))
    (P := fun k x => x = ∑ i ∈ range k, a.entry r i * b.entry i j)
    (f := fun temp i => do
      let x ← need (a.at? r i) .outOfRange
      let y ← need (b.at? i j) .outOfRange
      pure (temp + x * y)) (by simp) (by
    rintro i hi s rfl
    refine ⟨_, ?_, rfl⟩
    rw [at?_eq hr hi, at?_eq (hab ▸ hi) hj, sum_range_succ]
    rfl)
  exact hrun

structure Fit (a b c : Mat α) : Prop where
  inner : a.ncol = b.nrow
  row : a.nrow = c.nrow
  col : c.ncol = b.ncol

theorem prod_position (h : Fit a b c) (r : ℕ) {j : ℕ} (hj : j < c.ncol) :
    prod a b (r * c.ncol + j) = ∑ i ∈ range a.ncol, a.entry r i * b.entry i j := by
  have hcol : 0 < c.ncol := by omega
  rw [prod, ← h.col, Nat.mul_comm, Nat.mul_add_div hcol, Nat.div_eq_of_lt hj,
    Nat.mul_add_mod, Nat.mod_eq_of_lt hj, Nat.add_zero]

/-- In the middle of the loop: the product is added at the first `q` positions. -/
structure Grown (a b c : Mat α) (q : ℕ) (c' : Mat α) : Prop where
  nrow : c'.nrow = c.nrow
  ncol : c'.ncol = c.ncol
  get : ∀ p, c'.ptr[p]? = c.ptr[p]?.map (fun x => if p < q then x + prod a b p else x)

theorem Grown.step (h : Fit a b c) {r j : ℕ} (hr : r < c.nrow) (hj : j < c.ncol) {c' : Mat α}
    (hc : Grown a b c (r * c.ncol + j) c') :
    ∃ c'', (a.dot b r j >>= fun temp => c'.addAt r j temp) = .ok c'' ∧
      Grown a b c (r * c.ncol + (j + 1)) c'' := by
  have hlt : r * c.ncol + j < c.ptr.length := by
    rw [c.size]
    exact rowMajor_lt hr hj
  have hget : c'.at? r j = some (c.ptr[r * c.ncol + j]) := by
    rw [at?, hc.ncol, hc.get, List.getElem?_eq_getElem hlt]
    simp
  have hprod := prod_position h r hj
  rw [dot_eq h.inner (h.row ▸ hr) (h.col ▸ hj), ok_bind, addAt, hget, need_some, ok_bind]
  refine ⟨_, rfl, ⟨hc.nrow, hc.ncol, fun p => ?_⟩⟩
  have hlen : c'.ptr.length = c.ptr.length := by
    rw [c'.size, c.size, hc.nrow, hc.ncol]
  simp only [hc.ncol, ← hprod]
  by_cases hp : r * c.ncol + j = p
  · subst hp
    rw [List.getElem?_set_self (by omega), List.getElem?_eq_getElem hlt]
    simp
  · rw [List.getElem?_set_ne hp, hc.get]
    have hiff : p < r * c.ncol + j ↔ p < r * c.ncol + (j + 1) := by omega
    simp only [hiff]

/-- The product of the loops. -/
theorem manMult_spec (h : Fit a b c) : ∃ c', a.manMult b c = .ok c' ∧ c'.nrow = c.nrow ∧
    c'.ncol = c.ncol ∧ ∀ p, c'.ptr[p]? = c.ptr[p]?.map (fun x => x + prod a b p) := by
  have hrow : ∀ r < c.nrow, ∀ c', Grown a b c (r * c.ncol) c' →
      ∃ c'', ((List.range c'.ncol).foldlM (fun c col => do
        let temp ← a.dot b r col
        c.addAt r col temp) c' = .ok c'') ∧ Grown a b c ((r + 1) * c.ncol) c'' := by
    intro r hr c' hc
    rw [hc.ncol, Nat.succ_mul]
    exact foldlM_range (P := fun j => Grown a b c (r * c.ncol + j)) hc
      (fun j hj c' hc => hc.step h hr hj)
  obtain ⟨c', hrun, hdone⟩ := foldlM_range (P := fun r => Grown a b c (r * c.ncol))
    (s := c) ⟨rfl, rfl, fun p => by simp⟩ hrow
  refine ⟨c', ?_, hdone.nrow, hdone.ncol, fun p => ?_⟩
  · simp only [manMult, h.inner, h.row, h.col, beq_self_eq_true, ensure_true, ok_bind]
    exact hrun
  · rw [hdone.get]
    by_cases hp : p < c.ptr.length
    · have hlt : p < c.nrow * c.ncol := c.size ▸ hp
      simp [hlt]
    · rw [List.getElem?_eq_none (not_lt.mp hp)]
      rfl

/-- What the routine adds there instead, for it reads the buffers column by column. -/
def colProd (a b : Mat α) (p : ℕ) : α :=
  ∑ l ∈ range a.ncol, a.ptr.getD (p % a.nrow + l * a.nrow) 0 *
    b.ptr.getD (l + p / a.nrow * b.nrow) 0

theorem mult_eq (dgemm : Dgemm α) (h : Fit a b c) : ∃ c', a.mult dgemm b c = .ok c' ∧
    c'.nrow = c.nrow ∧ c'.ncol = c.ncol ∧
    c'.ptr = dgemm.run .colMajor .noTrans .noTrans a.nrow b.ncol a.ncol 1 a.ptr a.nrow
      b.ptr b.nrow 1 c.ptr c.nrow := by
  simp only [mult, h.inner, h.row, h.col, beq_self_eq_true, ensure_true, ok_bind]
  exact ⟨_, rfl, rfl, rfl, rfl⟩

theorem mult_spec {dgemm : Dgemm α} (hd : dgemm.Standard) (h : Fit a b c) (ha : 1 ≤ a.nrow)
    (hb : 1 ≤ b.nrow) : ∃ c', a.mult dgemm b c = .ok c' ∧ c'.nrow = c.nrow ∧
    c'.ncol = c.ncol ∧ ∀ p, c'.ptr[p]? = c.ptr[p]?.map (fun x => x + colProd a b p) := by
  obtain ⟨c', hrun, hrow, hcol, hptr⟩ := mult_eq dgemm h
  refine ⟨c', hrun, hrow, hcol, fun p => ?_⟩
  by_cases hp : p < c.ptr.length
  · have hlt : p < b.ncol * a.nrow := by
      rw [Nat.mul_comm, h.row, ← h.col, ← c.size]
      exact hp
    have hi : p % a.nrow < a.nrow := Nat.mod_lt p ha
    have hj : p / a.nrow < b.ncol := Nat.div_lt_of_lt_mul (by rwa [Nat.mul_comm])
    have hplace : position .colMajor c.nrow (p % a.nrow) (p / a.nrow) = p := by
      rw [position, ← h.row, Nat.mul_comm]
      exact Nat.mod_add_div p a.nrow
    have hlegal : LegalLds .colMajor .noTrans .noTrans a.nrow b.ncol a.ncol a.nrow b.nrow
        c.nrow :=
      ⟨max_le ha le_rfl, max_le hb h.inner.le, max_le (h.row ▸ ha) h.row.le⟩
    have hcompute := hd.compute .colMajor .noTrans .noTrans a.nrow b.ncol a.ncol 1 a.ptr a.nrow
      b.ptr b.nrow 1 c.ptr c.nrow hlegal
      (fun i hi l hl => by
        rw [a.size, operand, position, Nat.add_comm, Nat.mul_comm a.nrow]
        exact rowMajor_lt hl hi)
      (fun l hl j hj => by
        rw [b.size, operand, position, Nat.add_comm, Nat.mul_comm b.nrow]
        exact rowMajor_lt hj (h.inner ▸ hl))
      (p % a.nrow) hi (p / a.nrow) hj c.ptr[p] (by rw [hplace, List.getElem?_eq_getElem hp])
    rw [hplace] at hcompute
    rw [hptr, hcompute, List.getElem?_eq_getElem hp, one_mul, one_mul, Option.map_some, add_comm]
    rfl
  · have hlen : c'.ptr.length = c.ptr.length := by rw [c'.size, c.size, hrow, hcol]
    rw [List.getElem?_eq_none (not_lt.mp hp), List.getElem?_eq_none (by omega)]
    rfl

theorem eq_of_grown {c₁ c₂ : Mat α} (hrow : c₁.nrow = c₂.nrow) (hcol : c₁.ncol = c₂.ncol)
    {f g : ℕ → α} (h₁ : ∀ p, c₁.ptr[p]? = c.ptr[p]?.map (fun x => x + f p))
    (h₂ : ∀ p, c₂.ptr[p]? = c.ptr[p]?.map (fun x => x + g p))
    (hfg : ∀ p < c.ptr.length, f p = g p) : c₁ = c₂ := by
  refine Mat.ext (List.ext_getElem? (fun p => ?_)) hrow hcol
  rw [h₁, h₂]
  by_cases hp : p < c.ptr.length
  · rw [hfg p hp]
  · rw [List.getElem?_eq_none (not_lt.mp hp)]
    rfl

/-- The shapes for which row-major and column-major make no difference. -/
def Indifferent (m k n : ℕ) : Prop :=
  m = 0 ∨ n = 0 ∨ k = 0 ∨ (m = 1 ∧ n = 1) ∨ (k = 1 ∧ (m = 1 ∨ n = 1))

theorem colProd_eq_prod (h : Fit a b c) (hshape : (a.nrow = 1 ∧ b.ncol = 1) ∨
    (a.ncol = 1 ∧ (a.nrow = 1 ∨ b.ncol = 1))) {p : ℕ} (hp : p < c.ptr.length) :
    colProd a b p = prod a b p := by
  rw [c.size, ← h.row, h.col] at hp
  refine sum_congr rfl (fun l hl => ?_)
  have hl := mem_range.mp hl
  have hpos : p % a.nrow + l * a.nrow = p / b.ncol * a.ncol + l ∧
      l + p / a.nrow * b.nrow = l * b.ncol + p % b.ncol := by
    rw [← h.inner]
    cases hshape with
    | inl hmn =>
      obtain ⟨hm, hn⟩ := hmn
      rw [hm, hn] at hp
      obtain rfl : p = 0 := by omega
      simp [hm, hn]
    | inr hk =>
      obtain ⟨hk, hmn⟩ := hk
      obtain rfl : l = 0 := by omega
      cases hmn with
      | inl hm =>
        rw [hm, Nat.one_mul] at hp
        simp [hm, hk, Nat.mod_one, Nat.mod_eq_of_lt hp, Nat.div_eq_of_lt hp]
      | inr hn =>
        rw [hn, Nat.mul_one] at hp
        simp [hn, hk, Nat.mod_one, Nat.mod_eq_of_lt hp, Nat.div_eq_of_lt hp]
  rw [entry, entry, hpos.1, hpos.2]

theorem mult_eq_manMult {dgemm : Dgemm α} (hd : dgemm.Standard) (h : Fit a b c)
    (hshape : Indifferent a.nrow a.ncol b.ncol) : a.mult dgemm b c = a.manMult b c := by
  obtain ⟨c₂, hman, hrow₂, hcol₂, hget₂⟩ := manMult_spec h
  rw [hman]
  by_cases hlegal : 1 ≤ a.nrow ∧ 1 ≤ b.nrow
  · obtain ⟨c₁, hmult, hrow₁, hcol₁, hget₁⟩ := mult_spec hd h hlegal.1 hlegal.2
    rw [hmult]
    refine congrArg Except.ok (eq_of_grown (hrow₁.trans hrow₂.symm) (hcol₁.trans hcol₂.symm)
      hget₁ hget₂ (fun p hp => ?_))
    refine colProd_eq_prod h ?_ hp
    have hpos : 0 < b.ncol := by
      by_contra hzero
      rw [c.size, h.col, Nat.eq_zero_of_not_pos hzero] at hp
      omega
    have hinner := h.inner
    unfold Indifferent at hshape
    omega
  · -- the routine refuses a leading dimension 0, and there is nothing to add
    have hrefuse : ¬ LegalLds .colMajor .noTrans .noTrans a.nrow b.ncol a.ncol a.nrow b.nrow
        c.nrow := by
      rintro ⟨hlda, hldb, -⟩
      exact hlegal ⟨(le_max_left 1 _).trans hlda, (le_max_left 1 _).trans hldb⟩
    obtain ⟨c₁, hmult, hrow₁, hcol₁, hptr⟩ := mult_eq dgemm h
    rw [hd.refuse _ _ _ _ _ _ _ _ _ _ _ _ _ _ hrefuse] at hptr
    rw [hmult]
    refine congrArg Except.ok (eq_of_grown (f := fun _ => 0) (hrow₁.trans hrow₂.symm)
      (hcol₁.trans hcol₂.symm) (by simp [hptr]) hget₂ (fun p hp => ?_))
    have hk : a.ncol = 0 := by
      by_contra hne
      have hinner := h.inner
      have hm : a.nrow = 0 := by omega
      rw [c.size, ← h.row, hm] at hp
      omega
    simp [prod, hk]

theorem colProd_eq_of_agree {dgemm : Dgemm α} (hd : dgemm.Standard) (h : Fit a b c)
    (ha : 1 ≤ a.nrow) (hb : 1 ≤ b.nrow) (heq : a.mult dgemm b c = a.manMult b c) {p : ℕ}
    (hp : c.ptr[p]? = some 0) : colProd a b p = prod a b p := by
  obtain ⟨c₁, hmult, -, -, hget₁⟩ := mult_spec hd h ha hb
  obtain ⟨c₂, hman, -, -, hget₂⟩ := manMult_spec h
  obtain rfl : c₁ = c₂ := Except.ok.inj (hmult.symm.trans (heq.trans hman))
  have hsum := (hget₁ p).symm.trans (hget₂ p)
  simpa [hp] using hsum

def ofFun (m n : ℕ) (f : ℕ → α) : Mat α where
  ptr := (List.range (m * n)).map f
  nrow := m
  ncol := n
  size := by simp

theorem getD_ofFun {m n p : ℕ} (f : ℕ → α) (hp : p < m * n) : (ofFun m n f).ptr.getD p 0 = f p := by
  simp [ofFun, hp]

def unit (m n x : ℕ) : Mat α := ofFun m n (fun p => if p = x then 1 else 0)

theorem getD_unit {m n x p : ℕ} (hp : p < m * n) :
    (unit m n x : Mat α).ptr.getD p 0 = if p = x then 1 else 0 :=
  getD_ofFun _ hp

theorem disagree_at [Nontrivial α] {dgemm : Dgemm α} (hd : dgemm.Standard) {m k n x y p : ℕ}
    (hm : 1 ≤ m) (hk : 1 ≤ k) (hp : p < m * n)
    (hcol : colProd (unit m k x : Mat α) (unit k n y) p = 1)
    (hrow : prod (unit m k x : Mat α) (unit k n y) p = 0) :
    ∃ a b c : Mat α, Fit a b c ∧ a.nrow = m ∧ a.ncol = k ∧ b.ncol = n ∧
      a.mult dgemm b c ≠ a.manMult b c := by
  have hfit : Fit (unit m k x : Mat α) (unit k n y) (ofFun m n (fun _ => 0)) := ⟨rfl, rfl, rfl⟩
  refine ⟨_, _, _, hfit, rfl, rfl, rfl, fun heq => ?_⟩
  have hagree := colProd_eq_of_agree hd hfit hm hk heq (p := p) (by simp [ofFun, hp])
  rw [hcol, hrow] at hagree
  exact one_ne_zero hagree

/-- At position 0 the routine meets the two ones. -/
theorem colProd_unit {m k n : ℕ} (hm : 1 ≤ m) (hn : 1 ≤ n) (hk : 2 ≤ k) :
    colProd (unit m k m : Mat α) (unit k n 1) 0 = 1 := by
  have hterm : ∀ l ∈ range k, (unit m k m : Mat α).ptr.getD (0 % m + l * m) 0 *
      (unit k n 1 : Mat α).ptr.getD (l + 0 / m * k) 0 = if l = 1 then 1 else 0 := by
    intro l hl
    have hl := mem_range.mp hl
    have hpa : 0 % m + l * m < m * k := by
      rw [Nat.zero_mod, Nat.zero_add, Nat.mul_comm]
      exact Nat.mul_lt_mul_of_pos_left hl hm
    have hpb : l + 0 / m * k < k * n := by
      rw [Nat.zero_div, Nat.zero_mul, Nat.add_zero]
      exact lt_of_lt_of_le hl (Nat.le_mul_of_pos_right k hn)
    rw [getD_unit hpa, getD_unit hpb]
    by_cases hl₁ : l = 1
    · simp [hl₁]
    · simp [hl₁]
  exact (sum_congr rfl hterm).trans (by simp; omega)

/-- The loops do not meet them, unless the result is a single number. -/
theorem prod_unit {m k n : ℕ} (hm : 1 ≤ m) (hn : 1 ≤ n) (hone : ¬ (m = 1 ∧ n = 1)) :
    prod (unit m k m : Mat α) (unit k n 1) 0 = 0 := by
  refine sum_eq_zero (fun i hi => ?_)
  have hi : i < k := mem_range.mp hi
  have hpa : 0 / n * k + i < m * k := by
    rw [Nat.zero_div, Nat.zero_mul, Nat.zero_add]
    exact lt_of_lt_of_le hi (Nat.le_mul_of_pos_left k hm)
  have hpb : i * n + 0 % n < k * n := rowMajor_lt hi (Nat.mod_lt 0 hn)
  change (unit m k m : Mat α).ptr.getD (0 / n * k + i) 0 *
    (unit k n 1 : Mat α).ptr.getD (i * n + 0 % n) 0 = 0
  rw [getD_unit hpa, getD_unit hpb]
  by_cases him : i = m
  · have hmn : m * n ≠ 1 := by
      rw [Ne, mul_eq_one]
      exact hone
    simp [him, hmn]
  · simp [him]

theorem colProd_unit_outer {m n : ℕ} (hm : 2 ≤ m) (hn : 1 ≤ n) :
    colProd (unit m 1 1 : Mat α) (unit 1 n 0) 1 = 1 := by
  have hmod : 1 % m = 1 := Nat.mod_eq_of_lt hm
  have hdiv : 1 / m = 0 := Nat.div_eq_of_lt hm
  change ∑ l ∈ range 1, (unit m 1 1 : Mat α).ptr.getD (1 % m + l * m) 0 *
    (unit 1 n 0 : Mat α).ptr.getD (l + 1 / m * 1) 0 = 1
  rw [sum_range_one, hmod, hdiv, getD_unit (by omega), getD_unit (by omega)]
  simp

theorem prod_unit_outer {m n : ℕ} (hm : 1 ≤ m) (hn : 2 ≤ n) :
    prod (unit m 1 1 : Mat α) (unit 1 n 0) 1 = 0 := by
  have hdiv : 1 / n = 0 := Nat.div_eq_of_lt hn
  change ∑ i ∈ range 1, (unit m 1 1 : Mat α).ptr.getD (1 / n * 1 + i) 0 *
    (unit 1 n 0 : Mat α).ptr.getD (i * n + 1 % n) 0 = 0
  rw [sum_range_one, hdiv, getD_unit (by omega)]
  simp

/-- Any shape that is not indifferent has matrices on which the products differ. -/
theorem exists_disagree [Nontrivial α] {dgemm : Dgemm α} (hd : dgemm.Standard) {m k n : ℕ}
    (hshape : ¬ Indifferent m k n) : ∃ a b c : Mat α, Fit a b c ∧ a.nrow = m ∧ a.ncol = k ∧
      b.ncol = n ∧ a.mult dgemm b c ≠ a.manMult b c := by
  unfold Indifferent at hshape
  have hm : 1 ≤ m := by omega
  have hn : 1 ≤ n := by omega
  by_cases hk : 2 ≤ k
  · exact disagree_at hd hm (by omega) (Nat.mul_pos hm hn) (colProd_unit hm hn hk)
      (prod_unit hm hn (by omega))
  · obtain rfl : k = 1 := by omega
    have hm₂ : 2 ≤ m := by omega
    have hn₂ : 2 ≤ n := by omega
    have hlt : 1 < m * n := by
      calc 1 < 2 * 2 := by decide
        _ ≤ m * n := Nat.mul_le_mul hm₂ hn₂
    exact disagree_at hd hm (le_refl 1) hlt (colProd_unit_outer hm₂ hn) (prod_unit_outer hm hn₂)

/-- The two products agree, on what the loops compute, exactly for indifferent shapes. -/
theorem mult_agrees_iff [Nontrivial α] {dgemm : Dgemm α} (hd : dgemm.Standard) (m k n : ℕ) :
    (∀ a b c : Mat α, Fit a b c → a.nrow = m → a.ncol = k → b.ncol = n →
      ∃ c', a.mult dgemm b c = .ok c' ∧ a.manMult b c = .ok c' ∧ ∀ r < m, ∀ j < n,
        c'.entry r j = c.entry r j + ∑ i ∈ range k, a.entry r i * b.entry i j) ↔
    Indifferent m k n := by
  constructor
  · intro hall
    by_contra hshape
    obtain ⟨a, b, c, hfit, rfl, rfl, rfl, hne⟩ := exists_disagree (α := α) hd hshape
    obtain ⟨c', hmult, hman, -⟩ := hall a b c hfit rfl rfl rfl
    exact hne (hmult.trans hman.symm)
  · rintro hshape a b c hfit rfl rfl rfl
    obtain ⟨c', hman, hrow, hcol, hget⟩ := manMult_spec hfit
    refine ⟨c', (mult_eq_manMult hd hfit hshape).trans hman, hman, fun r hr j hj => ?_⟩
    have hj : j < c.ncol := hfit.col ▸ hj
    have hlt : r * c.ncol + j < c.ptr.length := by
      rw [c.size]
      exact rowMajor_lt (hfit.row ▸ hr) hj
    have hentry := hget (r * c.ncol + j)
    rw [List.getElem?_eq_getElem hlt, Option.map_some, prod_position hfit r hj] at hentry
    simp [entry, hcol, hentry, hlt]

def exactDgemm (α : Type) [CommSemiring α] : Dgemm α where
  run layout ta tb m n k alpha a lda b ldb beta c ldc :=
    if LegalLds layout ta tb m n k lda ldb ldc then
      c.mapIdx (fun p x =>
        let i := if layout = .colMajor then p % ldc else p / ldc
        let j := if layout = .colMajor then p / ldc else p % ldc
        if i < m ∧ j < n then
          alpha * ∑ l ∈ range k, a.getD (operand layout ta lda i l) 0 *
            b.getD (operand layout tb ldb l j) 0 + beta * x
        else x)
    else c
  length_run layout ta tb m n k alpha a lda b ldb beta c ldc := by
    split <;> simp

theorem exactDgemm_standard : (exactDgemm α).Standard where
  compute layout ta tb m n k alpha a lda b ldb beta c ldc hlegal _ _ i hi j hj x hx := by
    simp only [exactDgemm, if_pos hlegal, List.getElem?_mapIdx, hx, Option.map_some]
    have hld := hlegal.2.2
    cases layout with
    | rowMajor =>
      have hj' : j < ldc := lt_of_lt_of_le hj ((le_max_right 1 n).trans hld)
      have hdiv : (i * ldc + j) / ldc = i := by
        rw [Nat.mul_comm, Nat.mul_add_div (by omega), Nat.div_eq_of_lt hj', Nat.add_zero]
      have hmod : (i * ldc + j) % ldc = j := by
        rw [Nat.mul_comm, Nat.mul_add_mod, Nat.mod_eq_of_lt hj']
      simp [position, hdiv, hmod, hi, hj]
    | colMajor =>
      have hi' : i < ldc := lt_of_lt_of_le hi ((le_max_right 1 m).trans hld)
      have hdiv : (i + j * ldc) / ldc = j := by
        rw [Nat.add_mul_div_right _ _ (by omega), Nat.div_eq_of_lt hi', Nat.zero_add]
      have hmod : (i + j * ldc) % ldc = i := by
        rw [Nat.add_mul_mod_self_right, Nat.mod_eq_of_lt hi']
      simp [position, hdiv, hmod, hi, hj]
  refuse layout ta tb m n k alpha a lda b ldb beta c ldc hillegal := if_neg hillegal

/-- Two matrices of order 2: the loops compute their product, the routine the one in the other
order. -/
theorem mult_disagrees_two :
    ¬ ∀ (dgemm : Dgemm ℤ) (a b c : Mat ℤ), dgemm.Standard → Fit a b c →
      ∃ c', a.mult dgemm b c = .ok c' ∧ a.manMult b c = .ok c' := by
  intro hall
  obtain ⟨c', hmult, hman⟩ := hall (exactDgemm ℤ) ⟨[1, 2, 3, 4], 2, 2, rfl⟩
    ⟨[0, 1, 0, 0], 2, 2, rfl⟩ ⟨[0, 0, 0, 0], 2, 2, rfl⟩ exactDgemm_standard ⟨rfl, rfl, rfl⟩
  have h₁ : (Mat.mult (exactDgemm ℤ) ⟨[1, 2, 3, 4], 2, 2, rfl⟩ ⟨[0, 1, 0, 0], 2, 2, rfl⟩
      ⟨[0, 0, 0, 0], 2, 2, rfl⟩).toOption.map Mat.ptr = some [3, 4, 0, 0] := by
    decide
  have h₂ : (Mat.manMult ⟨[1, 2, 3, 4], 2, 2, rfl⟩ ⟨[0, 1, 0, 0], 2, 2, rfl⟩
      (⟨[0, 0, 0, 0], 2, 2, rfl⟩ : Mat ℤ)).toOption.map Mat.ptr = some [0, 1, 0, 3] := by
    decide
  rw [hmult] at h₁
  rw [hman, h₁] at h₂
  exact absurd h₂ (by decide)

theorem mult_agrees_iff_row :
    (∀ a b c : Mat ℤ, Fit a b c → a.nrow = 1 → a.ncol = 6 → b.ncol = 1 →
      ∃ c', a.mult (exactDgemm ℤ) b c = .ok c' ∧ a.manMult b c = .ok c' ∧ ∀ r < 1, ∀ j < 1,
        c'.entry r j = c.entry r j + ∑ i ∈ range 6, a.entry r i * b.entry i j) ↔
    Indifferent 1 6 1 :=
  mult_agrees_iff exactDgemm_standard 1 6 1

end Mat
end XStore.Xml
