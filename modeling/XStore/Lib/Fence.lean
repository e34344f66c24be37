import Mathlib.Order.Lattice
import Mathlib.Data.List.Basic
import Mathlib.Tactic.Tauto

/-! Fences and cells. A search node cuts an interval `[lo, hi]` by its separators; each
child lives in the cell between two neighbouring fences. -/
namespace XStore.Lib
variable {K C : Type*}

/-- `Fence P lo hi ks cs`: the fences `lo, ks, hi` delimit the cells `cs`, one cell more than
separators, and each cell satisfies `P` between its two fences. -/
def Fence (P : K → K → C → Prop) : K → K → List K → List C → Prop
  | lo, hi, [], [c] => P lo hi c
  | lo, hi, s :: ks, c :: cs => P lo s c ∧ Fence P s hi ks cs
  | _, _, _, _ => False

namespace Fence
variable {P Q : K → K → C → Prop} {lo hi : K} {ks : List K} {cs : List C}

theorem length (h : Fence P lo hi ks cs) : cs.length = ks.length + 1 := by
  induction ks generalizing lo cs with
  | nil =>
    match cs, h with
    | [_], _ => rfl
  | cons s ks ih =>
    match cs, h with
    | _ :: cs, h => simp [ih h.2]

theorem imp (hPQ : ∀ a b, ∀ c ∈ cs, P a b c → Q a b c) (h : Fence P lo hi ks cs) :
    Fence Q lo hi ks cs := by
  induction ks generalizing lo cs with
  | nil =>
    match cs, h with
    | [c], h => exact hPQ lo hi c (by simp) h
  | cons s ks ih =>
    match cs, h with
    | c :: cs, h =>
      exact ⟨hPQ lo s c (by simp) h.1,
        ih (fun a b d hd => hPQ a b d (List.mem_cons_of_mem c hd)) h.2⟩

theorem append_iff (u : K) (ks' : List K) (cs' : List C) (hlen : cs.length = ks.length + 1) :
    Fence P lo hi (ks ++ u :: ks') (cs ++ cs') ↔ Fence P lo u ks cs ∧ Fence P u hi ks' cs' := by
  induction ks generalizing lo cs with
  | nil =>
    match cs, hlen with
    | [c], _ => rfl
  | cons s ks ih =>
    match cs, hlen with
    | c :: cs, hlen =>
      have ht : cs.length = ks.length + 1 := by simpa using hlen
      simp only [List.cons_append, Fence, ih ht, and_assoc]

/-- The fences form a chain for every relation that a cell's own fences satisfy. -/
theorem chain (r : K → K → Prop) [IsTrans K r] (hP : ∀ a b c, P a b c → r a b)
    (h : Fence P lo hi ks cs) :
    r lo hi ∧ ks.Pairwise r ∧ ∀ s ∈ ks, r lo s ∧ r s hi := by
  induction ks generalizing lo cs with
  | nil =>
    match cs, h with
    | [c], h => exact ⟨hP lo hi c h, List.Pairwise.nil, by simp⟩
  | cons s ks ih =>
    match cs, h with
    | c :: cs, h =>
      obtain ⟨hs, hp, hall⟩ := ih h.2
      have hlo := hP lo s c h.1
      refine ⟨IsTrans.trans _ _ _ hlo hs,
        List.pairwise_cons.mpr ⟨fun t ht => (hall t ht).1, hp⟩, ?_⟩
      intro t ht
      rcases List.mem_cons.mp ht with rfl | ht
      · exact ⟨hlo, hs⟩
      · exact ⟨IsTrans.trans _ _ _ hlo (hall t ht).1, (hall t ht).2⟩

/-- Every cell has fences of its own, inside the outer ones. -/
theorem within [LinearOrder K] (hP : ∀ a b c, P a b c → a ≤ b) (h : Fence P lo hi ks cs) :
    ∀ d ∈ cs, ∃ a b, P a b d ∧ lo ≤ a ∧ b ≤ hi := by
  induction ks generalizing lo cs with
  | nil =>
    match cs, h with
    | [c], h =>
      intro d hd
      obtain rfl := List.mem_singleton.mp hd
      exact ⟨lo, hi, h, le_rfl, le_rfl⟩
  | cons s ks ih =>
    match cs, h with
    | c :: cs, ⟨hc, ht⟩ =>
      have hs : s ≤ hi := (ht.chain (· ≤ ·) hP).1
      intro d hd
      rcases List.mem_cons.mp hd with rfl | hd
      · exact ⟨lo, s, hc, le_rfl, hs⟩
      · obtain ⟨a, b, hd, hle, hge⟩ := ih ht d hd
        exact ⟨a, b, hd, (hP lo s c hc).trans hle, hge⟩

theorem pairwise [LinearOrder K] (hP : ∀ a b c, P a b c → a ≤ b) (h : Fence P lo hi ks cs) :
    cs.Pairwise (fun c d => ∃ a b a' b', P a b c ∧ P a' b' d ∧ b ≤ a') := by
  induction ks generalizing lo cs with
  | nil =>
    match cs, h with
    | [c], _ => exact List.pairwise_singleton _ _
  | cons s ks ih =>
    match cs, h with
    | c :: cs, h =>
      refine List.pairwise_cons.mpr ⟨fun d hd => ?_, ih h.2⟩
      obtain ⟨a, b, hp, hle, -⟩ := h.2.within hP d hd
      exact ⟨lo, s, a, b, h.1, hp, hle⟩

/-- A scan for the first larger separator ends at the cell that holds the value. -/
theorem scan [LinearOrder K] (hP : ∀ a b c, P a b c → a ≤ b) (h : Fence P lo hi ks cs) :
    Fence (fun a b c => P a b c ∧ lo ≤ a ∧ b ≤ hi ∧ ∀ x, a ≤ x → x < b →
      cs[ks.findIdx (fun s => decide (x < s))]? = some c) lo hi ks cs := by
  induction ks generalizing lo cs with
  | nil =>
    match cs, h with
    | [c], h => exact ⟨h, le_rfl, le_rfl, fun x _ _ => rfl⟩
  | cons s ks ih =>
    match cs, h with
    | c :: cs, ⟨hc, ht⟩ =>
      have hs : s ≤ hi := (ht.chain (· ≤ ·) hP).1
      refine ⟨⟨hc, le_rfl, hs, fun x _ hx => by simp [List.findIdx_cons, hx]⟩, (ih ht).imp ?_⟩
      rintro a b d - ⟨hd, hsa, hb, hscan⟩
      refine ⟨hd, (hP lo s c hc).trans hsa, hb, fun x hax hxb => ?_⟩
      have hx : ¬ x < s := not_lt.mpr (hsa.trans hax)
      simpa [List.findIdx_cons, hx] using hscan x hax hxb

theorem getElem? {i : ℕ} {c : C} (h : Fence P lo hi ks cs) (hc : cs[i]? = some c) :
    ∃ a b, P a b c ∧ (∀ s, 0 < i → ks[i-1]? = some s → s = a) ∧ ∀ s, ks[i]? = some s → b = s := by
  induction ks generalizing lo cs i with
  | nil =>
    match cs, h with
    | [d], h =>
      obtain rfl : i = 0 := by
        have := (List.getElem?_eq_some_iff.mp hc).1
        simpa using this
      obtain rfl : d = c := by simpa using hc
      exact ⟨lo, hi, h, by simp, by simp⟩
  | cons s ks ih =>
    match cs, h with
    | d :: cs, h =>
      cases i with
      | zero =>
        obtain rfl : d = c := by simpa using hc
        exact ⟨lo, s, h.1, by simp, by simp⟩
      | succ i =>
        obtain ⟨a, b, hp, ha, hb⟩ := ih h.2 (by simpa using hc)
        cases i with
        | zero =>
          match cs, h.2 with
          | e :: cs, ht =>
            obtain rfl : e = c := by simpa using hc
            cases ks with
            | nil =>
              obtain rfl : cs = [] := by simpa using ht.length
              exact ⟨s, hi, ht, by simp, by simp⟩
            | cons s' ks => exact ⟨s, s', ht.1, by simp, by simp⟩
        | succ i =>
          exact ⟨a, b, hp, fun t _ ht => ha t (by omega) (by simpa using ht), by simpa using hb⟩

/-- The cell that holds `x`, its two fences, and what stands left and right of it. -/
structure Focus [LinearOrder K] (P : K → K → C → Prop) (lo hi : K) (ks : List K) (cs : List C)
    (x : K) where
  left : List K
  right : List K
  before : List C
  cell : C
  after : List C
  a : K
  b : K
  keys_eq : ks = left ++ right
  cells_eq : cs = before ++ cell :: after
  left_length : left.length = ks.findIdx (fun s => decide (x < s))
  before_length : before.length = left.length
  lo_le : lo ≤ a
  le_hi : b ≤ hi
  le : a ≤ x
  lt : x < b
  holds : P a b cell
  left_le : ∀ s ∈ left, s ≤ a
  right_ge : ∀ s ∈ right, b ≤ s
  before_le : ∀ d ∈ before, ∃ a' b', P a' b' d ∧ b' ≤ a
  after_ge : ∀ d ∈ after, ∃ a' b', P a' b' d ∧ b ≤ a'
  refill : ∀ (Q : K → K → C → Prop) (ks' : List K) (cs' : List C),
    (∀ a b, ∀ d ∈ before ++ after, P a b d → Q a b d) → Fence Q a b ks' cs' →
    Fence Q lo hi (left ++ ks' ++ right) (before ++ cs' ++ after)

/-- A value between the outer fences is held by exactly the cell that a scan for the first
larger separator finds; that cell may be refilled by any smaller fence. -/
theorem focus [LinearOrder K] (hP : ∀ a b c, P a b c → a ≤ b) (x : K)
    (h : Fence P lo hi ks cs) (hlo : lo ≤ x) (hhi : x < hi) :
    Nonempty (Focus P lo hi ks cs x) := by
  induction ks generalizing lo cs with
  | nil =>
    match cs, h with
    | [c], h =>
      exact ⟨{ left := [], right := [], before := [], cell := c, after := [], a := lo, b := hi
               keys_eq := rfl, cells_eq := rfl, left_length := rfl, before_length := rfl
               lo_le := le_rfl, le_hi := le_rfl, le := hlo, lt := hhi, holds := h
               left_le := by simp, right_ge := by simp
               before_le := by simp, after_ge := by simp
               refill := fun Q ks' cs' _ hf => by simpa using hf }⟩
  | cons s ks ih =>
    match cs, h with
    | c :: cs, ⟨hc, ht⟩ =>
      have hlen := ht.length
      by_cases hx : x < s
      · -- the scan stops at once: the first cell, everything else to its right
        have hge := ht.chain (· ≤ ·) hP
        have hright : ∀ t ∈ s :: ks, s ≤ t := by
          intro t hmem
          rcases List.mem_cons.mp hmem with rfl | hmem
          · exact le_rfl
          · exact (hge.2.2 t hmem).1
        exact ⟨{ left := [], right := s :: ks, before := [], cell := c, after := cs
                 a := lo, b := s
                 keys_eq := rfl, cells_eq := rfl, left_length := by simp [List.findIdx_cons, hx]
                 before_length := rfl, lo_le := le_rfl, le_hi := hge.1, le := hlo, lt := hx
                 holds := hc, left_le := by simp, right_ge := hright, before_le := by simp
                 after_ge := fun d hd => by
                   obtain ⟨a', b', hd, hle, -⟩ := ht.within hP d hd
                   exact ⟨a', b', hd, hle⟩
                 refill := fun Q ks' cs' hQ hf => by
                   have ht' : Fence Q s hi ks cs :=
                     ht.imp (fun a b d hd => hQ a b d (by simpa using hd))
                   simpa using (append_iff s ks cs hf.length).mpr ⟨hf, ht'⟩ }⟩
      · have hsx : s ≤ x := le_of_not_gt hx
        obtain ⟨f⟩ := ih ht hsx
        exact ⟨{ left := s :: f.left, right := f.right, before := c :: f.before
                 cell := f.cell, after := f.after, a := f.a, b := f.b
                 keys_eq := by simp [← f.keys_eq], cells_eq := by simp [← f.cells_eq]
                 left_length := by simp [List.findIdx_cons, hx, f.left_length]
                 before_length := by simp [f.before_length]
                 lo_le := (hP lo s c hc).trans f.lo_le, le_hi := f.le_hi, le := f.le, lt := f.lt
                 holds := f.holds
                 left_le := by
                   intro t hmem
                   rcases List.mem_cons.mp hmem with rfl | hmem
                   · exact f.lo_le
                   · exact f.left_le t hmem
                 right_ge := f.right_ge
                 before_le := by
                   intro d hd
                   rcases List.mem_cons.mp hd with rfl | hd
                   · exact ⟨lo, s, hc, f.lo_le⟩
                   · exact f.before_le d hd
                 after_ge := f.after_ge
                 refill := fun Q ks' cs' hQ hf => by
                   have hhead : Q lo s c := hQ lo s c (by simp) hc
                   have htail := f.refill Q ks' cs'
                     (fun a b d hd => hQ a b d (by simp at hd ⊢; tauto)) hf
                   exact ⟨hhead, htail⟩ }⟩

end Fence
end XStore.Lib
