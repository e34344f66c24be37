import XStore.Lib.Tally
import XStore.Xkv.Lookup
import Mathlib.Algebra.BigOperators.Group.List.Basic
import Mathlib.Algebra.BigOperators.Ring.Finset
import Mathlib.Algebra.Order.BigOperators.Group.List

/-! How much memory the inner nodes take: `sz_inner` sums over the whole tree in an int, `sz_all`
level by level in usize. Here `size` is `sizeof(Inner)` and `bits` the width of a usize, which
the compiler fixes. -/
namespace XStore.Xkv
open XStore.Lib
variable {N : ℕ} {K V : Type}

/-- `sizeof(TreeInner)`: the separators and `up_key`, the children at a multiple of the 8 bytes of
a pointer, `num_keys`, and what fills up the last multiple of `align`. -/
def TreeInner.size (N keySize align : ℕ) : ℕ :=
  let childrens := (keySize * (N + 1) + 7) / 8 * 8
  (childrens + 8 * (N + 1) + 1 + (align - 1)) / align * align

/-- What an int keeps of a sum that was formed in usize. -/
def narrowInt (bits : ℕ) (x : ℤ) : ℤ := toInt32 (x % 2 ^ bits)

def narrowUsize (bits : ℕ) (x : ℤ) : ℤ := x % 2 ^ bits

namespace XTree

/-- `sz_inner_impl`. `auto cur_sz = 0` is an int; it is returned as a usize. -/
def szInnerImpl (size bits : ℕ) : ℕ → Option (RawPtr K) → Res Tally
  | depth + 1, some node => do
    let curSz := (Tally.lit 0).add (narrowInt bits) (.lit size)
    let inner ← node.asInner
    let curSz ← (List.range (inner.keys.length + 1)).foldlM (fun curSz i => do
      let child ← need inner.childrens[i]? .outOfRange
      let sz ← szInnerImpl size bits depth (some child)
      pure (curSz.add (narrowInt bits) sz)) curSz
    pure (curSz.convert (narrowUsize bits))
  | _, _ => pure ((Tally.lit 0).convert (narrowUsize bits))

def szInner (size bits : ℕ) (t : XTree K) : Res Tally := szInnerImpl size bits t.depth t.root

def szInnerAllImpl (size bits : ℕ) : ℕ → Option (RawPtr K) → List Tally → Res (List Tally)
  | depth + 1, some node, all => do
    let sz ← need all[depth]? .outOfRange
    let all := all.set depth (sz.add (narrowUsize bits) (.lit size))
    let inner ← node.asInner
    (List.range (inner.keys.length + 1)).foldlM (fun all i => do
      let child ← need inner.childrens[i]? .outOfRange
      szInnerAllImpl size bits depth (some child) all) all
  | _, _, all => pure all

def szAll (size bits : ℕ) (t : XTree K) : Res (List Tally) :=
  szInnerAllImpl size bits t.depth t.root (List.replicate t.depth (.lit 0))

end XTree

def RawPtr.innerNodes : ℕ → RawPtr K → List (TreeInner K (RawPtr K))
  | d + 1, .inner n => n :: n.childrens.flatMap (innerNodes d)
  | _, _ => []

def RawPtr.levelNodes (l : ℕ) : ℕ → RawPtr K → List (TreeInner K (RawPtr K))
  | d + 1, .inner n => if l = d then [n] else n.childrens.flatMap (levelNodes l d)
  | _, _ => []

theorem RawPtr.levelNodes_of_le {l d : ℕ} (h : d ≤ l) (t : RawPtr K) : t.levelNodes l d = [] := by
  induction d generalizing t with
  | zero => rfl
  | succ d ih =>
    cases t with
    | leaf p => rfl
    | inner n =>
      rw [levelNodes, if_neg (by omega), List.flatMap_eq_nil_iff]
      exact fun c _ => ih (by omega) c

def XTree.innerNodes (t : XTree K) : List (TreeInner K (RawPtr K)) :=
  t.root.elim [] (RawPtr.innerNodes t.depth)

def XTree.levelNodes (t : XTree K) (l : ℕ) : List (TreeInner K (RawPtr K)) :=
  t.root.elim [] (RawPtr.levelNodes l t.depth)

theorem sum_length_flatMap {α β : Type} (ls : List ℕ) (f : ℕ → α → List β) {g : α → List β}
    {cs : List α} (h : ∀ c ∈ cs, (ls.map (fun l => (f l c).length)).sum = (g c).length) :
    (ls.map (fun l => (cs.flatMap (f l)).length)).sum = (cs.flatMap g).length := by
  induction cs with
  | nil => simp
  | cons c cs ih =>
    simp only [List.flatMap_cons, List.length_append, List.sum_map_add]
    rw [h c (by simp), ih (fun d hd => h d (by simp [hd]))]

/-- All leaves are at depth `d`, and every node has one child more than separators. -/
def Uniform : ℕ → RawPtr K → Prop
  | 0, .leaf _ => True
  | d + 1, .inner n => n.childrens.length = n.keys.length + 1 ∧ ∀ c ∈ n.childrens, Uniform d c
  | _, _ => False

namespace Uniform
variable {d l i : ℕ} {t : RawPtr K} {n : TreeInner K (RawPtr K)}

theorem eq_leaf (h : Uniform 0 t) : ∃ p, t = .leaf p := by
  cases t with
  | leaf p => exact ⟨p, rfl⟩
  | inner n => exact False.elim h

theorem eq_inner (h : Uniform (d + 1) t) : ∃ n, t = .inner n ∧
    n.childrens.length = n.keys.length + 1 ∧ ∀ c ∈ n.childrens, Uniform d c := by
  cases t with
  | leaf p => exact False.elim h
  | inner n => exact ⟨n, rfl, h⟩

theorem mem_innerNodes (h : Uniform d t) : n ∈ t.innerNodes d ↔ ∃ i, t.Below i (.inner n) := by
  induction d generalizing t with
  | zero =>
    obtain ⟨p, rfl⟩ := h.eq_leaf
    simp only [RawPtr.innerNodes, List.not_mem_nil, false_iff]
    rintro ⟨i, hb⟩
    cases hb
  | succ d ih =>
    obtain ⟨n', rfl, -, hall⟩ := h.eq_inner
    simp only [RawPtr.innerNodes, List.mem_cons, List.mem_flatMap]
    constructor
    · intro hmem
      cases hmem with
      | inl heq => exact ⟨0, heq ▸ RawPtr.Below.refl _⟩
      | inr hmem =>
        obtain ⟨c, hc, hn⟩ := hmem
        obtain ⟨i, hb⟩ := (ih (hall c hc)).mp hn
        exact ⟨i + 1, RawPtr.Below.child hc hb⟩
    · rintro ⟨i, hb⟩
      cases hb with
      | refl => exact Or.inl rfl
      | child hc hb => exact Or.inr ⟨_, hc, (ih (hall _ hc)).mpr ⟨_, hb⟩⟩

theorem mem_levelNodes (h : Uniform d t) :
    n ∈ t.levelNodes l d ↔ ∃ i, i + l + 1 = d ∧ t.Below i (.inner n) := by
  induction d generalizing t with
  | zero =>
    obtain ⟨p, rfl⟩ := h.eq_leaf
    simp [RawPtr.levelNodes]
  | succ d ih =>
    obtain ⟨n', rfl, -, hall⟩ := h.eq_inner
    by_cases hl : l = d
    · simp only [RawPtr.levelNodes, if_pos hl, List.mem_singleton]
      constructor
      · rintro rfl
        exact ⟨0, by omega, RawPtr.Below.refl _⟩
      · rintro ⟨i, hi, hb⟩
        obtain rfl : i = 0 := by omega
        cases hb
        rfl
    · simp only [RawPtr.levelNodes, if_neg hl, List.mem_flatMap]
      constructor
      · rintro ⟨c, hc, hn⟩
        obtain ⟨i, hi, hb⟩ := (ih (hall c hc)).mp hn
        exact ⟨i + 1, by omega, RawPtr.Below.child hc hb⟩
      · rintro ⟨i, hi, hb⟩
        cases hb with
        | refl => omega
        | child hc hb => exact ⟨_, hc, (ih (hall _ hc)).mpr ⟨_, by omega, hb⟩⟩

theorem sum_levels (h : Uniform d t) :
    ((List.range d).map (fun l => (t.levelNodes l d).length)).sum = (t.innerNodes d).length := by
  induction d generalizing t with
  | zero =>
    obtain ⟨p, rfl⟩ := h.eq_leaf
    rfl
  | succ d ih =>
    obtain ⟨n, rfl, -, hall⟩ := h.eq_inner
    have hlow : (List.range d).map (fun l => ((RawPtr.inner n).levelNodes l (d + 1)).length) =
        (List.range d).map (fun l => (n.childrens.flatMap (RawPtr.levelNodes l d)).length) := by
      apply List.map_congr_left
      intro l hl
      rw [RawPtr.levelNodes, if_neg (List.mem_range.mp hl).ne]
    rw [List.range_succ, List.map_append, List.sum_append, hlow,
      sum_length_flatMap _ (fun l => RawPtr.levelNodes l d) (fun c hc => ih (hall c hc))]
    simp [RawPtr.levelNodes, RawPtr.innerNodes]

end Uniform

section Exact
variable {size bits : ℕ}

theorem holds_narrowInt (hbits : 31 ≤ bits) : Tally.Holds (narrowInt bits) (2 ^ 31) := by
  have hpow : (2 : ℤ) ^ 31 ≤ 2 ^ bits := pow_le_pow_right₀ (by decide) hbits
  intro n
  unfold narrowInt
  constructor
  · intro h
    have hlt := toInt32_lt ((n : ℤ) % 2 ^ bits)
    omega
  · intro h
    rw [Int.emod_eq_of_lt (by omega) (by omega)]
    exact toInt32_eq (by omega) (by omega)

theorem holds_narrowUsize : Tally.Holds (narrowUsize bits) (2 ^ bits) := by
  intro n
  unfold narrowUsize
  norm_cast
  exact Nat.mod_eq_iff_lt (by positivity)

/-- `sz_inner` gives the size of all inner nodes, changed by a narrowing exactly when an int
cannot hold it. -/
theorem szInnerImpl_tracks (hbits : 31 ≤ bits) {d : ℕ} {t : RawPtr K} (h : Uniform d t) :
    ∃ s, XTree.szInnerImpl size bits d (some t) = .ok s ∧
      s.Tracks (2 ^ 31) (size * (t.innerNodes d).length) := by
  have hint := holds_narrowInt hbits
  have husize : Tally.Holds (narrowUsize bits) (2 ^ bits) := holds_narrowUsize
  have hle : 2 ^ 31 ≤ 2 ^ bits := Nat.pow_le_pow_right (by decide) hbits
  induction d generalizing t with
  | zero =>
    obtain ⟨p, rfl⟩ := h.eq_leaf
    exact ⟨_, rfl, (Tally.tracks_zero (by decide)).convert husize hle⟩
  | succ d ih =>
    obtain ⟨n, rfl, hlen, hall⟩ := h.eq_inner
    have hstart : ((Tally.lit 0).add (narrowInt bits) (.lit size)).Tracks (2 ^ 31) (0 + size) :=
      (Tally.tracks_zero (by decide)).add_lit hint size
    obtain ⟨s, hrun, htracks⟩ := hstart.foldlM hint n.childrens
      (g := fun c => size * (c.innerNodes d).length) (fun c hc => ih (hall c hc))
    refine ⟨s.convert (narrowUsize bits), ?_, ?_⟩
    · rw [XTree.szInnerImpl, RawPtr.asInner, ok_bind, ← hlen, foldlM_getElem?, hrun]
      rfl
    · rw [RawPtr.innerNodes, List.length_cons, List.length_flatMap, Nat.mul_succ, Nat.add_comm,
        ← List.sum_map_mul_left]
      have hconv := htracks.convert husize hle
      rwa [Nat.zero_add] at hconv

structure Levels (bits depth : ℕ) (g : ℕ → ℕ) (all : List Tally) : Prop where
  length : all.length = depth
  tracks : ∀ l < depth, ∃ s, all[l]? = some s ∧ s.Tracks (2 ^ bits) (g l)

theorem Levels.set (size : ℕ) {depth d : ℕ} {g : ℕ → ℕ} {all : List Tally}
    (h : Levels bits depth g all) (hd : d < depth) : ∃ s, all[d]? = some s ∧
      Levels bits depth (fun l => g l + if l = d then size else 0)
        (all.set d (s.add (narrowUsize bits) (.lit size))) := by
  obtain ⟨s, hs, htracks⟩ := h.tracks d hd
  refine ⟨s, hs, by rw [List.length_set, h.length], ?_⟩
  intro l hl
  by_cases hld : l = d
  · subst hld
    refine ⟨_, List.getElem?_set_self (by rw [h.length]; exact hl), ?_⟩
    rw [if_pos rfl]
    exact htracks.add_lit holds_narrowUsize size
  · rw [List.getElem?_set_ne (Ne.symm hld), if_neg hld]
    exact h.tracks l hl

theorem Levels.foldlM {α : Type} {depth : ℕ} {f : List Tally → α → Res (List Tally)}
    {k : ℕ → α → ℕ} {g : ℕ → ℕ} {all : List Tally} (h : Levels bits depth g all) (cs : List α)
    (hf : ∀ c ∈ cs, ∀ g all, Levels bits depth g all →
      ∃ all', f all c = .ok all' ∧ Levels bits depth (fun l => g l + k l c) all') :
    ∃ all', cs.foldlM f all = .ok all' ∧
      Levels bits depth (fun l => g l + (cs.map (k l)).sum) all' := by
  induction cs generalizing g all with
  | nil => exact ⟨all, rfl, by simpa using h⟩
  | cons c cs ih =>
    obtain ⟨all₁, hrun₁, h₁⟩ := hf c (by simp) g all h
    obtain ⟨all₂, hrun₂, h₂⟩ := ih h₁ (fun d hd => hf d (by simp [hd]))
    refine ⟨all₂, ?_, ?_⟩
    · rw [List.foldlM_cons, hrun₁, ok_bind, hrun₂]
    · simpa only [List.map_cons, List.sum_cons, Nat.add_assoc] using h₂

theorem szInnerAllImpl_levels {depth d : ℕ} {t : RawPtr K} (h : Uniform d t) (hd : d ≤ depth)
    {g : ℕ → ℕ} {all : List Tally} (hall : Levels bits depth g all) :
    ∃ all', XTree.szInnerAllImpl size bits d (some t) all = .ok all' ∧
      Levels bits depth (fun l => g l + size * (t.levelNodes l d).length) all' := by
  induction d generalizing t g all with
  | zero =>
    obtain ⟨p, rfl⟩ := h.eq_leaf
    exact ⟨all, rfl, by simpa [RawPtr.levelNodes] using hall⟩
  | succ d ih =>
    obtain ⟨n, rfl, hlen, hch⟩ := h.eq_inner
    obtain ⟨s, hs, hset⟩ := hall.set size (by omega : d < depth)
    obtain ⟨all', hrun, h'⟩ := hset.foldlM
      (f := fun all c => XTree.szInnerAllImpl size bits d (some c) all)
      (k := fun l c => size * (c.levelNodes l d).length) n.childrens
      (fun c hc _ _ hg => ih (hch c hc) (by omega) hg)
    refine ⟨all', ?_, ?_⟩
    · rw [XTree.szInnerAllImpl, hs, need_some, ok_bind, RawPtr.asInner, ok_bind, ← hlen]
      rw [foldlM_getElem?, hrun]
    · have hlevel : ∀ l, g l + (if l = d then size else 0) +
          (n.childrens.map (fun c => size * (c.levelNodes l d).length)).sum =
          g l + size * ((RawPtr.inner n).levelNodes l (d + 1)).length := by
        intro l
        rw [List.sum_map_mul_left, ← List.length_flatMap]
        by_cases hl : l = d
        · subst hl
          have hnil : n.childrens.flatMap (RawPtr.levelNodes l l) = [] :=
            List.flatMap_eq_nil_iff.mpr (fun c _ => RawPtr.levelNodes_of_le le_rfl c)
          rw [hnil, RawPtr.levelNodes, if_pos rfl, if_pos rfl]
          simp
        · rw [RawPtr.levelNodes, if_neg hl, if_neg hl, Nat.add_zero]
      exact funext hlevel ▸ h'

/-- Whatever comes out is what an int held, read as a usize. -/
theorem szInnerImpl_value {d : ℕ} {root : Option (RawPtr K)} {s : Tally}
    (hs : XTree.szInnerImpl size bits d root = .ok s) :
    ∃ x, s.value = narrowUsize bits (narrowInt bits x) := by
  unfold XTree.szInnerImpl at hs
  split at hs
  · next depth node =>
    obtain ⟨inner, -, hs⟩ := bind_eq_ok.mp hs
    obtain ⟨curSz, hloop, hs⟩ := bind_eq_ok.mp hs
    cases hs
    have hvalue : ∃ x, curSz.value = narrowInt bits x := by
      refine foldlM_keeps (P := fun s => ∃ x, s.value = narrowInt bits x) ?_ hloop
        ⟨_, Tally.value_add _ _ _⟩
      intro s i s' hround _
      obtain ⟨child, -, hround⟩ := bind_eq_ok.mp hround
      obtain ⟨sz, -, hround⟩ := bind_eq_ok.mp hround
      cases hround
      exact ⟨_, Tally.value_add _ _ _⟩
    obtain ⟨x, hx⟩ := hvalue
    exact ⟨x, by rw [Tally.value_convert, hx]⟩
  · cases hs
    have hzero : narrowInt bits 0 = 0 := by simp [narrowInt, toInt32]
    exact ⟨0, by rw [Tally.value_convert, hzero]; rfl⟩

theorem narrowUsize_narrowInt (x : ℤ) : narrowUsize 64 (narrowInt 64 x) < 2 ^ 31 ∨
    2 ^ 64 - 2 ^ 31 ≤ narrowUsize 64 (narrowInt 64 x) := by
  unfold narrowUsize narrowInt
  have hge := le_toInt32 (x % 2 ^ 64)
  have hlt := toInt32_lt (x % 2 ^ 64)
  generalize toInt32 (x % 2 ^ 64) = y at hge hlt
  omega

/-- The root is a subtree of the tree's depth; without a root there is no depth. -/
def XTree.Uniform (t : XTree K) : Prop :=
  match t.root with
  | none => t.depth = 0
  | some root => Xkv.Uniform t.depth root

/-- Both functions give the size of the inner nodes, and no sum on the way was changed by the
variable that it is kept in. -/
structure SizesExact (size bits : ℕ) (t : XTree K) : Prop where
  inner : t.szInner size bits = .ok ⟨(size * t.innerNodes.length : ℕ), true⟩
  fits : size * t.innerNodes.length < 2 ^ 64
  all : ∃ all, t.szAll size bits = .ok all ∧ all.length = t.depth ∧
    (∀ l < t.depth, all[l]? = some ⟨(size * (t.levelNodes l).length : ℕ), true⟩) ∧
    (all.map Tally.value).sum = (size * t.innerNodes.length : ℕ)

namespace XTree
variable {t : XTree K}

theorem szInner_tracks (size : ℕ) (hbits : 31 ≤ bits) (h : t.Uniform) :
    ∃ s, t.szInner size bits = .ok s ∧ s.Tracks (2 ^ 31) (size * t.innerNodes.length) := by
  obtain ⟨depth, root⟩ := t
  cases root with
  | none =>
    obtain rfl : depth = 0 := h
    exact ⟨_, rfl, (Tally.tracks_zero (by decide)).convert holds_narrowUsize
      (Nat.pow_le_pow_right (by decide) hbits)⟩
  | some root => exact szInnerImpl_tracks hbits h

theorem szAll_levels (size bits : ℕ) (h : t.Uniform) :
    ∃ all, t.szAll size bits = .ok all ∧
      Levels bits t.depth (fun l => size * (t.levelNodes l).length) all := by
  obtain ⟨depth, root⟩ := t
  cases root with
  | none =>
    obtain rfl : depth = 0 := h
    exact ⟨[], rfl, rfl, fun l hl => absurd hl (Nat.not_lt_zero l)⟩
  | some root =>
    have hzero : Levels bits depth (fun _ => 0) (List.replicate depth (.lit 0)) := by
      refine ⟨List.length_replicate, fun l hl => ⟨.lit 0, ?_, Tally.tracks_zero (by positivity)⟩⟩
      rw [List.getElem?_replicate, if_pos hl]
    obtain ⟨all, hrun, hall⟩ := szInnerAllImpl_levels h le_rfl hzero
    exact ⟨all, hrun, by simpa [levelNodes] using hall⟩

theorem sum_levels (h : t.Uniform) :
    ((List.range t.depth).map (fun l => (t.levelNodes l).length)).sum = t.innerNodes.length := by
  obtain ⟨depth, root⟩ := t
  cases root with
  | none =>
    obtain rfl : depth = 0 := h
    rfl
  | some root => exact Xkv.Uniform.sum_levels h

theorem levelNodes_le (h : t.Uniform) {l : ℕ} (hl : l < t.depth) :
    (t.levelNodes l).length ≤ t.innerNodes.length := by
  rw [← sum_levels h]
  exact List.single_le_sum (by simp) _ (List.mem_map_of_mem (List.mem_range.mpr hl))

/-- The sizes are exact exactly as long as an int holds the size of all inner nodes. -/
theorem sizesExact_iff (hbits : 31 ≤ bits) (h : t.Uniform) :
    SizesExact size bits t ↔ size * t.innerNodes.length < 2 ^ 31 := by
  obtain ⟨s, hrun, htracks⟩ := szInner_tracks size hbits h
  constructor
  · intro hexact
    rw [hexact.inner] at hrun
    cases hrun
    exact htracks.exact_iff.mp rfl
  · intro hlt
    have hle : 2 ^ 31 ≤ 2 ^ bits := Nat.pow_le_pow_right (by decide) hbits
    obtain ⟨all, hall, hlevels⟩ := szAll_levels size bits h
    have hentry : ∀ l < t.depth,
        all[l]? = some ⟨(size * (t.levelNodes l).length : ℕ), true⟩ := by
      intro l hl
      obtain ⟨x, hx, hxt⟩ := hlevels.tracks l hl
      have hlevel := Nat.mul_le_mul_left size (levelNodes_le h hl)
      rw [hx, hxt.eq (by omega)]
    refine ⟨by rw [hrun, htracks.eq hlt], by omega, all, hall, hlevels.length, hentry, ?_⟩
    have hlist : all = (List.range t.depth).map
        (fun l => ⟨(size * (t.levelNodes l).length : ℕ), true⟩) := by
      apply List.ext_getElem?
      intro l
      by_cases hl : l < t.depth
      · rw [hentry l hl, List.getElem?_map, List.getElem?_range hl]
        rfl
      · rw [List.getElem?_eq_none (by rw [hlevels.length]; omega),
          List.getElem?_eq_none (by rw [List.length_map, List.length_range]; omega)]
    calc (all.map Tally.value).sum
        = ((List.range t.depth).map
            (fun l => ((size * (t.levelNodes l).length : ℕ) : ℤ))).sum := by
          rw [hlist, List.map_map]
          rfl
      _ = (((List.range t.depth).map (fun l => size * (t.levelNodes l).length)).sum : ℕ) := by
          rw [Nat.cast_list_sum, List.map_map]
          rfl
      _ = (size * t.innerNodes.length : ℕ) := by rw [List.sum_map_mul_left, sum_levels h]

end XTree
end Exact
end XStore.Xkv
