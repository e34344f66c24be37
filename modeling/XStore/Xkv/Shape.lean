import XStore.Lib.Fence
import XStore.Xkv.InnerSplit
import XStore.Xkv.Tree

/-! The shape of the tree between its fences, the way from the root to a leaf, and the way
back up after that leaf was split. Nothing here looks into a leaf: what a leaf must satisfy
between its two fences is the parameter `Q`. -/
namespace XStore.Xkv
open XStore.Lib
variable {N : ℕ} {K V : Type} [LinearOrder K] [BoundedOrder K]

/-- What is known of two neighbouring fences: strictly ascending when keys are distinct,
ascending when they may repeat. -/
structure Bound (r : K → K → Prop) : Prop where
  le : ∀ {a b}, r a b → a ≤ b
  ne_top : ∀ {a b}, r a b → a ≠ ⊤
  trans_le : ∀ {a b c}, a ≤ b → r b c → r a c
  of_lt : ∀ {a b}, a < b → r a b
  refl : (∀ a, ¬ r a a) ∨ ∀ a, a ≠ ⊤ → r a a

namespace Bound
variable {r : K → K → Prop}

theorem lt : Bound (fun a b : K => a < b) where
  le h := le_of_lt h
  ne_top h := ne_top_of_lt h
  trans_le h h' := lt_of_le_of_lt h h'
  of_lt h := h
  refl := Or.inl (fun a => lt_irrefl a)

theorem le_ne_top : Bound (fun a b : K => a ≤ b ∧ a ≠ ⊤) where
  le h := h.1
  ne_top h := h.2
  trans_le h h' := ⟨h.trans h'.1, (lt_of_le_of_lt h (lt_top_iff_ne_top.mpr h'.2)).ne_top⟩
  of_lt h := ⟨h.le, h.ne_top⟩
  refl := Or.inr (fun _ h => ⟨le_rfl, h⟩)

theorem of_le (hr : Bound r) {a b : K} (hle : a ≤ b) (ha : a ≠ ⊤)
    (hne : (∀ a, ¬ r a a) → a ≠ b) : r a b := by
  rcases hle.lt_or_eq with hlt | rfl
  · exact hr.of_lt hlt
  · cases hr.refl with
    | inl hirr => exact absurd rfl (hne hirr)
    | inr hrefl => exact hrefl a ha

theorem isTrans (hr : Bound r) : IsTrans K r := ⟨fun _ _ _ h h' => hr.trans_le (hr.le h) h'⟩

end Bound

def RawPtr.leaves : ℕ → RawPtr K → List Ptr
  | 0, .leaf p => [p]
  | d + 1, .inner n => n.childrens.flatMap (leaves d)
  | _, _ => []

/-- A subtree of depth `d` between two fences: leaves at depth 0 only, every node with at
least `lb` separators, every node below it with at least half. -/
def Shape (N : ℕ) (Q : K → K → Ptr → Prop) : ℕ → ℕ → K → K → RawPtr K → Prop
  | _, 0, lo, hi, .leaf p => Q lo hi p
  | lb, d + 1, lo, hi, .inner n => lb ≤ n.keys.length ∧ n.keys.length ≤ N ∧
      Fence (Shape N Q (halfKeys N) d) lo hi n.keys n.childrens
  | _, _, _, _, _ => False

/-- The way back up: hang the new leaf `c` with the separator `up` beside the leaf that the
key leads to. A node that splits hands its sibling and a separator to its parent. -/
def link (N : ℕ) : ℕ → RawPtr K → K → K → Ptr → Res (RawPtr K × Option (K × RawPtr K))
  | 0, t, _, up, c => do
    let _ ← t.asLeaf
    pure (t, some (up, .leaf c))
  | d + 1, t, key, up, c => do
    let n ← t.asInner
    let k := n.findChildrenIdx key
    let child ← need n.childrens[k]? .outOfRange
    let (child, new) ← link N d child key up c
    let n := { n with childrens := n.childrens.set k child }
    match new with
    | some (up, s) => do
      let (n, sib) ← n.insertToMe N k up s
      pure (.inner n, sib.map (fun s => (s.upKey, .inner s)))
    | none => pure (.inner n, none)

/-- The separator that a node would hand up if the leaf under it split: a full node on the
path of full nodes hands up its middle separator. -/
def exported (N : ℕ) (leafUp : Ptr → Option K) (key : K) : ℕ → RawPtr K → Option K
  | 0, .leaf p => leafUp p
  | d + 1, .inner n =>
    match n.childrens[n.findChildrenIdx key]? with
    | some child =>
      if (exported N leafUp key d child).isSome ∧ n.keys.length = N then n.keys[halfKeys N]?
      else none
    | none => none
  | _, _ => none

/-- Somewhere on the path of `key` a full node with middle separator `mid` would be handed a
separator at or above `mid` by a child that stands left of `mid`. -/
def Collides (N : ℕ) (leafUp : Ptr → Option K) (key : K) : ℕ → RawPtr K → Prop
  | d + 1, .inner n => ∃ child, n.childrens[n.findChildrenIdx key]? = some child ∧
      (Collides N leafUp key d child ∨ ∃ up mid, exported N leafUp key d child = some up ∧
        n.keys.length = N ∧ n.keys[halfKeys N]? = some mid ∧ key < mid ∧ mid ≤ up)
  | _, _ => False

/-- What comes back from a subtree between its old fences: one node, or two around a
separator. -/
def Relinked (N : ℕ) (Q : K → K → Ptr → Prop) (lb d : ℕ) (lo hi : K) :
    RawPtr K × Option (K × RawPtr K) → Prop
  | (t, none) => Shape N Q lb d lo hi t
  | (t, some (up, s)) => Fence (Shape N Q (halfKeys N) d) lo hi [up] [t, s]

def relinkedLeaves (d : ℕ) : RawPtr K × Option (K × RawPtr K) → List Ptr
  | (t, none) => t.leaves d
  | (t, some (_, s)) => t.leaves d ++ s.leaves d

namespace Shape
variable {Q Q' : K → K → Ptr → Prop} {r : K → K → Prop} {lb d : ℕ} {lo hi : K} {t : RawPtr K}

omit [LinearOrder K] [BoundedOrder K] in
theorem eq_leaf (h : Shape N Q lb 0 lo hi t) : ∃ p, t = .leaf p := by
  cases t with
  | leaf p => exact ⟨p, rfl⟩
  | inner n => exact False.elim h

omit [LinearOrder K] [BoundedOrder K] in
theorem eq_inner (h : Shape N Q lb (d + 1) lo hi t) : ∃ n, t = .inner n ∧
    lb ≤ n.keys.length ∧ n.keys.length ≤ N ∧
    Fence (Shape N Q (halfKeys N) d) lo hi n.keys n.childrens := by
  cases t with
  | leaf p => exact False.elim h
  | inner n => exact ⟨n, rfl, h⟩

omit [LinearOrder K] [BoundedOrder K] in
theorem imp (hQ : ∀ a b, ∀ p ∈ t.leaves d, Q a b p → Q' a b p) (h : Shape N Q lb d lo hi t) :
    Shape N Q' lb d lo hi t := by
  induction d generalizing lb lo hi t with
  | zero =>
    obtain ⟨p, rfl⟩ := h.eq_leaf
    exact hQ lo hi p (by simp [RawPtr.leaves]) h
  | succ d ih =>
    obtain ⟨n, rfl, hlb, hN, h⟩ := h.eq_inner
    refine ⟨hlb, hN, h.imp ?_⟩
    intro a b c hc hs
    refine ih (fun a b p hp => hQ a b p ?_) hs
    exact List.mem_flatMap.mpr ⟨c, hc, hp⟩

theorem fences (hr : Bound r) (hQ : ∀ a b p, Q a b p → r a b) (h : Shape N Q lb d lo hi t) :
    r lo hi := by
  induction d generalizing lb lo hi t with
  | zero =>
    obtain ⟨p, rfl⟩ := h.eq_leaf
    exact hQ lo hi p h
  | succ d ih =>
    obtain ⟨n, rfl, -, -, h⟩ := h.eq_inner
    have := hr.isTrans
    exact (h.chain r (fun _ _ _ => ih)).1

theorem fences_le (hr : Bound r) (hQ : ∀ a b p, Q a b p → r a b)
    (h : Shape N Q lb d lo hi t) : lo ≤ hi := hr.le (h.fences hr hQ)

/-- Every leaf has fences of its own, inside the fences of the subtree. -/
theorem leaf_of_mem (hr : Bound r) (hQ : ∀ a b p, Q a b p → r a b)
    (h : Shape N Q lb d lo hi t) : ∀ p ∈ t.leaves d, ∃ a b, Q a b p ∧ lo ≤ a ∧ b ≤ hi := by
  induction d generalizing lb lo hi t with
  | zero =>
    obtain ⟨p, rfl⟩ := h.eq_leaf
    intro q hq
    obtain rfl := List.mem_singleton.mp hq
    exact ⟨lo, hi, h, le_rfl, le_rfl⟩
  | succ d ih =>
    obtain ⟨n, rfl, -, -, h⟩ := h.eq_inner
    intro q hq
    obtain ⟨c, hc, hq⟩ := List.mem_flatMap.mp hq
    obtain ⟨a, b, hs, hlo, hhi⟩ := h.within (fun _ _ _ => fences_le hr hQ) c hc
    obtain ⟨a', b', hq', hlo', hhi'⟩ := ih hs q hq
    exact ⟨a', b', hq', hlo.trans hlo', hhi'.trans hhi⟩

end Shape
end XStore.Xkv
