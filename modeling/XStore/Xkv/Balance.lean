import XStore.Xkv.Lookup
import Mathlib.Algebra.Group.Action.Defs
import Mathlib.Algebra.Order.BigOperators.Group.List

/-! How full the nodes are, and so how many keys a tree of a given depth holds. -/
namespace XStore.Xkv
open XStore.Lib
variable {N : ℕ} {K V : Type}

def RawPtr.numKeys [KeyType K] (m : Mem N K V) (d : ℕ) (root : RawPtr K) : ℕ :=
  ((root.leaves d).map (fun p => (m p).numKeys)).sum

/-- The tree of depth `d` is balanced: every node below the root is at least half full. -/
structure Balanced [KeyType K] (m : Mem N K V) (d : ℕ) (root : RawPtr K) : Prop where
  leaf_ge : 1 ≤ d → ∀ i p, root.Below i (.leaf p) → N / 2 ≤ (m p).numKeys
  leaf_le : ∀ i p, root.Below i (.leaf p) → (m p).numKeys ≤ N
  inner : ∀ i n, 0 < i → root.Below i (.inner n) →
    (N + 1) / 2 - 1 ≤ n.keys.length ∧ n.keys.length ≤ N
  top : ∀ n, root = .inner n → 1 ≤ n.keys.length ∧ n.keys.length ≤ N
  held : 1 ≤ d → 2 * ((N + 1) / 2) ^ (d - 1) * (N / 2) ≤ root.numKeys m d

section Leaves
variable {Q : K → K → Ptr → Prop} {lb d i c : ℕ} {lo hi : K} {t : RawPtr K}

theorem le_length_leaves {n : TreeInner K (RawPtr K)} {P : K → K → RawPtr K → Prop}
    (h : Fence P lo hi n.keys n.childrens) (hc : ∀ a b t, P a b t → c ≤ (t.leaves d).length) :
    (n.keys.length + 1) * c ≤ ((RawPtr.inner n).leaves (d + 1)).length := by
  have hall : ∀ x ∈ n.childrens.map (fun t => (t.leaves d).length), c ≤ x := by
    intro x hx
    obtain ⟨t, ht, rfl⟩ := List.mem_map.mp hx
    obtain ⟨j, hj⟩ := List.getElem?_of_mem ht
    obtain ⟨a, b, hP, -⟩ := h.getElem? hj
    exact hc a b t hP
  have hsum := List.card_nsmul_le_sum _ c hall
  rw [List.length_map, h.length, smul_eq_mul] at hsum
  rw [RawPtr.leaves, List.length_flatMap]
  exact hsum

namespace Shape

theorem keys_of_below {n : TreeInner K (RawPtr K)} (h : Shape N Q lb d lo hi t)
    (hb : t.Below i (.inner n)) :
    (if i = 0 then lb else halfKeys N) ≤ n.keys.length ∧ n.keys.length ≤ N := by
  induction d generalizing lb lo hi t i with
  | zero =>
    obtain ⟨q, rfl⟩ := h.eq_leaf
    cases hb
  | succ d ih =>
    obtain ⟨n', rfl, hlb, hN, hf⟩ := h.eq_inner
    cases hb with
    | refl => exact ⟨hlb, hN⟩
    | child hc hb =>
      obtain ⟨j, hj⟩ := List.getElem?_of_mem hc
      obtain ⟨a, b, hs, -⟩ := hf.getElem? hj
      have hkeys := ih hs hb
      rw [ite_self] at hkeys
      rw [if_neg (Nat.succ_ne_zero _)]
      exact hkeys

/-- A subtree whose nodes are all at least half full. -/
theorem pow_le_leaves (h : Shape N Q (halfKeys N) d lo hi t) :
    (halfKeys N + 1) ^ d ≤ (t.leaves d).length := by
  induction d generalizing lo hi t with
  | zero =>
    obtain ⟨q, rfl⟩ := h.eq_leaf
    simp [RawPtr.leaves]
  | succ d ih =>
    obtain ⟨n, rfl, hlb, -, hf⟩ := h.eq_inner
    calc (halfKeys N + 1) ^ (d + 1) = (halfKeys N + 1) * (halfKeys N + 1) ^ d := pow_succ' _ _
      _ ≤ (n.keys.length + 1) * (halfKeys N + 1) ^ d :=
        Nat.mul_le_mul_right _ (Nat.succ_le_succ hlb)
      _ ≤ _ := le_length_leaves hf (fun _ _ _ => ih)

theorem mul_pow_le_leaves (h : Shape N Q lb (d + 1) lo hi t) :
    (lb + 1) * (halfKeys N + 1) ^ d ≤ (t.leaves (d + 1)).length := by
  obtain ⟨n, rfl, hlb, -, hf⟩ := h.eq_inner
  calc (lb + 1) * (halfKeys N + 1) ^ d ≤ (n.keys.length + 1) * (halfKeys N + 1) ^ d :=
        Nat.mul_le_mul_right _ (Nat.succ_le_succ hlb)
    _ ≤ _ := le_length_leaves hf (fun _ _ _ => pow_le_leaves)

end Shape
end Leaves

section Tree
variable [LinearOrder K] [BoundedOrder K] {m : Mem N K V} {d : ℕ} {root : RawPtr K}
  {ops : Multiset (K × V)}

theorem RawPtr.numKeys_eq : root.numKeys m d = (entriesOf m (root.leaves d)).card := by
  unfold RawPtr.numKeys
  induction root.leaves d with
  | nil => rfl
  | cons p ps ih =>
    rw [List.map_cons, List.sum_cons, ih, entriesOf_cons, Multiset.card_add, numKeys_eq_card]

/-- At least half a leaf of keys for every leaf that the depth makes room for. -/
theorem TreeInv.held (hN : 2 ≤ N) (h : TreeInv (fun a b => a < b) m d root ops) (hd : 1 ≤ d) :
    2 * ((N + 1) / 2) ^ (d - 1) * (N / 2) ≤ root.numKeys m d := by
  cases d with
  | zero => cases hd
  | succ d =>
    have hall : ∀ x ∈ (root.leaves (d + 1)).map (fun p => (m p).numKeys), N / 2 ≤ x := by
      intro x hx
      obtain ⟨p, hp, rfl⟩ := List.mem_map.mp hx
      rw [numKeys_eq_card]
      exact h.half lt_irrefl hd p hp
    have hsum := List.card_nsmul_le_sum _ _ hall
    rw [List.length_map, smul_eq_mul] at hsum
    have hhalf : (N + 1) / 2 = halfKeys N + 1 := by
      unfold halfKeys
      omega
    rw [Nat.add_sub_cancel, hhalf]
    calc 2 * (halfKeys N + 1) ^ d * (N / 2) ≤ (root.leaves (d + 1)).length * (N / 2) :=
          Nat.mul_le_mul_right _ h.shape.mul_pow_le_leaves
      _ ≤ root.numKeys m (d + 1) := hsum

theorem TreeInv.balanced (hN : 2 ≤ N) (h : TreeInv (fun a b => a < b) m d root ops) :
    Balanced m d root where
  leaf_ge hd i p hp := by
    rw [numKeys_eq_card]
    exact h.half lt_irrefl hd p (h.shape.below_leaf hp).2
  leaf_le i p _ := by
    rw [numKeys_eq_card]
    exact (m p).card_entries_le
  inner i n hi hn := by
    have hkeys := h.shape.keys_of_below hn
    rw [if_neg hi.ne'] at hkeys
    exact hkeys
  top n hroot := by
    subst hroot
    exact h.shape.keys_of_below (RawPtr.Below.refl _)
  held := h.held hN

end Tree

/-- Inserts of distinct keys leave a balanced tree that holds as many keys as were inserted. -/
theorem insertAll_balanced [LinearOrder K] [BoundedOrder K] [StdSort] [Inhabited V] (hN : 3 ≤ N)
    (m : Mem N K V) (ops : List (K × V)) (hkeys : ∀ op ∈ ops, op.1 ≠ ⊤)
    (hd : (ops.map Prod.fst).Nodup) :
    ∃ w, (World.init m).insertAll ops = .ok w ∧ (ops ≠ [] → ∃ root,
      w.tree.root = some root ∧ Balanced w.mem w.tree.depth root ∧
      root.numKeys w.mem w.tree.depth = ops.length) := by
  have hN₂ : 2 ≤ N := by omega
  obtain ⟨w, hrun, hready⟩ := Ready.insertAll hN₂ (Or.inl ⟨m, rfl, rfl⟩) ops hkeys
    (by simpa using hd)
  refine ⟨w, hrun, fun hne => ?_⟩
  cases hready with
  | inl hinit =>
    obtain ⟨m', -, hzero⟩ := hinit
    simp [hne] at hzero
  | inr hinv =>
    obtain ⟨root, h⟩ := hinv
    refine ⟨root, h.root_eq, h.tree.balanced hN₂, ?_⟩
    rw [RawPtr.numKeys_eq, h.tree.entries, add_zero, Multiset.coe_card]

theorem insertAll_balanced_five :
    letI := insertionStdSort
    ∃ w root, (World.init (fun _ => XNode.new : Mem 3 XKey ℕ)).insertAll
        [(3, 30), (1, 10), (2, 20), (5, 50), (4, 40)] = .ok w ∧
      w.tree.root = some root ∧ Balanced w.mem w.tree.depth root ∧
      root.numKeys w.mem w.tree.depth = 5 := by
  let : StdSort := insertionStdSort
  obtain ⟨w, hrun, hall⟩ := insertAll_balanced (le_refl 3) (fun _ => XNode.new : Mem 3 XKey ℕ)
    [(3, 30), (1, 10), (2, 20), (5, 50), (4, 40)] (by decide) (by decide)
  obtain ⟨root, hroot, hbal⟩ := hall (by simp)
  exact ⟨w, root, hrun, hroot, hbal⟩

end XStore.Xkv
