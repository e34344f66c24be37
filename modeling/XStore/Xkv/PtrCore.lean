import XStore.Xkv.PtrInsert
import XStore.Xkv.Spare

/-! The tree in memory: `insert_core` and `get` on its cells do what they do to the tree that the
cells stand for, and keep every inner node below one parent. -/
namespace XStore.Xkv
open XStore.Lib
variable {T : Type} {N : ℕ} {K V : Type}

def XTree.insertAtRoot [KeyType K] [StdSort] (m : Mem N K V) (depth : ℕ) (root : RawPtr K) (k : K)
    (v : V) (newLeaf : Option Ptr) (ret : Bool) : Res (Mem N K V × XTree K × Bool) :=
  match depth with
  | 0 => do
    let oldLeaf ← root.asLeaf
    let leaf ← need newLeaf (.assert .newLeafNotNull)
    let (m, split) ← rawInsert m oldLeaf k v (some leaf)
    if split then
      let upKey ← (m leaf).firstKey
      pure (m, ⟨1, some (.inner (.newRoot upKey (.leaf oldLeaf) (.leaf leaf)))⟩, true)
    else pure (m, ⟨0, some root⟩, ret)
  | depth + 1 => do
    let inner ← root.asInner
    let (m, inner, newSib, whetherSplit) ← inner.insert (depth + 1) m k v newLeaf
    match newSib with
    | some sib =>
      pure (m, ⟨depth + 2, some (.inner (.newRoot sib.upKey (.inner inner) (.inner sib)))⟩,
        whetherSplit)
    | none => pure (m, ⟨depth + 1, some (.inner inner)⟩, whetherSplit)

section Branches
variable [KeyType K] [StdSort] {m : Mem N K V} {d : ℕ} {k : K} {v : V} {newLeaf : Option Ptr}

theorem XTree.insertCore_of_none : XTree.insertCore m ⟨d, none⟩ k v newLeaf =
    (do
      let leaf ← need newLeaf (.assert .newLeafNotNull)
      insertAtRoot m d (.leaf leaf) k v newLeaf true) := by
  cases newLeaf <;> cases d <;> rfl

theorem XTree.insertCore_of_some (root : RawPtr K) :
    XTree.insertCore m ⟨d, some root⟩ k v newLeaf = insertAtRoot m d root k v newLeaf false := by
  cases d <;> rfl

end Branches

namespace Heap

def treeNodes (h : Heap T N K V) : Multiset (InnerPtr T) := h.root.elim 0 (h.nodes h.depth)

def Owned (h : Heap T N K V) : Prop := h.Apart h.treeNodes

section Core
variable [LinearOrder K] [BoundedOrder K] [DecidableEq T] {P : Ptr → Prop}
  {h : Heap T N K V} {d : ℕ} {a : InnerPtr T} {t : T} {key : K} {r : NodePtr T} {v : V}
  {newLeaf : Option Ptr} {ret : Bool}

theorem findLeafFrom_sim (h : Heap T N K V) (d : ℕ) (c : NodePtr T) :
    Sim P (PtrTree.findLeafFrom key d c) h (XTree.findLeafFrom key d (h.denote d c))
      (fun p q h' => q = p ∧ h' = h ∧ p ∈ (h.denote d c).leaves d) := by
  induction d generalizing c with
  | zero =>
    refine (Code.Sim.related (asLeaf_related h c)).mono ?_
    rintro p _ h ⟨-, ⟨rfl, rfl⟩, rfl⟩
    exact ⟨rfl, rfl, by simp [RawPtr.leaves]⟩
  | succ d ih =>
    refine (Code.Sim.related (asInner_related h d c)).bind ?_
    rintro _ a h ⟨-, ⟨rfl, rfl⟩, rfl⟩
    refine .skip loadInner_ends ?_
    simp only [TreeInner.findChildren, innerAt_findChildrenIdx, innerAt_child]
    refine (Code.Sim.related (TreeInner.need_map _ _ _)).bind ?_
    rintro _ child h ⟨hchild, rfl, rfl⟩
    refine (ih child).mono ?_
    rintro p _ h ⟨rfl, rfl, hp⟩
    exact ⟨rfl, rfl, mem_leaves_child (List.mem_of_getElem? (need_eq_ok.mp hchild)) hp⟩

theorem findLeaf_sim (h : Heap T N K V) :
    Sim P (PtrTree.findLeaf key) h (h.tree.findLeaf key)
      (fun p q h' => q = p ∧ h' = h ∧ ∀ c, p = some c → c ∈ h.tree.leaves) := by
  refine .skip loadRoot_ends (.skip loadDepth_ends ?_)
  obtain ⟨depth, root, inner, leaf, arena⟩ := h
  cases root with
  | none =>
    simp only [XTree.findLeaf, tree, Option.map_none]
    cases depth with
    | zero => exact .pure ⟨rfl, rfl, fun c hc => by cases hc⟩
    | succ d => exact .fail _
  | some r =>
    simp only [XTree.findLeaf, tree, Option.map_some]
    refine (findLeafFrom_sim _ depth r).bind ?_
    rintro p _ h ⟨rfl, rfl, hp⟩
    refine .pure ⟨rfl, rfl, fun c hc => ?_⟩
    obtain rfl := Option.some.inj hc
    exact hp

theorem get_sim (hP : ∀ p ∈ h.tree.leaves, P p) :
    Sim P (PtrTree.get key) h (h.tree.get h.leaf key) (fun b a h' => a = b ∧ h' = h) := by
  refine (findLeaf_sim h).bind ?_
  rintro _ leaf h ⟨rfl, rfl, hleaf⟩
  cases leaf with
  | none => exact .fail _
  | some p =>
    have hp : P p := hP p (hleaf p rfl)
    refine .skip (.lift (need_some _ _)) (.skip (loadLeaf_ends hp) ?_)
    simp only [need_some, ok_bind]
    cases (h.leaf p).search key with
    | none => exact .pure ⟨rfl, rfl⟩
    | some idx => exact .skip (loadLeaf_ends hp) (.pure ⟨rfl, rfl⟩)

variable [StdSort]

structure Grew (b : Mem N K V × XTree K × Bool) (ret : Bool) (h : Heap T N K V) : Prop where
  leaf : h.leaf = b.1
  tree : h.tree = b.2.1
  ret : ret = b.2.2
  owned : h.Owned

def grow (h : Heap T N K V) (t : T) (d : ℕ) (n : TreeInner K (NodePtr T)) : Heap T N K V :=
  { h.alloc t n with
    depth := d + 1
    root := some (.inner (t, h.arena t)) }

omit [StdSort] in
theorem grow_stands (up : K) {l : NodePtr T} (hown : h.Apart (h.nodes d l + h.nodes d r)) :
    (h.grow t d (.newRoot up l r)).tree =
        ⟨d + 1, some (.inner (.newRoot up (h.denote d l) (h.denote d r)))⟩ ∧
      (h.grow t d (.newRoot up l r)).Owned := by
  let h' := h.grow t d (.newRoot up l r)
  let new : InnerPtr T := (t, h.arena t)
  have hfresh : ∀ x ∈ h.nodes d l + h.nodes d r, x ≠ new := by
    rintro _ hx rfl
    exact lt_irrefl _ (hown.allocated new hx)
  have hself : h'.inner new = .newRoot up l r := Function.update_self _ _ _
  have hchild : ∀ c ∈ (TreeInner.newRoot up l r).childrens,
      h'.nodes d c = h.nodes d c ∧ h'.denote d c = h.denote d c := by
    intro c hc
    refine agree fun x hx => Function.update_of_ne (hfresh x ?_) _ _
    rcases List.mem_pair.mp hc with rfl | rfl
    · exact Multiset.mem_add.mpr (Or.inl hx)
    · exact Multiset.mem_add.mpr (Or.inr hx)
  obtain ⟨hat, hnodes⟩ := innerAt_congr hself hchild
  have hbelow : h'.nodes (d + 1) (.inner new) = new ::ₘ (h.nodes d l + h.nodes d r) := by
    rw [hnodes]
    change new ::ₘ ((l ::ₘ r ::ₘ 0 : Multiset (NodePtr T)).bind (h.nodes d)) = _
    rw [Multiset.cons_bind, Multiset.cons_bind, Multiset.zero_bind, add_zero]
  constructor
  · change XTree.mk (d + 1) (some (RawPtr.inner (h'.innerAt d new))) = _
    rw [hat]
    rfl
  · change h'.Apart (h'.nodes (d + 1) (.inner new))
    rw [hbelow]
    refine ⟨Multiset.nodup_cons.mpr ⟨fun hx => hfresh new hx rfl, hown.nodup⟩, fun x hx => ?_⟩
    have hsame : h'.arena t = h.arena t + 1 := Function.update_self _ _ _
    rcases Multiset.mem_cons.mp hx with rfl | hx
    · exact hsame ▸ Nat.lt_succ_self _
    · by_cases ht : x.1 = t
      · have hlt := hown.allocated x hx
        rw [ht] at hlt ⊢
        omega
      · exact lt_of_lt_of_eq (hown.allocated x hx) (Function.update_of_ne ht _ _).symm

omit [DecidableEq T] [LinearOrder K] [BoundedOrder K] [StdSort] in
theorem owned_of_leaf {p : Ptr} (h : Heap T N K V) (hroot : h.root = some (.leaf p)) : h.Owned := by
  rw [Owned, treeNodes, hroot, Option.elim_some, nodes_leaf]
  exact ⟨Multiset.nodup_zero, fun x hx => absurd hx (Multiset.notMem_zero x)⟩

theorem insertAtRoot_sim (hroot : h.root = some r) (hcand : ∀ c, newLeaf = some c → P c)
    (hown : h.Apart (h.nodes h.depth r)) (hP : ∀ p ∈ (h.denote h.depth r).leaves h.depth, P p) :
    Sim P (PtrTree.insertAtRoot t key v newLeaf ret) h
      (XTree.insertAtRoot h.leaf h.depth (h.denote h.depth r) key v newLeaf ret) Grew := by
  refine .skip loadDepth_ends (.skip loadRoot_ends ?_)
  rw [hroot]
  refine .skip (.lift (need_some _ _)) ?_
  obtain ⟨depth, root, inner, leaf, arena⟩ := h
  obtain rfl : root = some r := hroot
  cases depth with
  | zero =>
    refine (Code.Sim.related (asLeaf_related _ r)).bind ?_
    rintro oldLeaf _ h ⟨-, ⟨rfl, rfl⟩, rfl⟩
    cases newLeaf with
    | none => exact .fail _
    | some c =>
      refine .skip (.lift (need_some _ _)) ?_
      simp only [need_some, ok_bind]
      have hold : P oldLeaf := hP oldLeaf (by simp [RawPtr.leaves])
      refine (rawInsert_sim hold (fun c hc => hcand c hc)).bind ?_
      rintro ⟨m, _⟩ split _ ⟨rfl, rfl⟩
      cases split with
      | false => exact .pure ⟨rfl, rfl, rfl, owned_of_leaf _ rfl⟩
      | true =>
        refine .skip (loadLeaf_ends (hcand c rfl)) ?_
        refine (Code.Sim.lift (Q := fun x y h' => x = y ∧ h' = _) _ (fun _ _ => ⟨rfl, rfl⟩)).bind ?_
        rintro upKey _ _ ⟨rfl, rfl⟩
        refine .skip (newInner_ends _) (.skip (storeRoot_ends _) ?_)
        refine .skip loadDepth_ends (.skip (storeDepth_ends _) ?_)
        obtain ⟨htree, howned⟩ := grow_stands (t := t) (d := 0) (l := .leaf oldLeaf) (r := .leaf c)
          (h := Heap.mk 0 (some (.leaf oldLeaf)) inner m arena) upKey
          ⟨Multiset.nodup_zero, fun x hx => absurd hx (Multiset.notMem_zero x)⟩
        exact .pure ⟨rfl, htree, rfl, howned⟩
  | succ d =>
    refine (Code.Sim.related (asInner_related _ d r)).bind ?_
    rintro _ a h ⟨-, ⟨rfl, rfl⟩, rfl⟩
    refine (insert_sim hcand d a _ hown hP).bind ?_
    rintro ⟨m, tree, newSib, whetherSplit⟩ ⟨sib, split⟩ h₁ ⟨rfl, rfl, rfl, rfl, hgrown⟩
    have hroot₁ : h₁.root = some (.inner a) := hgrown.root
    have hdepth₁ : h₁.depth = d + 1 := hgrown.depth
    cases sib with
    | none =>
      refine .pure ⟨rfl, ?_, rfl, ?_⟩
      · rw [tree, hroot₁, hdepth₁]
        rfl
      · rw [Owned, treeNodes, hroot₁, hdepth₁]
        simpa using hgrown.apart
    | some s =>
      refine .skip loadDepth_ends (.skip (storeDepth_ends _) ?_)
      refine .skip loadInner_ends (.skip loadRoot_ends ?_)
      have hneed : need (h₁.setDepth (h₁.depth + 1)).root .nullDeref = .ok (.inner a) :=
        congrArg (fun r => need r .nullDeref) hroot₁
      refine .skip (.lift hneed) ?_
      refine .skip (newInner_ends _) (.skip (storeRoot_ends _) ?_)
      rw [hdepth₁]
      obtain ⟨htree, howned⟩ := grow_stands (t := t) (h₁.inner s).upKey hgrown.apart
      exact .pure ⟨rfl, htree, rfl, howned⟩

theorem insertCore_sim (hcand : ∀ c, newLeaf = some c → P c) (hown : h.Owned)
    (hP : ∀ p ∈ h.tree.leaves, P p) :
    Sim P (PtrTree.insertCore t key v newLeaf) h (h.tree.insertCore h.leaf key v newLeaf) Grew := by
  refine .skip loadRoot_ends ?_
  obtain ⟨depth, root, inner, leaf, arena⟩ := h
  cases root with
  | none =>
    cases newLeaf with
    | none =>
      rw [tree, Option.map_none, XTree.insertCore_of_none]
      exact .fail _
    | some c =>
      rw [tree, Option.map_none, XTree.insertCore_of_none, need_some, ok_bind]
      refine .skip (.lift (need_some c (.assert .newLeafNotNull))) (.skip (storeRoot_ends _) ?_)
      let h₁ : Heap T N K V := ⟨depth, some (.leaf c), inner, leaf, arena⟩
      have hsim : Sim P (PtrTree.insertAtRoot t key v (some c) true) h₁
          (XTree.insertAtRoot leaf depth (h₁.denote depth (.leaf c)) key v (some c) true) Grew := by
        refine insertAtRoot_sim rfl hcand (h₁.owned_of_leaf rfl) fun p hp => ?_
        rw [denote_leaf] at hp
        cases depth with
        | zero =>
          obtain rfl := List.mem_singleton.mp hp
          exact hcand _ rfl
        | succ d => cases hp
      rwa [denote_leaf] at hsim
  | some r =>
    rw [tree, Option.map_some, XTree.insertCore_of_some]
    exact insertAtRoot_sim rfl hcand hown hP

end Core
end Heap
end XStore.Xkv
