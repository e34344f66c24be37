import Mathlib.Data.Multiset.Bind
import XStore.Xkv.KeyMapTree
import XStore.Xkv.PtrTree

/-! What the memory of a tree holds, the tree that it stands for, and the code of a leaf on it. -/
namespace XStore.Xkv
open XStore.Lib
variable {T : Type} {N : ℕ} {K V α β : Type}

structure Heap (T : Type) (N : ℕ) (K V : Type) where
  depth : ℕ
  root : Option (NodePtr T)
  inner : InnerPtr T → TreeInner K (NodePtr T)
  leaf : Mem N K V
  arena : T → ℕ

namespace Heap

def cells (h : Heap T N K V) : TreeCell T → TreeWord T N K V
  | .depth => .depth h.depth
  | .root => .root h.root
  | .inner a => .inner (h.inner a)
  | .leaf p => .leaf (h.leaf p)
  | .arena t => .arena (h.arena t)

section Denote
variable [KeyType K]

/-- The subtree that a node at depth `d` stands for. -/
def denote (h : Heap T N K V) : ℕ → NodePtr T → RawPtr K
  | _, .leaf p => .leaf p
  | 0, .inner _ => .inner .new
  | d + 1, .inner a => .inner ((h.inner a).map id (denote h d))

def innerAt (h : Heap T N K V) (d : ℕ) (a : InnerPtr T) : TreeInner K (RawPtr K) :=
  (h.inner a).map id (h.denote d)

def nodes (h : Heap T N K V) : ℕ → NodePtr T → Multiset (InnerPtr T)
  | d + 1, .inner a => a ::ₘ ((h.inner a).childrens : Multiset (NodePtr T)).bind (nodes h d)
  | _, _ => 0

def tree (h : Heap T N K V) : XTree K where
  depth := h.depth
  root := h.root.map (h.denote h.depth)

variable {h h' : Heap T N K V} {d : ℕ} {a : InnerPtr T} {c : NodePtr T}

@[simp] theorem denote_leaf (p : Ptr) : h.denote d (.leaf p) = .leaf p := by cases d <;> rfl

@[simp] theorem denote_inner : h.denote (d + 1) (.inner a) = .inner (h.innerAt d a) := rfl

omit [KeyType K] in
@[simp] theorem nodes_leaf (p : Ptr) : h.nodes d (.leaf p) = 0 := by cases d <;> rfl

omit [KeyType K] in
theorem nodes_inner : h.nodes (d + 1) (.inner a) =
    a ::ₘ ((h.inner a).childrens : Multiset (NodePtr T)).bind (h.nodes d) := rfl

theorem agree (heq : ∀ a ∈ h.nodes d c, h'.inner a = h.inner a) :
    h'.nodes d c = h.nodes d c ∧ h'.denote d c = h.denote d c := by
  induction d generalizing c with
  | zero => cases c <;> exact ⟨rfl, rfl⟩
  | succ d ih =>
    cases c with
    | leaf p => exact ⟨rfl, rfl⟩
    | inner a =>
      have hself : h'.inner a = h.inner a := heq a (Multiset.mem_cons_self _ _)
      have hchild : ∀ c ∈ (h.inner a).childrens,
          h'.nodes d c = h.nodes d c ∧ h'.denote d c = h.denote d c := by
        intro c hc
        refine ih fun x hx => heq x (Multiset.mem_cons_of_mem ?_)
        exact Multiset.mem_bind.mpr ⟨c, hc, hx⟩
      constructor
      · rw [nodes_inner, nodes_inner, hself]
        exact congrArg (a ::ₘ ·) (Multiset.bind_congr fun c hc => (hchild c hc).1)
      · rw [denote_inner, denote_inner, innerAt, innerAt, hself, TreeInner.map, TreeInner.map]
        rw [List.map_congr_left fun c hc => (hchild c hc).2]

end Denote

/-! ### The cells, one by one -/

def setDepth (h : Heap T N K V) (d : ℕ) : Heap T N K V := { h with depth := d }
def setRoot (h : Heap T N K V) (r : NodePtr T) : Heap T N K V := { h with root := some r }
def setLeaf (h : Heap T N K V) (m : Mem N K V) : Heap T N K V := { h with leaf := m }

@[simp] theorem setLeaf_leaf (h : Heap T N K V) (m : Mem N K V) : (h.setLeaf m).leaf = m := rfl

@[simp] theorem setLeaf_nodes (h : Heap T N K V) (m : Mem N K V) (d : ℕ) (c : NodePtr T) :
    (h.setLeaf m).nodes d c = h.nodes d c := by
  induction d generalizing c with
  | zero => cases c <;> rfl
  | succ d ih =>
    cases c with
    | leaf p => rfl
    | inner a => exact congrArg (a ::ₘ ·) (Multiset.bind_congr fun c _ => ih c)

@[simp] theorem setLeaf_denote [KeyType K] (h : Heap T N K V) (m : Mem N K V) (d : ℕ)
    (c : NodePtr T) : (h.setLeaf m).denote d c = h.denote d c :=
  (agree fun _ _ => show (h.setLeaf m).inner _ = h.inner _ from rfl).2

@[simp] theorem setLeaf_innerAt [KeyType K] (h : Heap T N K V) (m : Mem N K V) (d : ℕ)
    (a : InnerPtr T) : (h.setLeaf m).innerAt d a = h.innerAt d a := by
  rw [innerAt, innerAt, show (h.setLeaf m).denote d = h.denote d from funext (h.setLeaf_denote m d)]
  rfl

variable [DecidableEq T]

def setInner (h : Heap T N K V) (a : InnerPtr T) (n : TreeInner K (NodePtr T)) : Heap T N K V :=
  { h with inner := Function.update h.inner a n }

def alloc (h : Heap T N K V) (t : T) (n : TreeInner K (NodePtr T)) : Heap T N K V :=
  { h with inner := Function.update h.inner (t, h.arena t) n
           arena := Function.update h.arena t (h.arena t + 1) }

/-- All cells but those of other leaves. -/
def LeafIn (P : Ptr → Prop) : TreeCell T → Prop
  | .leaf p => P p
  | _ => True

abbrev Ends (P : Ptr → Prop) (c : TreeCode T N K V α) (h : Heap T N K V) (a : α)
    (h' : Heap T N K V) : Prop :=
  Code.Ends cells (LeafIn P) c h a h'

abbrev Sim (P : Ptr → Prop) (c : TreeCode T N K V α) (h : Heap T N K V) (x : Res β)
    (Q : β → α → Heap T N K V → Prop) : Prop :=
  Code.Sim cells (LeafIn P) c h x Q

section Access
variable {P : Ptr → Prop} {h : Heap T N K V} {p : Ptr} {a : InnerPtr T} {t : T}

open PtrTree

theorem loadDepth_ends : Ends P loadDepth h h.depth h :=
  (Code.Ends.load (l := TreeCell.depth) trivial).bind (.pure h.depth)

theorem loadRoot_ends : Ends P loadRoot h h.root h :=
  (Code.Ends.load (l := TreeCell.root) trivial).bind (.pure h.root)

theorem loadInner_ends : Ends P (loadInner a) h (h.inner a) h :=
  (Code.Ends.load (l := TreeCell.inner a) trivial).bind (.pure (h.inner a))

theorem loadArena_ends : Ends P (loadArena t) h (h.arena t) h :=
  (Code.Ends.load (l := TreeCell.arena t) trivial).bind (.pure (h.arena t))

theorem loadLeaf_ends (hp : P p) : Ends P (loadLeaf p) h (h.leaf p) h :=
  (Code.Ends.load (l := TreeCell.leaf p) hp).bind (.pure (h.leaf p))

theorem storeDepth_ends (d : ℕ) : Ends P (storeDepth d) h () (h.setDepth d) := by
  refine .store trivial (funext fun l => ?_)
  cases l <;> simp [cells, setDepth]

theorem storeRoot_ends (r : NodePtr T) : Ends P (storeRoot r) h () (h.setRoot r) := by
  refine .store trivial (funext fun l => ?_)
  cases l <;> simp [cells, setRoot]

theorem storeInner_ends (n : TreeInner K (NodePtr T)) :
    Ends P (storeInner a n) h () (h.setInner a n) := by
  refine .store trivial (funext fun l => ?_)
  cases l with
  | inner b => by_cases heq : b = a <;> simp [cells, setInner, heq]
  | _ => simp [cells, setInner]

theorem storeLeaf_ends (hp : P p) (n : XNode N K V) :
    Ends P (storeLeaf p n) h () (h.setLeaf (Function.update h.leaf p n)) := by
  refine .store hp (funext fun l => ?_)
  cases l with
  | leaf q => by_cases heq : q = p <;> simp [cells, setLeaf, heq]
  | _ => simp [cells, setLeaf]

theorem storeArena_ends (i : ℕ) :
    Ends P (storeArena t i) h () { h with arena := Function.update h.arena t i } := by
  refine .store trivial (funext fun l => ?_)
  cases l with
  | arena u => by_cases heq : u = t <;> simp [cells, heq]
  | _ => simp [cells]

theorem newInner_ends (n : TreeInner K (NodePtr T)) :
    Ends P (newInner t n) h (t, h.arena t) (h.alloc t n) :=
  loadArena_ends.bind <| (storeArena_ends _).bind <| (storeInner_ends n).bind (.pure _)

theorem modifyLeaf_ends (hp : P p) (f : XNode N K V → XNode N K V) :
    Ends P (modifyLeaf p f) h () (h.setLeaf (Function.update h.leaf p (f (h.leaf p)))) :=
  (loadLeaf_ends hp).bind (storeLeaf_ends hp _)

end Access

section Leaf
variable [KeyType K] {P : Ptr → Prop} {h : Heap T N K V} {this c : Ptr} {key pivotKey : K} {v : V}

theorem rawInsertNull_sim (hthis : P this) :
    Sim P (PtrTree.rawInsertNull this key v) h (Xkv.rawInsertNull h.leaf this key v)
      (fun b a h' => a = b.2 ∧ h' = h.setLeaf b.1) := by
  refine .skip (loadLeaf_ends hthis) ?_
  unfold Xkv.rawInsertNull
  cases (h.leaf this).addEntry key v with
  | none => exact .fail _
  | some n => exact .of_ends ((storeLeaf_ends hthis n).bind (.pure false)) ⟨rfl, rfl⟩

theorem moveKey_sim (hthis : P this) (hc : P c) (i : Fin N) :
    Sim P (PtrTree.moveKey pivotKey this c () i) h (Xkv.moveKey pivotKey this c h.leaf i)
      (fun m _ h' => h' = h.setLeaf m) := by
  refine .skip (loadLeaf_ends hthis) ?_
  unfold Xkv.moveKey
  dsimp only
  split
  · refine .skip (loadLeaf_ends hthis) ?_
    refine (rawInsertNull_sim hc).bind ?_
    rintro ⟨m, r⟩ r' h' ⟨rfl, rfl⟩
    refine (Code.Sim.lift (Q := fun _ _ h'' => h'' = h.setLeaf m) _ (fun _ _ => rfl)).bind ?_
    rintro _ _ h' rfl
    exact .of_ends (modifyLeaf_ends hthis _) rfl
  · exact .pure rfl

theorem moveKeys_sim (hthis : P this) (hc : P c) (is : List (Fin N)) :
    Sim P (is.foldlM (PtrTree.moveKey pivotKey this c) ()) h
      (is.foldlM (Xkv.moveKey pivotKey this c) h.leaf) (fun m _ h' => h' = h.setLeaf m) := by
  refine Code.Sim.foldlM (fun m _ h' i hm => ?_) rfl is
  subst hm
  exact (moveKey_sim hthis hc i).mono fun _ _ _ he => he

omit [KeyType K] in
theorem link_sim (hthis : P this) (hc : P c) :
    Sim P (do
        let n ← PtrTree.loadLeaf this
        PtrTree.modifyLeaf c (fun x => { x with next := n.next })
        PtrTree.modifyLeaf this (fun n => { n with next := some c })
        pure true) h
      (let m := Function.update h.leaf c { h.leaf c with next := (h.leaf this).next }
       let m := Function.update m this { m this with next := some c }
       pure (m, true) : Res (Mem N K V × Bool))
      (fun b a h' => a = b.2 ∧ h' = h.setLeaf b.1) := by
  refine .skip (loadLeaf_ends hthis) ?_
  refine .skip (modifyLeaf_ends hc _) ?_
  refine .skip (modifyLeaf_ends hthis _) ?_
  exact .pure ⟨rfl, rfl⟩

variable [StdSort]

theorem moveUpperKeys_sim (hthis : P this) (hc : P c) :
    Sim P (PtrTree.moveUpperKeys this c) h (Xkv.moveUpperKeys h.leaf this c)
      (fun b a h' => a = b.2 ∧ h' = h.setLeaf b.1) := by
  refine .skip (modifyLeaf_ends hthis _) ?_
  refine .skip (loadLeaf_ends hthis) ?_
  unfold Xkv.moveUpperKeys
  dsimp only
  rw [setLeaf_leaf]
  refine (Code.Sim.lift (Q := fun i j h' => i = j ∧ h' = _) _ (fun _ _ => ⟨rfl, rfl⟩)).bind ?_
  rintro idx _ h' ⟨rfl, rfl⟩
  refine (rawInsertNull_sim hc).bind ?_
  rintro ⟨m, r⟩ r' h' ⟨rfl, rfl⟩
  refine (Code.Sim.lift (Q := fun _ _ h'' => h'' = h.setLeaf m) _ (fun _ _ => rfl)).bind ?_
  rintro _ _ h' rfl
  refine .skip (modifyLeaf_ends hthis _) ?_
  refine (moveKeys_sim hthis hc _).bind ?_
  rintro m' _ h' rfl
  exact .pure ⟨rfl, rfl⟩

theorem rawInsert_sim {candidate : Option Ptr} (hthis : P this)
    (hcand : ∀ c, candidate = some c → P c) :
    Sim P (PtrTree.rawInsert this key v candidate) h (Xkv.rawInsert h.leaf this key v candidate)
      (fun b a h' => a = b.2 ∧ h' = h.setLeaf b.1) := by
  refine .skip (loadLeaf_ends hthis) ?_
  unfold Xkv.rawInsert
  cases (h.leaf this).addEntry key v with
  | some n => exact .of_ends ((storeLeaf_ends hthis n).bind (.pure false)) ⟨rfl, rfl⟩
  | none =>
    cases candidate with
    | none => exact .fail _
    | some c =>
      have hc := hcand c rfl
      refine (moveUpperKeys_sim hthis hc).bind ?_
      rintro ⟨m, _⟩ pivotKey h' ⟨rfl, rfl⟩
      dsimp only
      split
      · refine (rawInsertNull_sim hc).bind ?_
        rintro ⟨m', _⟩ r h' ⟨rfl, rfl⟩
        exact link_sim hthis hc
      · refine (rawInsertNull_sim hthis).bind ?_
        rintro ⟨m', _⟩ r h' ⟨rfl, rfl⟩
        exact link_sim hthis hc

end Leaf
end Heap
end XStore.Xkv
