import XStore.Xkv.InnerNode

/-! The tree (mod.hh) and its allocators (alloc_trait.hh). -/
namespace XStore.Xkv
open XStore.Lib
variable {N : ℕ} {K V A : Type} [KeyType K]

structure XTree (K : Type) where
  depth : ℕ
  root : Option (RawPtr K)

/-- `AllocTrait`: an allocator hands out a fresh block or nothing. -/
class AllocTrait (A : Type) where
  alloc : A → Option Ptr × A

/-- `TrivalAlloc`, a malloc that does not fail: blocks are numbered as they come. -/
structure TrivalAlloc where
  allocated : ℕ

instance : AllocTrait TrivalAlloc where
  alloc a := (some a.allocated, ⟨a.allocated + 1⟩)

namespace XTree

def new : XTree K where
  depth := 0
  root := none

def findLeafFrom (k : K) : ℕ → RawPtr K → Res Ptr
  | 0, node => node.asLeaf
  | depth + 1, node => do
    let inner ← node.asInner
    let child ← inner.findChildren k
    findLeafFrom k depth child

def findLeaf (t : XTree K) (k : K) : Res (Option Ptr) :=
  match t.root with
  | none => if t.depth = 0 then .ok none else .error .nullDeref
  | some root => do
    let leaf ← findLeafFrom k t.depth root
    pure (some leaf)

def get (m : Mem N K V) (t : XTree K) (k : K) : Res (Option V) := do
  let leaf ← t.findLeaf k
  let leaf ← need leaf (.assert .leafNotNull)
  match (m leaf).search k with
  | some idx => pure (some ((m leaf).getValueRaw idx))
  | none => pure none

/-- `insert_core`; the result says whether the new leaf was taken. -/
def insertCore [StdSort] (m : Mem N K V) (t : XTree K) (k : K) (v : V) (newLeaf : Option Ptr) :
    Res (Mem N K V × XTree K × Bool) := do
  let (root, ret) ← match t.root with
    | none => do
      let leaf ← need newLeaf (.assert .newLeafNotNull)
      pure (RawPtr.leaf leaf, true)
    | some root => pure (root, false)
  match t.depth with
  | 0 =>
    let oldLeaf ← root.asLeaf
    let leaf ← need newLeaf (.assert .newLeafNotNull)
    let (m, split) ← rawInsert m oldLeaf k v (some leaf)
    if split then
      let upKey ← (m leaf).firstKey
      pure (m, ⟨1, some (.inner (.newRoot upKey (.leaf oldLeaf) (.leaf leaf)))⟩, true)
    else pure (m, ⟨0, some root⟩, ret)
  | depth + 1 =>
    let inner ← root.asInner
    let (m, inner, newSib, whetherSplit) ← inner.insert (depth + 1) m k v newLeaf
    match newSib with
    | some sib =>
      pure (m, ⟨depth + 2, some (.inner (.newRoot sib.upKey (.inner inner) (.inner sib)))⟩,
        whetherSplit)
    | none => pure (m, ⟨depth + 1, some (.inner inner)⟩, whetherSplit)

end XTree

/-- One thread and one tree: the leaves, the allocator, `pre_alloc_leaf_node` and the tree. -/
structure World (N : ℕ) (K V A : Type) where
  mem : Mem N K V
  alloc : A
  preAllocLeafNode : Option Ptr
  tree : XTree K

namespace World
variable [AllocTrait A] [Inhabited V]

/-- `init_pre_alloced_leaf`: `value()` of a failed allocation stops the run. -/
def initPreAllocedLeaf (w : World N K V A) : Res (World N K V A) :=
  match AllocTrait.alloc w.alloc with
  | (some p, a) => .ok { w with mem := Function.update w.mem p XNode.new
                                alloc := a
                                preAllocLeafNode := some p }
  | (none, _) => .error .emptyOption

/-- `take_pre_alloced_leaf`; its result is not used by the insert. -/
def takePreAllocedLeaf (w : World N K V A) : Res (World N K V A) :=
  match w.preAllocLeafNode with
  | none => do
    let w ← w.initPreAllocedLeaf
    w.initPreAllocedLeaf
  | some _ => w.initPreAllocedLeaf

def insertWAlloc [StdSort] (w : World N K V A) (k : K) (v : V) : Res (World N K V A × Bool) := do
  let w ← match w.preAllocLeafNode with
    | none => w.initPreAllocedLeaf
    | some _ => pure w
  let (m, t, ret) ← w.tree.insertCore w.mem k v w.preAllocLeafNode
  let w := { w with mem := m, tree := t }
  if ret then
    let w ← w.takePreAllocedLeaf
    pure (w, ret)
  else pure (w, ret)

theorem initPreAllocedLeaf_held {w w₁ : World N K V A} (hinit : w.initPreAllocedLeaf = .ok w₁) :
    ∃ c, w₁.preAllocLeafNode = some c := by
  unfold initPreAllocedLeaf at hinit
  split at hinit
  · obtain rfl := Except.ok.inj hinit
    exact ⟨_, rfl⟩
  · cases hinit

theorem insertWAlloc_init [StdSort] {w w₁ : World N K V A} {k : K} {v : V}
    (hpre : w.preAllocLeafNode = none) (hinit : w.initPreAllocedLeaf = .ok w₁) :
    w.insertWAlloc k v = w₁.insertWAlloc k v := by
  obtain ⟨c, hc⟩ := initPreAllocedLeaf_held hinit
  simp only [insertWAlloc, hpre, hinit, hc, pure_eq_ok, ok_bind]

def insert [StdSort] (w : World N K V TrivalAlloc) (k : K) (v : V) :
    Res (World N K V TrivalAlloc) := do
  let (w, _) ← w.insertWAlloc k v
  pure w

def insertAll [StdSort] (w : World N K V TrivalAlloc) (ops : List (K × V)) :
    Res (World N K V TrivalAlloc) :=
  ops.foldlM (fun w op => w.insert op.1 op.2) w

def get (w : World N K V A) (k : K) : Res (Option V) := w.tree.get w.mem k

def init (m : Mem N K V) : World N K V TrivalAlloc where
  mem := m
  alloc := ⟨0⟩
  preAllocLeafNode := none
  tree := XTree.new

end World
end XStore.Xkv
