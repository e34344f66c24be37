import XStore.Xkv.Tree
import Mathlib.Data.List.OfFn

/-! The iterators over the leaves: iter.hh, sorted_iter.hh and page_iter.hh. -/
namespace XStore.Xkv
open XStore.Lib
variable {N : ℕ} {K V : Type} [KeyType K]

/-- The members that `XTreeIter` and `XTreeSIter` share. `counter` is a usize, taken wide enough for
the number of keys. -/
structure NodeIter (N : ℕ) (K : Type) where
  curNode : Option (XNodeKeys N K)
  curNodePtr : Option Ptr
  nextPtr : Option Ptr
  idx : ℕ
  counter : ℕ

/-- What `read_from` leaves in `cur_node`, from the old `cur_node` and the keys of the node. -/
abbrev Load (N : ℕ) (K : Type) := Option (XNodeKeys N K) → XNodeKeys N K → XNodeKeys N K

namespace NodeIter

def init : NodeIter N K where
  curNode := none
  curNodePtr := none
  nextPtr := none
  idx := 0
  counter := 0

def hasNext (it : NodeIter N K) : Bool := it.curNode.isSome

def curKey (it : NodeIter N K) : Res K := do
  let node ← need it.curNode .emptyOption
  if h : it.idx < N then pure (node.getKey ⟨it.idx, h⟩) else .error .outOfRange

def opaqueVal (it : NodeIter N K) : ℕ := it.counter

/-- The loop of `seek_idx`, at most `n` rounds. -/
def skipHoles (node : XNodeKeys N K) : ℕ → ℕ → ℕ
  | 0, idx => idx
  | n + 1, idx =>
    if h : idx < N then
      if KeyType.eq (node.getKey ⟨idx, h⟩) KeyType.invalid then skipHoles node n (idx + 1) else idx
    else idx

/-- `seek_idx`; `value()` of an empty `cur_node` is only evaluated while `idx < N`. -/
def seekIdx (it : NodeIter N K) : Res (NodeIter N K) :=
  if it.idx < N then do
    let node ← need it.curNode .emptyOption
    pure { it with idx := skipHoles node N it.idx }
  else pure it

def readFrom (load : Load N K) (m : Mem N K V) (node : Option Ptr) (it : NodeIter N K) :
    NodeIter N K :=
  match node with
  | some p => { it with
      nextPtr := (m p).next
      curNode := some (load it.curNode (m p).keys)
      curNodePtr := some p }
  | none => { it with curNode := none, curNodePtr := none }

def next (load : Load N K) (m : Mem N K V) (it : NodeIter N K) : Res (NodeIter N K) := do
  let it := { it with idx := it.idx + 1 }
  let it ← it.seekIdx
  if it.idx ≠ N then pure { it with counter := it.counter + 1 }
  else
    let it := it.readFrom load m it.nextPtr
    if it.hasNext then
      let it := { it with idx := 0 }
      let it ← it.seekIdx
      pure { it with counter := it.counter + 1 }
    else pure it

def seek (load : Load N K) (m : Mem N K V) (t : XTree K) (k : K) (it : NodeIter N K) :
    Res (NodeIter N K) := do
  let node ← t.findLeaf k
  let it := it.readFrom load m node
  let it := { it with counter := 0, idx := 0 }
  let it ← it.seekIdx
  ensure (it.idx ≠ N) .seekFound
  pure it

def take {α : Type} (load : Load N K) (m : Mem N K V) (read : NodeIter N K → Res α) :
    ℕ → NodeIter N K → Res (List α × NodeIter N K)
  | 0, it => pure ([], it)
  | n + 1, it => do
    let a ← read it
    let it ← it.next load m
    let (as, it) ← take load m read n it
    pure (a :: as, it)

end NodeIter

def XTreeIter.load : Load N K := fun _ ks => ks

/-- The sorted iterator sorts the keys into `cur_node`, which keeps the rest of what it held. -/
def XTreeSIter.load [StdSort] : Load N K := fun cur ks =>
  let tempKeys := StdSort.sort (fun a b => KeyType.lt a b) (List.ofFn ks.keys)
  { cur.getD ks with
    keys := fun i => tempKeys.get ⟨i, by rw [StdSort.length_sort, List.length_ofFn]; exact i.2⟩ }

namespace XTreeIter

def next (m : Mem N K V) (it : NodeIter N K) : Res (NodeIter N K) := it.next load m

def seek (m : Mem N K V) (t : XTree K) (k : K) (it : NodeIter N K) : Res (NodeIter N K) :=
  it.seek load m t k

def ofTree (m : Mem N K V) (t : XTree K) : Res (NodeIter N K) := seek m t KeyType.min .init

end XTreeIter

namespace XTreeSIter
variable [StdSort]

def next (m : Mem N K V) (it : NodeIter N K) : Res (NodeIter N K) := it.next load m

def seek (m : Mem N K V) (t : XTree K) (k : K) (it : NodeIter N K) : Res (NodeIter N K) :=
  it.seek load m t k

def ofTree (m : Mem N K V) (t : XTree K) : Res (NodeIter N K) := seek m t KeyType.min .init

end XTreeSIter

structure XTreePageIter (N : ℕ) (K : Type) where
  curNode : Option (XNodeKeys N K)
  curNodePtr : Option Ptr
  logicPageId : ℕ

namespace XTreePageIter

def hasNext (it : XTreePageIter N K) : Bool := it.curNodePtr.isSome

def readFrom (m : Mem N K V) (node : Option Ptr) (it : XTreePageIter N K) : XTreePageIter N K :=
  match node with
  | some p => { it with curNode := some (m p).keys }
  | none => it

def next (m : Mem N K V) (it : XTreePageIter N K) : XTreePageIter N K :=
  match it.curNodePtr with
  | some p =>
    { it with curNodePtr := (m p).next, logicPageId := it.logicPageId + 1 }.readFrom m (m p).next
  | none => it

def seek (m : Mem N K V) (t : XTree K) (k : K) (it : XTreePageIter N K) :
    Res (XTreePageIter N K) := do
  let node ← t.findLeaf k
  pure ({ it with curNodePtr := node, logicPageId := 0 }.readFrom m node)

def ofTree (m : Mem N K V) (t : XTree K) : Res (XTreePageIter N K) :=
  seek m t KeyType.min { curNode := none, curNodePtr := none, logicPageId := 0 }

def pages (m : Mem N K V) : ℕ → XTreePageIter N K → List Ptr
  | 0, _ => []
  | n + 1, it =>
    match it.curNodePtr with
    | some p => p :: pages m n (it.next m)
    | none => []

end XTreePageIter
end XStore.Xkv
