import XStore.Lib.Code
import XStore.Xkv.Tree

/-! The tree as it stands in memory: every node at an address of its own, and the code as the
accesses that it makes, one after the other. An access is one to a whole node. -/
namespace XStore.Xkv
open XStore.Lib
variable {T : Type} {N : ℕ} {K V : Type}

/-- What `new` returns: the thread whose memory it is from, and the how manyth of them it is. -/
abbrev InnerPtr (T : Type) := T × ℕ

inductive NodePtr (T : Type) where
  | leaf (p : Ptr)
  | inner (a : InnerPtr T)
  deriving DecidableEq

def NodePtr.asLeaf : NodePtr T → Res Ptr
  | .leaf p => .ok p
  | .inner _ => .error .badCast

def NodePtr.asInner : NodePtr T → Res (InnerPtr T)
  | .inner a => .ok a
  | .leaf _ => .error .badCast

/-- The two members of the tree, the nodes, and for every thread how many inner nodes it has
allocated. -/
inductive TreeCell (T : Type) where
  | depth
  | root
  | inner (a : InnerPtr T)
  | leaf (p : Ptr)
  | arena (t : T)
  deriving DecidableEq

deriving instance DecidableEq for XNodeKeys, XNode, TreeInner

inductive TreeWord (T : Type) (N : ℕ) (K V : Type) where
  | depth (d : ℕ)
  | root (r : Option (NodePtr T))
  | inner (n : TreeInner K (NodePtr T))
  | leaf (n : XNode N K V)
  | arena (i : ℕ)
  deriving DecidableEq

abbrev TreeCode (T : Type) (N : ℕ) (K V α : Type) :=
  Code Fault (TreeCell T) (TreeWord T N K V) α

namespace PtrTree

section Access

/-- A cell that holds something of another kind stops the run. -/
def loadDepth : TreeCode T N K V ℕ := do
  match ← Code.load .depth with
  | .depth d => pure d
  | _ => liftM (.error .badCast : Res ℕ)

def loadRoot : TreeCode T N K V (Option (NodePtr T)) := do
  match ← Code.load .root with
  | .root r => pure r
  | _ => liftM (.error .badCast : Res (Option (NodePtr T)))

def loadInner (a : InnerPtr T) : TreeCode T N K V (TreeInner K (NodePtr T)) := do
  match ← Code.load (.inner a) with
  | .inner n => pure n
  | _ => liftM (.error .badCast : Res (TreeInner K (NodePtr T)))

def loadLeaf (p : Ptr) : TreeCode T N K V (XNode N K V) := do
  match ← Code.load (.leaf p) with
  | .leaf n => pure n
  | _ => liftM (.error .badCast : Res (XNode N K V))

def loadArena (t : T) : TreeCode T N K V ℕ := do
  match ← Code.load (.arena t) with
  | .arena i => pure i
  | _ => liftM (.error .badCast : Res ℕ)

def storeDepth (d : ℕ) : TreeCode T N K V Unit := Code.store .depth (.depth d)
def storeRoot (r : NodePtr T) : TreeCode T N K V Unit := Code.store .root (.root (some r))
def storeInner (a : InnerPtr T) (n : TreeInner K (NodePtr T)) : TreeCode T N K V Unit :=
  Code.store (.inner a) (.inner n)
def storeLeaf (p : Ptr) (n : XNode N K V) : TreeCode T N K V Unit := Code.store (.leaf p) (.leaf n)
def storeArena (t : T) (i : ℕ) : TreeCode T N K V Unit := Code.store (.arena t) (.arena i)

def modifyLeaf (p : Ptr) (f : XNode N K V → XNode N K V) : TreeCode T N K V Unit := do
  let n ← loadLeaf p
  storeLeaf p (f n)

/-- `new` by the thread `t`, with what the constructor and the code behind it put there. -/
def newInner (t : T) (n : TreeInner K (NodePtr T)) : TreeCode T N K V (InnerPtr T) := do
  let i ← loadArena t
  storeArena t (i + 1)
  storeInner (t, i) n
  pure (t, i)

end Access

variable [KeyType K]

def rawInsertNull (this : Ptr) (key : K) (v : V) : TreeCode T N K V Bool := do
  let n ← loadLeaf this
  match n.addEntry key v with
  | some n => do
    storeLeaf this n
    pure false
  | none => liftM (.error (.assert .candidateNotNull) : Res Bool)

def moveKey (pivotKey : K) (this candidate : Ptr) (_ : Unit) (i : Fin N) :
    TreeCode T N K V Unit := do
  let n ← loadLeaf this
  let k := n.getKey i
  if KeyType.ne k KeyType.invalid && KeyType.gt k pivotKey then do
    let n ← loadLeaf this
    let r ← rawInsertNull candidate k (n.getValueRaw i)
    ensure (!r) .candidateNoSplit
    modifyLeaf this (fun n => n.clear i)
  else pure ()

def moveUpperKeys [StdSort] (this candidate : Ptr) : TreeCode T N K V K := do
  modifyLeaf this XNode.incIncarnation
  let n ← loadLeaf this
  let pivotKeyIdx ← need n.keys.findMedianKey .emptyOption
  let pivotKey := n.getKey pivotKeyIdx
  let r ← rawInsertNull candidate pivotKey (n.getValueRaw pivotKeyIdx)
  ensure (!r) .candidateNoSplit
  modifyLeaf this (fun n => n.clear pivotKeyIdx)
  (List.finRange N).foldlM (moveKey pivotKey this candidate) ()
  pure pivotKey

def rawInsert [StdSort] (this : Ptr) (key : K) (v : V) (candidate : Option Ptr) :
    TreeCode T N K V Bool := do
  let n ← loadLeaf this
  match n.addEntry key v with
  | some n => do
    storeLeaf this n
    pure false
  | none => do
    let candidate ← need candidate (.assert .candidateNotNull)
    let pivotKey ← moveUpperKeys this candidate
    let _ ← if KeyType.gt key pivotKey then rawInsertNull candidate key v
      else rawInsertNull this key v
    let n ← loadLeaf this
    modifyLeaf candidate (fun c => { c with next := n.next })
    modifyLeaf this (fun n => { n with next := some candidate })
    pure true

def insertToMe (t : T) (this : InnerPtr T) (k : ℕ) (upKey : K) (toInsert : NodePtr T) :
    TreeCode T N K V (Option (InnerPtr T)) := do
  let n ← loadInner this
  let (n, newSib) ← n.insertToMe N k upKey toInsert
  match newSib with
  | some s => do
    let a ← newInner t s
    storeInner this n
    pure (some a)
  | none => do
    storeInner this n
    pure none

/-- `insert` of an inner node: the new sibling if this node split, and whether a leaf split. -/
def insert [StdSort] (t : T) : ℕ → InnerPtr T → K → V → Option Ptr →
    TreeCode T N K V (Option (InnerPtr T) × Bool)
  | 0, _, _, _, _ => liftM (.error (.assert .depthPositive) : Res (Option (InnerPtr T) × Bool))
  | 1, this, key, v, candidate => do
    let n ← loadInner this
    let k := n.findChildrenIdx key
    let child ← need n.childrens[k]? .outOfRange
    let leaf ← child.asLeaf
    let split ← rawInsert leaf key v candidate
    if split then do
      let c ← need candidate .nullDeref
      let cand ← loadLeaf c
      let upKey ← cand.firstKey
      let newSib ← insertToMe t this k upKey (.leaf c)
      pure (newSib, true)
    else pure (none, false)
  | depth + 2, this, key, v, candidate => do
    let n ← loadInner this
    let k := n.findChildrenIdx key
    let child ← need n.childrens[k]? .outOfRange
    let inner ← child.asInner
    let (newIn, whetherSplit) ← insert t (depth + 1) inner key v candidate
    match newIn with
    | some newIn => do
      let sib ← loadInner newIn
      let newSib ← insertToMe t this k sib.upKey (.inner newIn)
      pure (newSib, whetherSplit)
    | none => pure (none, whetherSplit)

/-- `insert_core` behind its first branch; `ret` says whether that made the leaf the root. -/
def insertAtRoot [StdSort] (t : T) (k : K) (v : V) (newLeaf : Option Ptr) (ret : Bool) :
    TreeCode T N K V Bool := do
  let depth ← loadDepth
  let root ← loadRoot
  let root ← need root .nullDeref
  match depth with
  | 0 => do
    let oldLeaf ← root.asLeaf
    let leaf ← need newLeaf (.assert .newLeafNotNull)
    let split ← rawInsert oldLeaf k v (some leaf)
    if split then do
      let n ← loadLeaf leaf
      let upKey ← n.firstKey
      let a ← newInner t (.newRoot upKey (.leaf oldLeaf) (.leaf leaf))
      storeRoot (.inner a)
      let d ← loadDepth
      storeDepth (d + 1)
      pure true
    else pure ret
  | depth + 1 => do
    let inner ← root.asInner
    let (newRoot, whetherSplit) ← insert t (depth + 1) inner k v newLeaf
    match newRoot with
    | some sib => do
      let d ← loadDepth
      storeDepth (d + 1)
      let n ← loadInner sib
      let root ← loadRoot
      let root ← need root .nullDeref
      let a ← newInner t (.newRoot n.upKey root (.inner sib))
      storeRoot (.inner a)
      pure whetherSplit
    | none => pure whetherSplit

def insertCore [StdSort] (t : T) (k : K) (v : V) (newLeaf : Option Ptr) :
    TreeCode T N K V Bool := do
  let root ← loadRoot
  match root with
  | none => do
    let leaf ← need newLeaf (.assert .newLeafNotNull)
    storeRoot (.leaf leaf)
    insertAtRoot t k v newLeaf true
  | some _ => insertAtRoot t k v newLeaf false

def findLeafFrom (k : K) : ℕ → NodePtr T → TreeCode T N K V Ptr
  | 0, node => node.asLeaf
  | depth + 1, node => do
    let inner ← node.asInner
    let n ← loadInner inner
    let child ← n.findChildren k
    findLeafFrom k depth child

def findLeaf (k : K) : TreeCode T N K V (Option Ptr) := do
  let root ← loadRoot
  let depth ← loadDepth
  match root with
  | none => if depth = 0 then pure none else liftM (.error .nullDeref : Res (Option Ptr))
  | some root => do
    let leaf ← findLeafFrom k depth root
    pure (some leaf)

def get (k : K) : TreeCode T N K V (Option V) := do
  let leaf ← findLeaf k
  let leaf ← need leaf (.assert .leafNotNull)
  let n ← loadLeaf leaf
  match n.search k with
  | some idx => do
    let n ← loadLeaf leaf
    pure (some (n.getValueRaw idx))
  | none => pure none

end PtrTree
end XStore.Xkv
