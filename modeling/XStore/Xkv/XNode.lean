import XStore.Xkv.XKeys

/-! The leaf node (xnode.hh). Leaves live in a memory and are named by pointers, since the
tree, the sibling links and the pre-allocated leaf all refer to the same objects. -/
namespace XStore.Xkv
open XStore.Lib
variable {N : ℕ} {K V : Type}

/-- A leaf pointer: the number of the allocation it came from. -/
abbrev Ptr := ℕ

/-- A value slot holds its payload; slots that were never written hold the default. -/
structure XNode (N : ℕ) (K V : Type) where
  keys : XNodeKeys N K
  values : Fin N → V
  next : Option Ptr

abbrev Mem (N : ℕ) (K V : Type) := Ptr → XNode N K V

namespace XNode

def getKey (n : XNode N K V) (idx : Fin N) : K := n.keys.getKey idx
def getValueRaw (n : XNode N K V) (idx : Fin N) : V := n.values idx
def getIncarnation (n : XNode N K V) : UInt16 := n.keys.incarnation

/-- `get_key(0)`, the key a split reads back from its candidate. -/
def firstKey (n : XNode N K V) : Res K :=
  if h : 0 < N then .ok (n.getKey ⟨0, h⟩) else .error .outOfRange

def valueUpdate (n : XNode N K V) (idx : Fin N) (v : V) : XNode N K V :=
  { n with values := Function.update n.values idx v }

def incIncarnation (n : XNode N K V) : XNode N K V :=
  { n with keys := { n.keys with incarnation := n.keys.incarnation + 1 } }

@[simp] theorem getKey_eq (n : XNode N K V) (i : Fin N) : n.getKey i = n.keys.keys i := rfl
@[simp] theorem getValueRaw_eq (n : XNode N K V) (i : Fin N) :
    n.getValueRaw i = n.values i := rfl
@[simp] theorem keys_incIncarnation (n : XNode N K V) :
    n.incIncarnation.keys.keys = n.keys.keys := rfl
@[simp] theorem values_incIncarnation (n : XNode N K V) :
    n.incIncarnation.values = n.values := rfl

variable [KeyType K]

def new [Inhabited V] : XNode N K V where
  keys := XNodeKeys.new
  values _ := default
  next := none

def numKeys (n : XNode N K V) : ℕ := n.keys.numKeys
def search (n : XNode N K V) (key : K) : Option (Fin N) := n.keys.search key

def clear (n : XNode N K V) (idx : Fin N) : XNode N K V :=
  { n with keys := n.keys.clear idx }

/-- `add_key` and, if a hole was found, `value_update` at its slot. -/
def addEntry (n : XNode N K V) (key : K) (v : V) : Option (XNode N K V) :=
  match n.keys.addKey key with
  | some (ks, idx) => some (XNode.valueUpdate { n with keys := ks } idx v)
  | none => none

end XNode

variable [KeyType K]

/-- `raw_insert` with a null candidate, as it is called inside a split: a full node stops
at the ASSERT on the candidate. -/
def rawInsertNull (m : Mem N K V) (this : Ptr) (key : K) (v : V) : Res (Mem N K V × Bool) :=
  match (m this).addEntry key v with
  | some n => .ok (Function.update m this n, false)
  | none => .error (.assert .candidateNotNull)

/-- Step 3 of a split at slot `i`: a key above the pivot moves to the candidate. -/
def moveKey (pivotKey : K) (this candidate : Ptr) (m : Mem N K V) (i : Fin N) :
    Res (Mem N K V) :=
  let k := (m this).getKey i
  if KeyType.ne k KeyType.invalid && KeyType.gt k pivotKey then do
    let (m, r) ← rawInsertNull m candidate k ((m this).getValueRaw i)
    ensure (!r) .candidateNoSplit
    pure (Function.update m this ((m this).clear i))
  else pure m

/-- Steps 1 to 3 of a split: increment the incarnation, move the pivot and then every larger
key to the candidate. Returns the pivot. -/
def moveUpperKeys [StdSort] (m : Mem N K V) (this candidate : Ptr) : Res (Mem N K V × K) := do
  let m := Function.update m this (m this).incIncarnation
  let pivotKeyIdx ← need (m this).keys.findMedianKey .emptyOption
  let pivotKey := (m this).getKey pivotKeyIdx
  let (m, r) ← rawInsertNull m candidate pivotKey ((m this).getValueRaw pivotKeyIdx)
  ensure (!r) .candidateNoSplit
  let m := Function.update m this ((m this).clear pivotKeyIdx)
  let m ← (List.finRange N).foldlM (moveKey pivotKey this candidate) m
  pure (m, pivotKey)

/-- Insert into a leaf. `true` means that the leaf was full: its median key, every larger
key and, if it is larger too, the new key are now in the candidate, linked behind it. -/
def rawInsert [StdSort] (m : Mem N K V) (this : Ptr) (key : K) (v : V)
    (candidate : Option Ptr) : Res (Mem N K V × Bool) :=
  match (m this).addEntry key v with
  | some n => .ok (Function.update m this n, false)
  | none => do
    let candidate ← need candidate (.assert .candidateNotNull)
    let (m, pivotKey) ← moveUpperKeys m this candidate
    let (m, _) ← if KeyType.gt key pivotKey then rawInsertNull m candidate key v
      else rawInsertNull m this key v
    let m := Function.update m candidate { m candidate with next := (m this).next }
    let m := Function.update m this { m this with next := some candidate }
    pure (m, true)

end XStore.Xkv
