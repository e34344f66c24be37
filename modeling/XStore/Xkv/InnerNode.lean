import XStore.Xkv.XNode

/-! The inner node (inner_node.hh). Of its arrays only the used prefix is kept: `num_keys`
separators and one child more. An inner node is reached from one parent only, so it stands
in the tree itself; leaves are shared and stand in the memory. -/
namespace XStore.Xkv
open XStore.Lib
variable {N : ℕ} {K V C : Type} [KeyType K]

/-- `upKey` is the separator that a split leaves for the parent. -/
structure TreeInner (K C : Type) where
  keys : List K
  childrens : List C
  upKey : K

/-- `raw_ptr_t`: what it points to is decided by the depth at which it is followed. -/
inductive RawPtr (K : Type) where
  | leaf (p : Ptr)
  | inner (n : TreeInner K (RawPtr K))

def RawPtr.asLeaf : RawPtr K → Res Ptr
  | .leaf p => .ok p
  | .inner _ => .error .badCast

def RawPtr.asInner : RawPtr K → Res (TreeInner K (RawPtr K))
  | .inner n => .ok n
  | .leaf _ => .error .badCast

omit [KeyType K] in
theorem RawPtr.eq_inner_of_asInner {t : RawPtr K} {n : TreeInner K (RawPtr K)}
    (h : t.asInner = .ok n) : t = .inner n := by
  cases t with
  | leaf p => cases h
  | inner n' => exact congrArg RawPtr.inner (Except.ok.inj h)

namespace TreeInner

def new : TreeInner K C where
  keys := []
  childrens := []
  upKey := KeyType.invalid

/-- The constructor of a root from a separator and its two sides. -/
def newRoot (k : K) (l r : C) : TreeInner K C where
  keys := [k]
  childrens := [l, r]
  upKey := KeyType.invalid

def empty (n : TreeInner K C) : Bool := n.keys.length == 0

def full (N : ℕ) (n : TreeInner K C) : Bool := n.keys.length == N

/-- The first `i` with `k < keys[i]`, else `num_keys`. -/
def findChildrenIdx (n : TreeInner K C) (k : K) : ℕ := n.keys.findIdx (fun s => KeyType.lt k s)

def findChildren (n : TreeInner K C) (k : K) : Res C :=
  need n.childrens[n.findChildrenIdx k]? .outOfRange

/-- The separators from `n` on and the children from `n` on go to `next`. -/
def copyAfterNTo (this next : TreeInner K C) (n : ℕ) : Res (TreeInner K C) := do
  ensure next.empty .siblingEmpty
  pure { next with keys := this.keys.drop n, childrens := this.childrens.drop n }

def setNumKeys (this : TreeInner K C) (n : ℕ) : TreeInner K C :=
  { this with keys := this.keys.take n, childrens := this.childrens.take (n + 1) }

/-- Shift from `pos` on and write separator `pos` and child `pos + 1`. A position behind the
used prefix or a full node would write outside it. -/
def insertAtPos (N : ℕ) (this : TreeInner K C) (k : K) (p : C) (pos : ℕ) : Res (TreeInner K C) :=
  if pos ≤ this.keys.length ∧ this.keys.length < N then
    .ok { this with keys := this.keys.insertIdx pos k
                    childrens := this.childrens.insertIdx (pos + 1) p }
  else .error .outOfRange

/-- The part of `insert` under "should insert to me": a full node first moves its upper half
to a new sibling, then the separator and the child go to the side that `up_key` selects. -/
def insertToMe (N : ℕ) (this : TreeInner K C) (k : ℕ) (upKey : K) (toInsert : C) :
    Res (TreeInner K C × Option (TreeInner K C)) := do
  ensure (KeyType.ne upKey KeyType.invalid) .upKeyValid
  if this.full N then
    let threshod := (N + 1) / 2
    let newSib ← this.copyAfterNTo new threshod
    let newUp ← need this.keys[threshod - 1]? .outOfRange
    let newSib := { newSib with upKey := newUp }
    let this := this.setNumKeys (threshod - 1)
    if KeyType.ge upKey newSib.upKey then
      ensure (threshod ≤ k) .splitThreshold
      let newSib ← newSib.insertAtPos N upKey toInsert (k - threshod)
      pure (this, some newSib)
    else
      let this ← this.insertAtPos N upKey toInsert k
      pure (this, some newSib)
  else
    let this ← this.insertAtPos N upKey toInsert k
    pure (this, none)

/-- `insert`, by recursion on the depth: the memory, this node, the new sibling if this node
split, and whether a leaf split. -/
def insert [StdSort] : ℕ → Mem N K V → TreeInner K (RawPtr K) → K → V → Option Ptr →
    Res (Mem N K V × TreeInner K (RawPtr K) × Option (TreeInner K (RawPtr K)) × Bool)
  | 0, _, _, _, _, _ => .error (.assert .depthPositive)
  | 1, m, this, key, v, candidate => do
    let k := this.findChildrenIdx key
    let child ← need this.childrens[k]? .outOfRange
    let leaf ← child.asLeaf
    let (m, split) ← rawInsert m leaf key v candidate
    if split then
      let c ← need candidate .nullDeref
      let upKey ← (m c).firstKey
      let (this, newSib) ← this.insertToMe N k upKey (.leaf c)
      pure (m, this, newSib, true)
    else pure (m, this, none, false)
  | depth + 2, m, this, key, v, candidate => do
    let k := this.findChildrenIdx key
    let child ← need this.childrens[k]? .outOfRange
    let inner ← child.asInner
    let (m, inner, newIn, whetherSplit) ← insert (depth + 1) m inner key v candidate
    let this := { this with childrens := this.childrens.set k (.inner inner) }
    match newIn with
    | some newIn =>
      let (this, newSib) ← this.insertToMe N k newIn.upKey (.inner newIn)
      pure (m, this, newSib, whetherSplit)
    | none => pure (m, this, none, whetherSplit)

end TreeInner
end XStore.Xkv
