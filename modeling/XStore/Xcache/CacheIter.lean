import XStore.Xkv.Iter

/-! The translation table, logic addresses and the iterator that fills the table while it
goes through the leaves (translation_table.hh, logic_addr.hh, page_tt_iter.hh). -/
namespace XStore.Xcache
open XStore.Lib XStore.Xkv
variable {N : ℕ} {K V : Type} [KeyType K]

def kIncarBit : ℕ := 8
def kIncarMask : ℕ := 2 ^ kIncarBit - 1

/-- A table of u64 entries: a page address above the low bits of its incarnation. -/
structure TT where
  entries : List ℕ
  deriving DecidableEq, Repr

namespace TT

def empty : TT where
  entries := []

/-- `operator[]`: the index is narrowed to an int, and `at` checks it. -/
def at? (t : TT) (i : ℕ) : Res ℕ :=
  if 0 ≤ toInt32 i then need t.entries[(toInt32 i).toNat]? .outOfRange else .error .outOfRange

def getWoIncar (t : TT) (i : ℕ) : Res ℕ := do
  let addr ← t.at? i
  pure (addr >>> kIncarBit)

def addWIncar (t : TT) (e incar : ℕ) : Res TT := do
  let temp := (e <<< kIncarBit) % 2 ^ 64
  ensure (temp >>> kIncarBit == e) .incarnationFits
  let temp := temp ||| (incar &&& kIncarMask)
  pure { t with entries := t.entries ++ [temp] }

def size (t : TT) : ℕ := t.entries.length

/-- What `add_w_incar` makes of an address and an incarnation. -/
def entry (e incar : ℕ) : ℕ := (e <<< kIncarBit) % 2 ^ 64 ||| (incar &&& kIncarMask)

section Entry
variable {e : ℕ}

theorem shiftLeft_mod (h : e < 2 ^ 56) : (e <<< kIncarBit) % 2 ^ 64 = e <<< kIncarBit := by
  rw [Nat.mod_eq_of_lt]
  rw [Nat.shiftLeft_eq]
  simp only [kIncarBit]
  omega

theorem entry_eq (h : e < 2 ^ 56) (incar : ℕ) :
    entry e incar = e * 2 ^ kIncarBit + incar % 2 ^ kIncarBit := by
  have hmask : incar &&& kIncarMask = incar % 2 ^ kIncarBit :=
    Nat.and_two_pow_sub_one_eq_mod _ _
  have hlt : incar % 2 ^ kIncarBit < 2 ^ kIncarBit := Nat.mod_lt _ (by simp [kIncarBit])
  rw [entry, shiftLeft_mod h, hmask, ← Nat.shiftLeft_add_eq_or_of_lt hlt, Nat.shiftLeft_eq]

/-- An address of 56 bits survives in the upper bits, the incarnation in the lower eight. -/
theorem entry_spec (h : e < 2 ^ 56) (incar : ℕ) : entry e incar >>> kIncarBit = e ∧
    entry e incar % 2 ^ kIncarBit = incar % 2 ^ kIncarBit := by
  rw [entry_eq h, Nat.shiftRight_eq_div_pow]
  simp only [kIncarBit]
  omega

theorem addWIncar_ok (h : e < 2 ^ 56) (t : TT) (incar : ℕ) :
    t.addWIncar e incar = .ok ⟨t.entries ++ [entry e incar]⟩ := by
  have hback : ((e <<< kIncarBit) % 2 ^ 64) >>> kIncarBit = e := by
    rw [shiftLeft_mod h, Nat.shiftLeft_shiftRight]
  simp only [addWIncar, hback, beq_self_eq_true, ensure_true, ok_bind, pure_eq_ok]
  rfl

theorem at?_eq {t : TT} {i x : ℕ} (hi : i < 2 ^ 31) (hx : t.entries[i]? = some x) :
    t.at? i = .ok x := by
  have hint : toInt32 i = i := toInt32_eq (by omega) (by omega)
  simp [at?, hint, hx]

theorem getWoIncar_eq {t : TT} {i x : ℕ} (hi : i < 2 ^ 31) (hx : t.entries[i]? = some x) :
    t.getWoIncar i = .ok (x >>> kIncarBit) := by
  simp [getWoIncar, at?_eq hi hx]

/-- From 2^31 on the index is negative for `at`. -/
theorem getWoIncar_raises {t : TT} {i : ℕ} (hlo : 2 ^ 31 ≤ i) (hhi : i < 2 ^ 32) :
    t.getWoIncar i = .error .outOfRange := by
  have hneg : toInt32 i < 0 := toInt32_neg (by omega) (by omega)
  rw [getWoIncar, at?, if_neg (by omega)]
  rfl

end Entry

end TT

namespace LogicAddr

def encodeLogicAddr (N id off : ℕ) : Res ℕ := do
  ensure (decide (off < N)) .offsetInPage
  pure (id * N + off)

def decodeLogicId (N encoded : ℕ) : ℕ := encoded / N
def decodeOff (N encoded : ℕ) : ℕ := encoded % N

end LogicAddr

/-- The iterator, with the table it writes to; `addr` is the address a pointer holds, the
value of the default `gen_f`. -/
structure XCacheTreeIter (N : ℕ) (K : Type) where
  prevNode : Option Ptr
  coreIter : NodeIter N K
  tt : Option TT
  logicPageId : ℕ

namespace XCacheTreeIter
variable [StdSort] (addr : Ptr → ℕ) (m : Mem N K V)

def resetOldPtr (it : XCacheTreeIter N K) : Res (XCacheTreeIter N K) :=
  if it.coreIter.hasNext then
    if it.coreIter.curNodePtr ≠ it.prevNode then do
      let p ← need it.coreIter.curNodePtr .nullDeref
      let tt ← need it.tt .nullDeref
      let tt ← tt.addWIncar (addr p) (m p).getIncarnation.toNat
      pure { it with tt := some tt, prevNode := it.coreIter.curNodePtr
                     logicPageId := it.logicPageId + 1 }
    else pure it
  else pure it

def fromTT (t : XTree K) (tt : TT) : Res (XCacheTreeIter N K) := do
  let coreIter ← XTreeSIter.ofTree m t
  pure { prevNode := none, coreIter := coreIter, tt := some tt, logicPageId := 0 }

def next (it : XCacheTreeIter N K) : Res (XCacheTreeIter N K) := do
  let coreIter ← XTreeSIter.next m it.coreIter
  resetOldPtr addr m { it with coreIter := coreIter }

def hasNext (it : XCacheTreeIter N K) : Bool := it.coreIter.hasNext

def seek (t : XTree K) (k : K) (it : XCacheTreeIter N K) : Res (XCacheTreeIter N K) := do
  let coreIter ← XTreeSIter.seek m t k it.coreIter
  resetOldPtr addr m { it with logicPageId := 0, prevNode := none, coreIter := coreIter }

def curKey (it : XCacheTreeIter N K) : Res K := it.coreIter.curKey

def opaqueVal (it : XCacheTreeIter N K) : Res ℕ := do
  ensure (decide (it.logicPageId > 0)) .pageVisited
  LogicAddr.encodeLogicAddr N (it.logicPageId - 1) it.coreIter.idx

def nextN : ℕ → XCacheTreeIter N K → Res (XCacheTreeIter N K)
  | 0, it => pure it
  | j + 1, it => do
    let it ← it.next addr m
    nextN j it

end XCacheTreeIter
end XStore.Xcache
