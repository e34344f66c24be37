import XStore.Lib.Ascending
import XStore.Xcomm.ValueUpdate
import XStore.Xkv.Layout

/-! The sorted array (xarray.hh): its keys and its wrapped values in two blocks of memory, and an
index from the keys to their places. -/
namespace XStore.Xkv
open XStore.Lib
variable {K V : Type}

section Payload
variable [Plain V]

def payloadOf (v : V) (i : Fin (Plain.size V)) : Byte :=
  (Plain.toBytes v).get (i.cast (Plain.length_toBytes v).symm)

def ofPayload (V : Type) [Plain V] (p : Fin (Plain.size V) → Byte) : V :=
  Plain.ofBytes (List.ofFn p)

@[simp] theorem ofPayload_payloadOf (v : V) : ofPayload V (payloadOf v) = v := by
  have hbytes : List.ofFn (payloadOf v) = Plain.toBytes v := by
    apply List.ext_getElem (by simp)
    intro i h₁ h₂
    simp [payloadOf]
  rw [ofPayload, hbytes, Plain.ofBytes_toBytes]

end Payload

/-- The blocks are given by their sizes and by what stands in them, whatever was there before;
`index` is a `std::map`. -/
structure XArray (K V : Type) [Plain V] where
  keyArraySz : ℕ
  valArraySz : ℕ
  index : List (K × ℕ)
  keyPtr : ℕ → K
  valPtr : ℕ → Xcomm.WrappedType (Plain.size V)
  size : ℕ

inductive Refusal where
  | notLarger
  | keySpace
  | valSpace
  deriving DecidableEq, Repr

namespace XArray
variable [Plain V]

def ofBlocks (keyArraySz valArraySz : ℕ) (keyPtr : ℕ → K)
    (valPtr : ℕ → Xcomm.WrappedType (Plain.size V)) : XArray K V where
  keyArraySz := keyArraySz
  valArraySz := valArraySz
  index := []
  keyPtr := keyPtr
  valPtr := valPtr
  size := 0

/-- The array with blocks of its own, for `maxNumK` keys. -/
def ofMaxNumK [Plain K] (maxNumK : ℕ) (keyPtr : ℕ → K)
    (valPtr : ℕ → Xcomm.WrappedType (Plain.size V)) : XArray K V :=
  ofBlocks (maxNumK * Plain.size K) (maxNumK * Xcomm.WrappedType.size (Plain.size V)) keyPtr valPtr

/-- The index is an int. -/
def keysAt (a : XArray K V) (idx : ℤ) : Option K :=
  if 0 ≤ idx ∧ idx < a.size then some (a.keyPtr idx.toNat) else none

/-- The index is an int. -/
def valsAt (a : XArray K V) (idx : ℤ) : Option V :=
  if 0 ≤ idx ∧ idx < a.size then some (ofPayload V (a.valPtr idx.toNat).payload) else none

/-- The free memory is checked with `sizeof(u64)` for the keys. -/
def memRefusal (a : XArray K V) : Option Refusal :=
  if (a.size + 1) * 8 > a.keyArraySz then some .keySpace
  else if (a.size + 1) * Xcomm.WrappedType.size (Plain.size V) > a.valArraySz then some .valSpace
  else none

section Insert
variable [KeyType K]

def refusal (a : XArray K V) (k : K) : Res (Option Refusal) :=
  if a.size ≠ 0 then do
    let prev ← need (a.keysAt (toInt32 (a.size - 1))) .emptyOption
    pure (if KeyType.ge prev k then some .notLarger else a.memRefusal)
  else pure a.memRefusal

/-- `operator<` in both directions finds no difference. -/
def sameKey (k : K) (e : K × ℕ) : Bool := !KeyType.lt e.1 k && !KeyType.lt k e.1

/-- `index.insert` leaves an entry that is there. -/
def addIndex (index : List (K × ℕ)) (k : K) (i : ℕ) : List (K × ℕ) :=
  if index.any (sameKey k) then index else index ++ [(k, i)]

def append (a : XArray K V) (k : K) (v : V) (addIdx : Bool) : XArray K V :=
  { a with
    keyPtr := Function.update a.keyPtr a.size k
    valPtr := Function.update a.valPtr a.size ((a.valPtr a.size).reset (payloadOf v))
    index := if addIdx then addIndex a.index k a.size else a.index
    size := a.size + 1 }

def insertWIndex (a : XArray K V) (k : K) (v : V) (addIdx : Bool) : Res (XArray K V × Bool) := do
  let refused ← a.refusal k
  match refused with
  | some _ => pure (a, false)
  | none => pure (a.append k v addIdx, true)

def insert (a : XArray K V) (k : K) (v : V) : Res (XArray K V × Bool) := a.insertWIndex k v true

def pos (a : XArray K V) (k : K) : Option ℕ := (a.index.find? (sameKey k)).map Prod.snd

def get (a : XArray K V) (k : K) : Option V := (a.pos k).bind (fun p => a.valsAt (toInt32 p))

end Insert

section Checks
variable [KeyType K] {a a' : XArray K V} {k : K} {v : V} {addIdx : Bool}

/-- The check of the previous key lets the new one through. -/
def Larger (a : XArray K V) (k : K) : Prop :=
  a.size = 0 ∨ ∃ prev, a.keysAt (toInt32 (a.size - 1)) = some prev ∧ KeyType.ge prev k = false

theorem refusal_of_larger (h : a.Larger k) : a.refusal k = .ok a.memRefusal := by
  unfold refusal
  cases h with
  | inl hempty => rw [if_neg (not_not.mpr hempty), pure_eq_ok]
  | inr hprev =>
    obtain ⟨prev, hprev, hge⟩ := hprev
    split
    · simp only [hprev, need_some, ok_bind, hge, Bool.false_eq_true, if_false, pure_eq_ok]
    · rfl

theorem refusal_cases {r : Option Refusal} (h : a.refusal k = .ok r) :
    r = some .notLarger ∨ a.Larger k ∧ r = a.memRefusal := by
  unfold refusal at h
  split at h
  · obtain ⟨prev, hprev, h⟩ := bind_eq_ok.mp h
    rw [need_eq_ok] at hprev
    split at h
    · exact Or.inl (Except.ok.inj h).symm
    · next hge =>
      have hlarger : a.Larger k := Or.inr ⟨prev, hprev, by simpa using hge⟩
      exact Or.inr ⟨hlarger, (Except.ok.inj h).symm⟩
  · next hempty => exact Or.inr ⟨Or.inl (not_not.mp hempty), (Except.ok.inj h).symm⟩

omit [KeyType K] in
theorem memRefusal_keySpace_iff :
    a.memRefusal = some .keySpace ↔ a.keyArraySz < (a.size + 1) * 8 := by
  unfold memRefusal
  split
  · simp [*]
  · split <;> simp <;> omega

omit [KeyType K] in
theorem memRefusal_none_iff : a.memRefusal = none ↔ (a.size + 1) * 8 ≤ a.keyArraySz ∧
    (a.size + 1) * Xcomm.WrappedType.size (Plain.size V) ≤ a.valArraySz := by
  unfold memRefusal
  split
  · simp
    omega
  · split <;> simp <;> omega

theorem insertWIndex_true_iff : a.insertWIndex k v addIdx = .ok (a', true) ↔
    a.refusal k = .ok none ∧ a' = a.append k v addIdx := by
  unfold insertWIndex
  cases a.refusal k with
  | error e => simp
  | ok r => cases r <;> simp [eq_comm]

/-- Behind the check of the key the memory decides. -/
theorem refusal_iff {r : Option Refusal} (hr : r ≠ some .notLarger) :
    a.refusal k = .ok r ↔ a.Larger k ∧ a.memRefusal = r := by
  constructor
  · intro h
    cases refusal_cases h with
    | inl hkey => exact absurd hkey hr
    | inr hmem => exact ⟨hmem.1, hmem.2.symm⟩
  · intro h
    rw [refusal_of_larger h.1, h.2]

theorem refusal_none_iff : a.refusal k = .ok none ↔ a.Larger k ∧ a.memRefusal = none :=
  refusal_iff (by simp)

theorem refusal_keySpace_iff :
    a.refusal k = .ok (some .keySpace) ↔ a.Larger k ∧ a.keyArraySz < (a.size + 1) * 8 := by
  rw [refusal_iff (by simp), memRefusal_keySpace_iff]

end Checks
end XArray
end XStore.Xkv
