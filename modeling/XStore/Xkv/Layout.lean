import XStore.Lib.Bytes
import XStore.Xcomm.WrappedType
import XStore.Xkv.XNode

/-! Where the members of a leaf stand in memory (xnode.hh, xkeys.hh), and a leaf as it is found
in a buffer. Its structs are packed. -/
namespace XStore.Xkv
open XStore.Lib

instance : Plain XKey where
  size := 8
  toBytes k := toBytes 8 k
  ofBytes bs := Fin.ofNat _ (ofBytes bs)
  length_toBytes k := by simp
  ofBytes_toBytes k := by
    rw [ofBytes_toBytes_of_lt (by exact k.isLt)]
    exact Fin.ofNat_val_eq_self k

section Offsets
variable (N : ℕ) (K V : Type) [Plain K] [Plain V]

/-- `sizeof`: the keys and the u16 incarnation. -/
def XNodeKeys.size : ℕ := Plain.size K * N + 2

namespace XNode

def valueStartOffset : ℕ := XNodeKeys.size N K

def inplaceValueEndOffset : ℕ := valueStartOffset N K + Plain.size V * N

/-- Values of at most 8 bytes stand in place, larger ones are wrapped. -/
def valueOffset (idx : ℕ) : ℕ :=
  if Plain.size V ≤ 8 then valueStartOffset N K + Plain.size V * idx
  else valueStartOffset N K + Xcomm.WrappedType.size (Plain.size V) * idx

end XNode
end Offsets

variable {N : ℕ} {K V : Type} [Plain K] [Plain V] {mem : ℕ → Byte} {off : ℕ}

namespace XNodeKeys

def ofBuffer (N : ℕ) (K : Type) [Plain K] (mem : ℕ → Byte) (off : ℕ) : XNodeKeys N K where
  keys i := Plain.ofBytes (slice mem (off + Plain.size K * i) (Plain.size K))
  incarnation := UInt16.ofNat (ofBytes (slice mem (off + Plain.size K * N) 2))

def toBytes (n : XNodeKeys N K) : List Byte :=
  (List.finRange N).flatMap (fun i => Plain.toBytes (n.keys i)) ++
    Lib.toBytes 2 n.incarnation.toNat

@[simp] theorem length_toBytes (n : XNodeKeys N K) : n.toBytes.length = size N K := by
  simp [toBytes, size, List.length_flatMap, Nat.mul_comm]

theorem ofBuffer_eq {n : XNodeKeys N K} (h : slice mem off (size N K) = n.toBytes) :
    ofBuffer N K mem off = n := by
  rw [size, slice_add] at h
  obtain ⟨hkeys, hincar⟩ := List.append_inj h (by simp [List.length_flatMap, Nat.mul_comm])
  have hkey : ∀ i : Fin N, slice mem (off + Plain.size K * i) (Plain.size K) =
      Plain.toBytes (n.keys i) :=
    fun i => slice_of_flatMap (fun i : Fin N => Plain.length_toBytes (n.keys i)) (List.finRange N)
      (by simpa using hkeys) (by simp)
  obtain ⟨keys, incarnation⟩ := n
  simp only [ofBuffer, hincar, hkey, Plain.ofBytes_toBytes, mk.injEq]
  rw [ofBytes_toBytes_of_lt (by exact incarnation.toNat_lt)]
  exact ⟨trivial, UInt16.ofNat_toNat⟩

theorem ofBuffer_congr {mem' : ℕ → Byte} {off' : ℕ}
    (h : slice mem off (size N K) = slice mem' off' (size N K)) :
    ofBuffer N K mem off = ofBuffer N K mem' off' := by
  rw [size, slice_add, slice_add] at h
  obtain ⟨hkeys, hincar⟩ := List.append_inj h (by simp)
  have hkey : ∀ i : Fin N, slice mem (off + Plain.size K * i) (Plain.size K) =
      slice mem' (off' + Plain.size K * i) (Plain.size K) := by
    intro i
    have hend : Plain.size K * i + Plain.size K ≤ Plain.size K * N := by
      rw [← Nat.mul_succ]
      exact Nat.mul_le_mul_left _ i.isLt
    obtain ⟨tail, htail⟩ := Nat.exists_eq_add_of_le hend
    rw [htail, slice_add, slice_add, slice_add, slice_add] at hkeys
    obtain ⟨hfront, -⟩ := List.append_inj hkeys (by simp)
    exact (List.append_inj hfront (by simp)).2
  simp only [ofBuffer, hkey, hincar]

end XNodeKeys

namespace XNode
variable [KeyType K]

/-- The leaf stands at an address: its keys, and the values of the slots in use. -/
structure At (ram : ℕ → Byte) (a : ℕ) (n : XNode N K V) : Prop where
  keys : slice ram a (XNodeKeys.size N K) = n.keys.toBytes
  values : Plain.size V ≤ 8 → ∀ i, KeyType.ne (n.keys.keys i) KeyType.invalid = true →
    slice ram (a + valueOffset N K V i) (Plain.size V) = Plain.toBytes (n.values i)

/-- The bytes of a leaf with values in place, up to the end of the values. -/
def image (n : XNode N K V) : List Byte :=
  n.keys.toBytes ++ (List.finRange N).flatMap (fun i => Plain.toBytes (n.values i))

omit [KeyType K] in
@[simp] theorem length_image (n : XNode N K V) : n.image.length = inplaceValueEndOffset N K V := by
  simp [image, inplaceValueEndOffset, valueStartOffset, List.length_flatMap, Nat.mul_comm]

theorem At.of_image {ram : ℕ → Byte} {a : ℕ} {n : XNode N K V}
    (h : slice ram a (inplaceValueEndOffset N K V) = n.image) : n.At ram a := by
  rw [inplaceValueEndOffset, valueStartOffset, slice_add] at h
  obtain ⟨hkeys, hvalues⟩ := List.append_inj h (by simp)
  refine ⟨hkeys, fun hV i _ => ?_⟩
  have hplace : a + valueOffset N K V i = a + XNodeKeys.size N K + Plain.size V * i := by
    rw [valueOffset, if_pos hV, valueStartOffset, Nat.add_assoc]
  rw [hplace]
  exact slice_of_flatMap (fun i => Plain.length_toBytes (n.values i)) (List.finRange N)
    (by simpa using hvalues) (by simp)

theorem At.congr {ram ram' : ℕ → Byte} {a : ℕ} {n : XNode N K V} (h : n.At ram a)
    (heq : ∀ i < inplaceValueEndOffset N K V, ram' (a + i) = ram (a + i)) : n.At ram' a where
  keys := by
    rw [← h.keys]
    refine slice_congr (fun i hi => heq i ?_)
    unfold inplaceValueEndOffset valueStartOffset
    omega
  values hV i hi := by
    rw [← h.values hV i hi]
    refine slice_congr (fun j hj => ?_)
    have hend : Plain.size V * i + Plain.size V ≤ Plain.size V * N := by
      rw [← Nat.mul_succ]
      exact Nat.mul_le_mul_left _ i.isLt
    rw [Nat.add_assoc]
    refine heq _ ?_
    rw [valueOffset, if_pos hV, inplaceValueEndOffset]
    omega

end XNode
end XStore.Xkv
