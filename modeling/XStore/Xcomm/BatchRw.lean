import XStore.Base
import XStore.Lib.Bytes
import Mathlib.Data.List.FinRange

/-! One-sided reads in a batch (batch_rw_op.hh). The ops of a batch are posted as one chain, and
the NIC copies what the memory of the server holds. -/
namespace XStore.Xcomm
open XStore.Lib
variable {n : ℕ} {α : Type}

/-- A read, as the setters of an op leave it: from where, to where, and how much. -/
structure ReadOp where
  rdmaRbuf : ℕ
  payload : ℕ
  sz : ℕ
  deriving DecidableEq, Repr

/-- The bytes of the server arrive in the memory of the client. -/
def ReadOp.execute (ram mem : ℕ → Byte) (op : ReadOp) : ℕ → Byte :=
  memcpy mem op.payload (slice ram op.rdmaRbuf op.sz)

theorem ReadOp.slice_execute {ram mem : ℕ → Byte} (op : ReadOp) {len : ℕ} (h : len ≤ op.sz) :
    slice (op.execute ram mem) op.payload len = slice ram op.rdmaRbuf len := by
  have hcopy : slice (op.execute ram mem) op.payload (slice ram op.rdmaRbuf op.sz).length =
    slice ram op.rdmaRbuf op.sz := slice_memcpy _ _
  rw [length_slice] at hcopy
  rw [← take_slice h, hcopy, take_slice h]

/-- `cur_idx` is an int. -/
structure BatchOp (n : ℕ) where
  ops : Fin n → ReadOp
  curIdx : ℤ

namespace BatchOp

def new : BatchOp n where
  ops _ := ⟨0, 0, 0⟩
  curIdx := -1

def emplace (b : BatchOp n) : BatchOp n := { b with curIdx := b.curIdx + 1 }

/-- The setters on `get_cur_op()`, which checks no index. -/
def setCurOp (b : BatchOp n) (op : ReadOp) : Res (BatchOp n) :=
  if h : 0 ≤ b.curIdx ∧ b.curIdx.toNat < n then
    .ok { b with ops := Function.update b.ops ⟨b.curIdx.toNat, h.2⟩ op }
  else .error .outOfRange

def reset (b : BatchOp n) : BatchOp n := { b with curIdx := -1 }

/-- The chain that is posted: from the first op to the current one, whose `next` is null. -/
def posted (b : BatchOp n) : List ReadOp :=
  ((List.finRange n).take (b.curIdx + 1).toNat).map b.ops

def executeAsync (ram mem : ℕ → Byte) (b : BatchOp n) : Res ((ℕ → Byte) × BatchOp n) :=
  if b.curIdx < 0 then pure (mem, b)
  else do
    ensure (decide (b.curIdx < n)) .batchFits
    pure (b.posted.foldl (ReadOp.execute ram) mem, b.reset)

def emplaceAll (f : α → Res ReadOp) (b : BatchOp n) (as : List α) : Res (BatchOp n) :=
  as.foldlM (fun b a => do
    let b := b.emplace
    let op ← f a
    b.setCurOp op) b

structure Holds (b : BatchOp n) (xs : List ReadOp) : Prop where
  cur : b.curIdx + 1 = xs.length
  posted : b.posted = xs

section Spec
variable {b b' : BatchOp n} {xs : List ReadOp} {op : ReadOp} {f : α → Res ReadOp}

theorem Holds.new : (new : BatchOp n).Holds [] where
  cur := rfl
  posted := by simp [BatchOp.posted, BatchOp.new]

theorem Holds.length_le (h : b.Holds xs) : xs.length ≤ n := by
  rw [← h.posted, BatchOp.posted, List.length_map, List.length_take, List.length_finRange]
  exact Nat.min_le_right _ _

theorem Holds.setCurOp (h : b.Holds xs) (hlt : xs.length < n) (op : ReadOp) :
    ∃ b', b.emplace.setCurOp op = .ok b' ∧ b'.Holds (xs ++ [op]) := by
  have hcur := h.cur
  have hidx : b.emplace.curIdx = xs.length := hcur
  have hnat : b.emplace.curIdx.toNat = xs.length := by omega
  have hguard : 0 ≤ b.emplace.curIdx ∧ b.emplace.curIdx.toNat < n := by omega
  refine ⟨_, dif_pos hguard, by simp [hidx], ?_⟩
  have htake : (b.emplace.curIdx + 1).toNat = xs.length + 1 := by omega
  have hold : (b.curIdx + 1).toNat = xs.length := by omega
  have hposted := h.posted
  simp only [BatchOp.posted, hold] at hposted
  have hlen : xs.length < (List.finRange n).length := by simpa using hlt
  simp only [BatchOp.posted, htake, List.take_succ_eq_append_getElem hlen, List.map_append,
    List.map_cons, List.map_nil, List.getElem_finRange]
  congr 1
  · refine Eq.trans ?_ hposted
    refine List.map_congr_left (fun i hi => ?_)
    refine Function.update_of_ne (fun heq : i = ⟨b.emplace.curIdx.toNat, hguard.2⟩ => ?_) op b.ops
    obtain ⟨j, hj, hget⟩ := List.mem_take_iff_getElem.mp hi
    have hval := congrArg Fin.val (hget.trans heq)
    simp only [List.getElem_finRange, Fin.val_cast, hnat] at hval
    omega
  · have heq : Fin.cast List.length_finRange ⟨xs.length, hlen⟩ =
        (⟨b.emplace.curIdx.toNat, hguard.2⟩ : Fin n) := Fin.ext hnat.symm
    rw [heq]
    exact congrArg (fun x => [x]) (Function.update_self _ _ _)

theorem Holds.emplaceAll {g : α → ReadOp} (h : b.Holds xs) (as : List α)
    (hroom : xs.length + as.length ≤ n) (hf : ∀ a ∈ as, f a = .ok (g a)) :
    ∃ b', b.emplaceAll f as = .ok b' ∧ b'.Holds (xs ++ as.map g) := by
  induction as generalizing b xs with
  | nil => exact ⟨b, rfl, by simpa using h⟩
  | cons a as ih =>
    rw [List.length_cons] at hroom
    have hhead := hf a List.mem_cons_self
    obtain ⟨b₁, hset, h₁⟩ := h.setCurOp (by omega) (g a)
    obtain ⟨b', hrest, h'⟩ := ih h₁ (by rw [List.length_append, List.length_singleton]; omega)
      (fun a' ha' => hf a' (List.mem_cons_of_mem a ha'))
    refine ⟨b', ?_, by simpa using h'⟩
    simp only [BatchOp.emplaceAll, List.foldlM_cons, hhead, ok_bind, hset]
    exact hrest

theorem Holds.executeAsync (h : b.Holds xs) (ram mem : ℕ → Byte) :
    ∃ b', b.executeAsync ram mem = .ok (xs.foldl (ReadOp.execute ram) mem, b') := by
  have hcur := h.cur
  have hle := h.length_le
  unfold BatchOp.executeAsync
  by_cases hneg : b.curIdx < 0
  · have hnil : xs = [] := List.length_eq_zero_iff.mp (by omega)
    rw [if_pos hneg, hnil]
    exact ⟨b, rfl⟩
  · have hlt : b.curIdx < n := by omega
    rw [if_neg hneg, h.posted]
    exact ⟨b.reset, by simp [hlt]⟩

end Spec
end BatchOp
end XStore.Xcomm
