import XStore.Xkv.Exhaust
import XStore.Xutils.RtmObject

/-! `alloc_impl` (xalloc.hh) from any number of threads. Each access to the counters and to the
CompactSpinLock is a step of its own. -/
namespace XStore.Xkv
open XStore.Lib XStore.Xutils

inductive SlabCell where
  | curAllocSz
  | curAllocNum
  deriving DecidableEq

/-- A pool for `XAlloc<S>`. It stands in memory, with room for another block behind it. -/
structure Slab where
  S : ℕ
  memPool : ℕ
  totalSz : ℕ
  pos : 0 < S
  fits : memPool + totalSz + S < 2 ^ 64

namespace Slab
variable [Usize] (p : Slab)

/-- `alloc_impl` between `lock` and `unlock`; `cur_alloc_sz` is a u64, `cur_alloc_num` a usize. -/
def allocImpl : Prog SlabCell ℕ (Option Ptr) :=
  .read .curAllocSz fun sz =>
    if (sz + p.S) % 2 ^ 64 ≤ p.totalSz then
      .read .curAllocSz fun sz =>
        .read .curAllocSz fun sz' =>
          .write .curAllocSz ((sz' + p.S) % 2 ^ 64) <|
            .read .curAllocNum fun num =>
              .write .curAllocNum ((num + 1) % 2 ^ Usize.bits) <| .ret (some (p.memPool + sz))
    else .ret none

def zeros : SlabCell → ℕ := fun _ => 0

def blocks : ℕ := p.totalSz / p.S

def after : ℕ → XAlloc p.S
  | 0 => ⟨p.memPool, p.totalSz, 0, 0⟩
  | n + 1 => (AllocTrait.alloc (after n)).2

def block (n : ℕ) : Option Ptr := (AllocTrait.alloc (p.after n)).1

def Holds (m : SlabCell → ℕ) (a : XAlloc p.S) : Prop :=
  m .curAllocSz = a.curAllocSz ∧ m .curAllocNum = a.curAllocNum % 2 ^ Usize.bits

variable {p : Slab} {n : ℕ}

omit [Usize] in
theorem lt_blocks : n < p.blocks ↔ n * p.S + p.S ≤ p.totalSz := by
  rw [blocks, ← Nat.succ_le_iff, Nat.le_div_iff_mul_le p.pos, Nat.succ_mul]

omit [Usize] in
theorem after_eq (n : ℕ) : p.after n =
    ⟨p.memPool, p.totalSz, min n p.blocks * p.S, min n p.blocks⟩ := by
  induction n with
  | zero => simp [after]
  | succ n ih =>
    rw [after, ih]
    by_cases h : n < p.blocks
    · have hn : min n p.blocks = n := by omega
      have hnext : min (n + 1) p.blocks = n + 1 := by omega
      simp only [AllocTrait.alloc, hn, hnext, if_pos (lt_blocks.mp h), Nat.succ_mul]
    · have hn : min n p.blocks = p.blocks := by omega
      have hnext : min (n + 1) p.blocks = p.blocks := by omega
      simp only [AllocTrait.alloc, hn, hnext, if_neg (mt lt_blocks.mpr (lt_irrefl p.blocks))]

omit [Usize] in
theorem block_eq (n : ℕ) :
    p.block n = if n < p.blocks then some (p.memPool + n * p.S) else none := by
  rw [block, after_eq]
  by_cases h : n < p.blocks
  · have hn : min n p.blocks = n := by omega
    simp only [AllocTrait.alloc, hn, if_pos (lt_blocks.mp h), if_pos h]
  · have hn : min n p.blocks = p.blocks := by omega
    simp only [AllocTrait.alloc, hn, if_neg (mt lt_blocks.mpr (lt_irrefl p.blocks)), if_neg h]

omit [Usize] in
theorem block_inside {j a : ℕ} (ha : p.block j = some a) :
    p.memPool ≤ a ∧ a + p.S ≤ p.memPool + p.totalSz := by
  rw [block_eq] at ha
  by_cases hj : j < p.blocks
  · rw [if_pos hj, Option.some.injEq] at ha
    have hin := lt_blocks.mp hj
    omega
  · rw [if_neg hj] at ha
    cases ha

omit [Usize] in
theorem block_apart {i j a b : ℕ} (hij : i < j) (ha : p.block i = some a)
    (hb : p.block j = some b) : a + p.S ≤ b := by
  rw [block_eq] at ha hb
  by_cases hj : j < p.blocks
  · rw [if_pos (hij.trans hj), Option.some.injEq] at ha
    rw [if_pos hj, Option.some.injEq] at hb
    have hbetween : i * p.S + p.S ≤ j * p.S := by
      rw [← Nat.succ_mul]
      exact Nat.mul_le_mul_right _ hij
    omega
  · rw [if_neg hj] at hb
    cases hb

/-- The body does on the counters what the allocator does. -/
theorem allocImpl_run {m : SlabCell → ℕ} (h : p.Holds m (p.after n)) :
    (p.allocImpl.run m).1 = p.block n ∧ p.Holds (p.allocImpl.run m).2 (p.after (n + 1)) := by
  obtain ⟨hsz, hnum⟩ := h
  have hfits := p.fits
  simp only [after_eq] at hsz hnum
  rw [block_eq, after_eq]
  by_cases hlt : n < p.blocks
  · have hroom := lt_blocks.mp hlt
    have hn : min n p.blocks = n := by omega
    have hnext : min (n + 1) p.blocks = n + 1 := by omega
    rw [hn] at hsz hnum
    have hsum : (m .curAllocSz + p.S) % 2 ^ 64 = n * p.S + p.S := by
      rw [hsz]
      exact Nat.mod_eq_of_lt (by omega)
    have hcount : (m .curAllocNum + 1) % 2 ^ Usize.bits = (n + 1) % 2 ^ Usize.bits := by
      rw [hnum, Nat.mod_add_mod]
    have hbody : p.allocImpl.run m = (some (p.memPool + m .curAllocSz), Function.update
        (Function.update m .curAllocSz (n * p.S + p.S)) .curAllocNum
          ((n + 1) % 2 ^ Usize.bits)) := by
      rw [← hcount]
      simp only [allocImpl, Prog.run, hsum, if_pos hroom, ne_eq, reduceCtorEq, not_false_eq_true,
        Function.update_of_ne]
    rw [hbody, hsz, if_pos hlt, hnext]
    refine ⟨rfl, ?_, ?_⟩
    · simp [Nat.succ_mul]
    · simp
  · have hfull : ¬ p.blocks * p.S + p.S ≤ p.totalSz := mt lt_blocks.mpr (lt_irrefl p.blocks)
    have hn : min n p.blocks = p.blocks := by omega
    have hnext : min (n + 1) p.blocks = p.blocks := by omega
    rw [hn] at hsz hnum
    have hin : p.blocks * p.S ≤ p.totalSz := Nat.div_mul_le_self _ _
    have hsum : (m .curAllocSz + p.S) % 2 ^ 64 = p.blocks * p.S + p.S := by
      rw [hsz]
      exact Nat.mod_eq_of_lt (by omega)
    have hbody : p.allocImpl.run m = (none, m) := by
      simp only [allocImpl, Prog.run, hsum, if_neg hfull]
    rw [hbody, if_neg hlt, hnext]
    exact ⟨rfl, hsz, hnum⟩

/-- The allocator as an object: all that a call depends on is how many there were. -/
def object (p : Slab) : Rtm.Object SlabCell ℕ (Option Ptr) Unit ℕ where
  body _ := p.allocImpl
  next n _ := (p.block n, n + 1)
  Rel m n := p.Holds m (p.after n)
  spec _ _ _ h := allocImpl_run h

theorem sequential_next (us : List Unit) (n : ℕ) : sequential p.object.next us n =
    ((List.range' n us.length).map p.block, n + us.length) := by
  induction us generalizing n with
  | nil => rfl
  | cons u us ih =>
    have hnext : p.object.next n u = (p.block n, n + 1) := rfl
    simp only [sequential, hnext, ih, List.length_cons, List.range'_succ, List.map_cons,
      Nat.add_right_comm n 1, Nat.add_assoc]

section Threads
variable {T : Type} [DecidableEq T] {s : Rtm T SlabCell ℕ (Option Ptr)}
  {es : List (RtmEvent T SlabCell ℕ (Option Ptr))}

/-- Whatever the threads do, their calls of the allocator return what calls one after the other
return: blocks of the pool, one behind the other, as long as there is room for another one. While
nobody has the lock the counters are exact. -/
theorem xalloc_concurrent (hrun : run Rtm.step es (.init zeros) = some s)
    (hcalls : ∀ e ∈ es, Rtm.Calls p.object.body e) :
    ∃ callers : List T,
      s.history = callers.mapIdx (fun j t => .scope t p.allocImpl (p.block j)) ∧
      ((∀ t, ¬ (s.phase t).InPlace) → p.Holds s.mem (p.after callers.length)) ∧
      (∀ j a : ℕ, p.block j = some a → p.memPool ≤ a ∧ a + p.S ≤ p.memPool + p.totalSz) ∧
      (∀ i j a b : ℕ, i < j → p.block i = some a → p.block j = some b → a + p.S ≤ b) ∧
      ∀ j, p.block j = none → p.totalSz < (p.after j).curAllocSz + p.S := by
  have hzero : p.object.Rel zeros 0 := ⟨rfl, rfl⟩
  obtain ⟨calls, b, hhistory, hrel, hquiet, -⟩ := Rtm.Object.linearizes hzero hrun hcalls
  rw [sequential_next, List.length_map] at hhistory hrel
  refine ⟨calls.map Prod.fst, ?_, fun hall => ?_, fun j a => block_inside,
    fun i j a b => block_apart, fun j hj => ?_⟩
  · rw [hhistory]
    refine List.ext_getElem ?_ fun j hj hj' => ?_
    · simp
    · simp [List.getElem_range', object]
  · rw [hquiet hall, List.length_map]
    simpa [object] using hrel
  · by_contra hroom
    have hsome : AllocTrait.alloc (p.after j) = _ := if_pos (by
      rw [not_lt] at hroom
      rw [after_eq] at hroom ⊢
      exact hroom)
    rw [block, hsome] at hj
    cases hj

end Threads

def tiny : Slab where
  S := 8
  memPool := 64
  totalSz := 16
  pos := by decide
  fits := by decide

/-- The second thread finds the lock taken, and gets it after the first one; the call after that
finds the pool empty. -/
def contended : List (RtmEvent Bool SlabCell ℕ (Option Ptr)) :=
  [.lock false tiny.allocImpl, .xchg false, .lock true tiny.allocImpl, .xchg true] ++
    List.replicate 6 (.access false) ++ [.leave false, .relax true, .xchg true] ++
    List.replicate 6 (.access true) ++ [.leave true] ++
    [.lock false tiny.allocImpl, .xchg false, .access false, .leave false]

omit [Usize] in
theorem xalloc_concurrent_two :
    letI := usize64
    ∃ s, run Rtm.step contended (.init zeros) = some s ∧
      ∃ callers : List Bool, callers.length = 3 ∧
        s.history = callers.mapIdx (fun j t => .scope t tiny.allocImpl (tiny.block j)) ∧
        tiny.block 2 = none ∧
        ((∀ t, ¬ (s.phase t).InPlace) → tiny.Holds s.mem (tiny.after 3)) ∧
        (∀ j a : ℕ, tiny.block j = some a → 64 ≤ a ∧ a + 8 ≤ 64 + 16) ∧
        (∀ i j a b : ℕ, i < j → tiny.block i = some a → tiny.block j = some b → a + 8 ≤ b) ∧
        ∀ j, tiny.block j = none → 16 < (tiny.after j).curAllocSz + 8 := by
  let : Usize := usize64
  obtain ⟨s, hrun, hthree⟩ : ∃ s, run Rtm.step contended (.init zeros) = some s ∧
      s.history.length = 3 := ⟨_, rfl, rfl⟩
  obtain ⟨callers, hhistory, hquiet, hrest⟩ :=
    xalloc_concurrent (p := tiny) hrun (by simp [contended, Rtm.Calls, object])
  have hlen : callers.length = 3 := by
    rw [hhistory, List.length_mapIdx] at hthree
    exact hthree
  rw [hlen] at hquiet
  exact ⟨s, hrun, callers, hlen, hhistory, by decide, hquiet, hrest⟩

end Slab
end XStore.Xkv
