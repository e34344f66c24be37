import XStore.Xutils.RtmObject
import Mathlib.Tactic.IntervalCases

/-! The threads of test_rtm.cc, which move an amount between two accounts in RTM scopes. -/
namespace XStore.Xutils
open XStore.Lib

inductive Account where
  | a
  | b
  deriving DecidableEq

namespace Account

def val : UInt64 := 12

def give : Prog Account UInt64 Unit :=
  .read .a fun a => .write .a (a + val) <| .read .b fun b => .write .b (b - val) <| .ret ()

def take : Prog Account UInt64 Unit :=
  .read .a fun a => .write .a (a - val) <| .read .b fun b => .write .b (b + val) <| .ret ()

def transfer : Prog Account UInt64 Unit :=
  .read .a fun a => .read .b fun b =>
    if a > b then
      .read .a fun a => .read .b fun b => if a - b > 100 then take else give
    else give

def start : Account → UInt64 := fun _ => 1000

/-- The amounts that were moved from `b` to `a`, and not back, after `n` iterations. -/
def moved (n : ℕ) : ℕ := if n < 5 then n else 4 + n % 2

def Holds (m : Account → UInt64) (n : ℕ) : Prop :=
  m .a = 1000 + val * UInt64.ofNat (moved n) ∧ m .b = 1000 - val * UInt64.ofNat (moved n)

/-- What the test asserts behind every scope. -/
def Solvent (m : Account → UInt64) : Prop := val ≤ m .a ∧ val ≤ m .b

theorem moved_succ (n : ℕ) :
    moved n < 5 ∧ moved (n + 1) = moved n + 1 ∨ moved n = 5 ∧ moved (n + 1) = 4 := by
  unfold moved
  split <;> split <;> omega

/-- One iteration, alone: it counts, and it never leaves an account without the amount. -/
theorem transfer_run {m : Account → UInt64} {n : ℕ} (h : Holds m n) :
    Holds (transfer.run m).2 (n + 1) ∧ transfer.Always Solvent m := by
  obtain ⟨ha, hb⟩ := h
  rcases moved_succ n with ⟨hlt, hnext⟩ | ⟨hfive, hnext⟩
  · unfold Holds
    rw [hnext]
    generalize moved n = k at ha hb hlt
    interval_cases k <;>
      simp [transfer, give, Prog.run, Prog.Always, Solvent, ha, hb, val]
  · unfold Holds
    rw [hnext]
    rw [hfive] at ha hb
    simp [transfer, take, Prog.run, Prog.Always, Solvent, ha, hb, val]

def object : Rtm.Object Account UInt64 Unit Unit ℕ where
  body _ := transfer
  next n _ := ((), n + 1)
  Rel := Holds
  spec _ _ _ h := ⟨rfl, (transfer_run h).1⟩

theorem sequential_next (us : List Unit) (n : ℕ) :
    (sequential object.next us n).2 = n + us.length := by
  induction us generalizing n with
  | nil => rfl
  | cons u us ih =>
    have hnext : object.next n u = ((), n + 1) := rfl
    simp only [sequential, hnext, ih, List.length_cons]
    omega

section Threads
variable {T : Type} [DecidableEq T] {s : Rtm T Account UInt64 Unit}
  {es : List (RtmEvent T Account UInt64 Unit)}

/-- Any number of threads and iterations: at every moment both accounts have the amount that the
test asserts, and whenever nobody has the lock they have together what they had at the start, with
every iteration counted. -/
theorem transfers_balance (hrun : run Rtm.step es (.init start) = some s)
    (hcalls : ∀ e ∈ es, Rtm.Calls object.body e) :
    Solvent s.mem ∧ ((∀ t, ¬ (s.phase t).InPlace) →
      s.mem .a + s.mem .b = 2000 ∧ Holds s.mem s.history.length) := by
  have hzero : object.Rel start 0 := by
    constructor <;> decide
  obtain ⟨calls, b, hhistory, hrel, hquiet, hbusy⟩ := Rtm.Object.linearizes hzero hrun hcalls
  have hlength : s.history.length = calls.length := by
    rw [hhistory, List.length_zipWith, sequential_length, List.length_map, min_self]
  rw [sequential_next, List.length_map, Nat.zero_add, ← hlength] at hrel
  have halways := (transfer_run hrel).2
  refine ⟨?_, fun hall => ?_⟩
  · by_cases hall : ∀ t, ¬ (s.phase t).InPlace
    · rw [hquiet hall]
      exact halways.head
    · obtain ⟨t, ht⟩ := not_forall_not.mp hall
      obtain ⟨rtm, body, rest, hphase⟩ := Rtm.inPlace_iff.mp ht
      obtain ⟨_, rfl, hreach⟩ := hbusy t rtm body rest hphase
      exact (halways.reaches hreach).head
  · rw [hquiet hall]
    refine ⟨?_, hrel⟩
    rw [hrel.1, hrel.2]
    generalize val * UInt64.ofNat (moved s.history.length) = amount
    grind

end Threads

def moves : List (RtmEvent Bool Account UInt64 Unit) :=
  [.enter false transfer, .xbegin false, .isLocked false] ++ List.replicate 6 (.access false) ++
    [.leave false, .lock true transfer, .xchg true] ++ List.replicate 8 (.access true) ++
    [.leave true]

theorem transfers_balance_two : ∃ s, run Rtm.step moves (.init start) = some s ∧
    Solvent s.mem ∧ s.mem .a + s.mem .b = 2000 ∧ Holds s.mem 2 := by
  obtain ⟨s, hrun, hlength, hout⟩ : ∃ s, run Rtm.step moves (.init start) = some s ∧
      s.history.length = 2 ∧ ∀ t, ¬ (s.phase t).InPlace := by
    refine ⟨_, rfl, rfl, fun t => ?_⟩
    cases t <;> exact id
  obtain ⟨hsolvent, hbalance⟩ := transfers_balance hrun (by simp [moves, Rtm.Calls, object])
  obtain ⟨hsum, hholds⟩ := hbalance hout
  exact ⟨s, hrun, hsolvent, hsum, hlength ▸ hholds⟩

end Account
end XStore.Xutils
