import XStore.Base
import XStore.Xcomm.WrappedType

/-! The retries of an atomic read (mod.hh). The counter is set to 0 behind the label that a retry
jumps to. -/
namespace XStore.Xcomm
open XStore.Lib

/-- The result of a read; only `Ok` is looked at. -/
inductive IOCode where
  | ok
  | other (code : ℕ)
  deriving DecidableEq, Repr

structure ReadRes where
  code : IOCode
  dest : ℕ → Byte

structure AtomicRW where
  retryCnt : ℕ
  deriving DecidableEq, Repr

inductive Stop where
  | returned (code : IOCode)
  | assert (site : Site)
  deriving DecidableEq, Repr

structure ReadCall where
  rw : AtomicRW
  stop : Stop
  reads : ℕ
  deriving DecidableEq, Repr

def ReadRes.consistent (s : ℕ) (r : ReadRes) : Bool := (WrappedType.ofBuffer s r.dest).consistent

namespace AtomicRW

def reportReties (rw : AtomicRW) : ℕ := rw.retryCnt

/-- From the label `retry` to the next jump there, or to the end of the call. -/
def retryPass (s : ℕ) (r : ReadRes) (rw : AtomicRW) : AtomicRW × Option Stop :=
  let rw := { rw with retryCnt := 0 }
  if r.code ≠ .ok then (rw, some (.returned r.code))
  else if !r.consistent s then
    let rw := { rw with retryCnt := rw.retryCnt + 1 }
    if rw.retryCnt > 1000000 then (rw, some (.assert .retryLimit)) else (rw, none)
  else (rw, some (.returned r.code))

def retryLoop (s : ℕ) (reads : ℕ → ReadRes) : ℕ → ℕ → AtomicRW → Res ReadCall
  | 0, _, _ => .error .outOfFuel
  | fuel + 1, i, rw =>
    match retryPass s (reads i) rw with
    | (rw, some stop) => pure { rw := rw, stop := stop, reads := i + 1 }
    | (rw, none) => retryLoop s reads fuel (i + 1) rw

/-- `atomic_read<T>` for a payload of `s` bytes; `reads` is what its calls of `op.read` do. -/
def atomicRead (s : ℕ) (reads : ℕ → ReadRes) (destSz : ℕ) (fuel : ℕ) (rw : AtomicRW) :
    Res ReadCall :=
  if destSz < WrappedType.size s then
    pure { rw := rw, stop := .assert .destHoldsValue, reads := 0 }
  else retryLoop s reads fuel 0 rw

variable {s : ℕ} {reads : ℕ → ReadRes} {r : ReadRes}

theorem retryPass_consistent (hok : r.code = .ok) (h : r.consistent s = true) (rw : AtomicRW) :
    retryPass s r rw = (⟨0⟩, some (.returned .ok)) := by
  simp [retryPass, hok, h]

theorem retryPass_inconsistent (hok : r.code = .ok) (h : r.consistent s = false) (rw : AtomicRW) :
    retryPass s r rw = (⟨1⟩, none) := by
  simp [retryPass, hok, h]

/-- The call ends at the first consistent read, with the counter 0. -/
theorem retryLoop_first (hok : ∀ i, (reads i).code = .ok) {k i : ℕ}
    (hbefore : ∀ j < k, (reads (i + j)).consistent s = false)
    (hat : (reads (i + k)).consistent s = true) {fuel : ℕ} (hfuel : k < fuel) (rw : AtomicRW) :
    retryLoop s reads fuel i rw = .ok ⟨⟨0⟩, .returned .ok, i + k + 1⟩ := by
  induction k generalizing fuel i rw with
  | zero =>
    obtain ⟨fuel, rfl⟩ := Nat.exists_eq_succ_of_ne_zero (by omega : fuel ≠ 0)
    simp only [retryLoop, retryPass_consistent (hok i) hat, pure_eq_ok, Nat.add_zero]
  | succ k ih =>
    obtain ⟨fuel, rfl⟩ := Nat.exists_eq_succ_of_ne_zero (by omega : fuel ≠ 0)
    have hstep : i + (k + 1) = i + 1 + k := by omega
    have hrest := ih (i := i + 1) (fun j hj => by
      have h := hbefore (j + 1) (by omega)
      rwa [show i + (j + 1) = i + 1 + j by omega] at h) (hstep ▸ hat) (by omega : k < fuel) ⟨1⟩
    have hfirst := hbefore 0 (by omega)
    simp only [retryLoop, retryPass_inconsistent (hok i) hfirst, hrest, hstep]

theorem retryLoop_ok (hok : ∀ i, (reads i).code = .ok) {fuel i : ℕ} {rw : AtomicRW}
    {call : ReadCall} (h : retryLoop s reads fuel i rw = .ok call) :
    call.rw.reportReties = 0 ∧ i < call.reads := by
  induction fuel generalizing i rw with
  | zero => cases h
  | succ fuel ih =>
    cases hcons : (reads i).consistent s with
    | true =>
      simp only [retryLoop, retryPass_consistent (hok i) hcons] at h
      obtain rfl := Except.ok.inj h
      exact ⟨rfl, Nat.lt_succ_self i⟩
    | false =>
      simp only [retryLoop, retryPass_inconsistent (hok i) hcons] at h
      obtain ⟨hcnt, hlt⟩ := ih h
      exact ⟨hcnt, by omega⟩

/-- Without a consistent read the call never ends. -/
theorem retryLoop_runs_on (hok : ∀ i, (reads i).code = .ok)
    (h : ∀ i, (reads i).consistent s = false) (fuel i : ℕ) (rw : AtomicRW) :
    retryLoop s reads fuel i rw = .error .outOfFuel := by
  induction fuel generalizing i rw with
  | zero => rfl
  | succ fuel ih =>
    simp only [retryLoop, retryPass_inconsistent (hok i) (h i)]
    exact ih (i + 1) ⟨1⟩

end AtomicRW

def inconsistentReads (s : ℕ) (reads : ℕ → ReadRes) (n : ℕ) : ℕ :=
  ((List.range n).filter (fun i => !(reads i).consistent s)).length

def GivesUp (s : ℕ) (reads : ℕ → ReadRes) (destSz : ℕ) (rw : AtomicRW) : Prop :=
  ∃ fuel call, AtomicRW.atomicRead s reads destSz fuel rw = .ok call ∧ call.reads ≤ 1000001 ∧
    call.rw.reportReties = inconsistentReads s reads call.reads

/-- The reader gives up as it should exactly if the first read is consistent. -/
theorem atomic_read_gives_up_iff {s : ℕ} {reads : ℕ → ReadRes} {destSz : ℕ}
    (hdest : WrappedType.size s ≤ destSz) (hok : ∀ i, (reads i).code = .ok) (rw : AtomicRW) :
    GivesUp s reads destSz rw ↔ (reads 0).consistent s = true := by
  have hcall : ∀ fuel, AtomicRW.atomicRead s reads destSz fuel rw =
      AtomicRW.retryLoop s reads fuel 0 rw := fun fuel => if_neg (not_lt.mpr hdest)
  constructor
  · rintro ⟨fuel, call, hrun, -, hreport⟩
    rw [hcall] at hrun
    obtain ⟨hzero, hpos⟩ := AtomicRW.retryLoop_ok hok hrun
    rw [hzero] at hreport
    by_contra hnot
    have hmem : 0 ∈ (List.range call.reads).filter (fun i => !(reads i).consistent s) := by
      simpa [hpos] using hnot
    rw [List.eq_nil_of_length_eq_zero hreport.symm] at hmem
    cases hmem
  · intro hfirst
    refine ⟨1, ⟨⟨0⟩, .returned .ok, 1⟩, ?_, by decide, ?_⟩
    · rw [hcall]
      exact AtomicRW.retryLoop_first (k := 0) hok (by simp) hfirst (by decide) rw
    · simp [inconsistentReads, AtomicRW.reportReties, hfirst]

/-- An object whose version stays 0, as between `begin_write` and `done_write`: the reader goes
on forever. -/
theorem atomic_read_never_gives_up :
    ¬ ∀ (s : ℕ) (reads : ℕ → ReadRes) (destSz : ℕ) (rw : AtomicRW), WrappedType.size s ≤ destSz →
      (∀ i, (reads i).code = .ok) → GivesUp s reads destSz rw := by
  intro hall
  have hsize : WrappedType.size 8 ≤ 64 := by decide
  obtain ⟨fuel, call, hrun, -⟩ :=
    hall 8 (fun _ => ⟨.ok, fun _ => 0⟩) 64 ⟨0⟩ hsize (fun _ => rfl)
  have hparked : ∀ _ : ℕ, ReadRes.consistent 8 ⟨.ok, fun _ => 0⟩ = false := fun _ => by decide
  rw [AtomicRW.atomicRead, if_neg (not_lt.mpr hsize),
    AtomicRW.retryLoop_runs_on (fun _ => rfl) hparked] at hrun
  cases hrun

theorem atomic_read_gives_up_iff_one :
    GivesUp 8 (fun _ => ⟨.ok, fun b => if b % 12 = 0 then 1 else 0⟩) 64 ⟨7⟩ ↔
      ReadRes.consistent 8 ⟨.ok, fun b => if b % 12 = 0 then 1 else 0⟩ = true :=
  atomic_read_gives_up_iff (by decide) (fun _ => rfl) ⟨7⟩

end XStore.Xcomm
