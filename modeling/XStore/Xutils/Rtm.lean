import XStore.Base
import XStore.Lib.Runs
import XStore.Lib.Transact

/-! RTM scopes with a fallback lock (rtm.hh, spin_lock.hh), opened by any number of threads on one
memory, beside threads that take the lock themselves. The hardware may abort a transaction at any
time; it commits one only if nothing that the transaction has read, the lock included, was
changed. -/
namespace XStore.Xutils
open XStore.Lib
variable {T L W R : Type}

def xabortExplicit : UInt32 := 0x01
def xabortConflict : UInt32 := 0x04
def xabortCapacity : UInt32 := 0x08
def xabortNested : UInt32 := 0x20
def xabortCode (stat : UInt32) : UInt32 := (stat >>> 24) &&& 0xff

def xabort (imm : UInt32) : UInt32 := (imm <<< 24) ||| xabortExplicit

def maxAbortCapacity : ℕ := 1
def maxAbortNested : ℕ := 0
def maxAbortZero : ℕ := 0
def maxAbortConflict : ℕ := 10

def magicExplictAbortFlag : UInt32 := 0x73

structure RTMScope where
  retry : ℕ
  conflict : ℕ
  capacity : ℕ
  nested : ℕ
  zero : ℕ
  deriving DecidableEq, Repr

namespace RTMScope

def new : RTMScope where
  retry := 0
  conflict := 0
  capacity := 0
  nested := 0
  zero := 0

/-- An abort is counted by the first bit that applies; one without any of them only as a retry. -/
def count (rtm : RTMScope) (stat : UInt32) : RTMScope :=
  let rtm := { rtm with retry := rtm.retry + 1 }
  if stat &&& xabortNested ≠ 0 then { rtm with nested := rtm.nested + 1 }
  else if stat = 0 then { rtm with zero := rtm.zero + 1 }
  else if stat &&& xabortConflict ≠ 0 then { rtm with conflict := rtm.conflict + 1 }
  else if stat &&& xabortCapacity ≠ 0 then { rtm with capacity := rtm.capacity + 1 }
  else rtm

/-- The aborts after which the constructor waits until the lock is free. -/
def awaitsLock (stat : UInt32) : Bool :=
  stat &&& xabortExplicit ≠ 0 && xabortCode stat == magicExplictAbortFlag

def step : ℕ := 1

/-- The constructor leaves its loop and takes the lock. -/
def givesUp (rtm : RTMScope) : Bool :=
  decide (rtm.nested > maxAbortNested) || decide (rtm.zero > maxAbortZero / step) ||
    decide (rtm.capacity > maxAbortCapacity / step) ||
    decide (rtm.conflict > maxAbortConflict / step)

def counted (rtm : RTMScope) : ℕ := rtm.nested + rtm.zero + rtm.capacity + rtm.conflict

theorem givesUp_eq_false {rtm : RTMScope} : rtm.givesUp = false ↔
    rtm.nested = 0 ∧ rtm.zero = 0 ∧ rtm.capacity ≤ 1 ∧ rtm.conflict ≤ 10 := by
  simp [givesUp, maxAbortNested, maxAbortZero, maxAbortCapacity, maxAbortConflict, step, and_assoc]

theorem counted_count (rtm : RTMScope) (stat : UInt32) :
    (rtm.count stat).counted ≤ rtm.counted + 1 := by
  simp only [count]
  split
  · simp only [counted]
    omega
  split
  · simp only [counted]
    omega
  split
  · simp only [counted]
    omega
  split
  · simp only [counted]
    omega
  · simp only [counted]
    omega

/-- The aborts that a scope counts: the constructor gives up after 12 of them at the latest. -/
def Counts (stat : UInt32) : Prop :=
  stat &&& xabortNested ≠ 0 ∨ stat = 0 ∨ stat &&& xabortConflict ≠ 0 ∨ stat &&& xabortCapacity ≠ 0

instance (stat : UInt32) : Decidable (Counts stat) := by
  unfold Counts
  infer_instance

theorem counted_of_counts (rtm : RTMScope) {stat : UInt32} (h : Counts stat) :
    (rtm.count stat).counted = rtm.counted + 1 := by
  simp only [count]
  split
  · simp only [counted]
    omega
  split
  · simp only [counted]
    omega
  split
  · simp only [counted]
    omega
  split
  · simp only [counted]
    omega
  · simp_all [Counts]

/-- Only the code of the magic number makes the constructor wait: an abort by the hardware has no
code, and the constructor itself aborts with another one. -/
theorem awaitsLock_hardware {stat : UInt32} (h : stat &&& xabortExplicit = 0) :
    awaitsLock stat = false := by
  simp [awaitsLock, h]

theorem awaitsLock_locked : awaitsLock (xabort 0xff) = false := by decide

/-- Of an abort because the lock is taken no counter but that of the retries takes notice. -/
theorem count_locked (rtm : RTMScope) :
    rtm.count (xabort 0xff) = { rtm with retry := rtm.retry + 1 } := by
  have hnested : xabort 0xff &&& xabortNested = 0 := by decide
  have hconflict : xabort 0xff &&& xabortConflict = 0 := by decide
  have hcapacity : xabort 0xff &&& xabortCapacity = 0 := by decide
  have hzero : xabort 0xff ≠ 0 := by decide
  simp [count, hnested, hconflict, hcapacity, hzero]

end RTMScope

/-- Where a thread is with its scope: before `_xbegin`, behind it, in the body with a transaction,
waiting for the lock to be free after an abort, at the `xchg16` of the lock, in the loop behind
it, or in the body with the lock. A thread that takes the lock itself has no counters. -/
inductive ScopePhase (L W R : Type) where
  | outside
  | beginning (rtm : RTMScope) (body : Prog L W R)
  | started (rtm : RTMScope) (body : Prog L W R)
  | inside (rtm : RTMScope) (body : Prog L W R) (log : TxLog L W) (rest : Prog L W R)
  | waiting (rtm : RTMScope) (body : Prog L W R)
  | locking (rtm : Option RTMScope) (body : Prog L W R)
  | spinning (rtm : Option RTMScope) (body : Prog L W R)
  | inPlace (rtm : Option RTMScope) (body : Prog L W R) (rest : Prog L W R)

namespace ScopePhase

def body : ScopePhase L W R → Option (Prog L W R)
  | .outside => none
  | .beginning _ body => some body
  | .started _ body => some body
  | .inside _ body _ _ => some body
  | .waiting _ body => some body
  | .locking _ body => some body
  | .spinning _ body => some body
  | .inPlace _ body _ => some body

def InPlace : ScopePhase L W R → Prop
  | .inPlace _ _ _ => True
  | _ => False

def retry (rtm : RTMScope) (body : Prog L W R) : ScopePhase L W R :=
  if rtm.givesUp then .locking (some rtm) body else .beginning rtm body

def aborted (rtm : RTMScope) (body : Prog L W R) (stat : UInt32) : ScopePhase L W R :=
  if RTMScope.awaitsLock stat then .waiting (rtm.count stat) body else retry (rtm.count stat) body

/-- Before the constructor gives up it holds no more aborts than it may; it takes the lock only
behind that, with at most 12 aborts that count. It never waits for the lock to be free. -/
def Bounded : ScopePhase L W R → Prop
  | .outside => True
  | .beginning rtm _ => rtm.givesUp = false
  | .started rtm _ => rtm.givesUp = false
  | .inside rtm _ _ _ => rtm.givesUp = false
  | .waiting _ _ => False
  | .locking rtm _ => ∀ r, rtm = some r → r.givesUp = true ∧ r.counted ≤ 12
  | .spinning rtm _ => ∀ r, rtm = some r → r.givesUp = true ∧ r.counted ≤ 12
  | .inPlace rtm _ _ => ∀ r, rtm = some r → r.givesUp = true ∧ r.counted ≤ 12

section Aborted
variable (rtm : RTMScope) (b : Prog L W R) (stat : UInt32)

theorem bounded_aborted {rtm : RTMScope} (h : rtm.givesUp = false) {stat : UInt32}
    (hstat : RTMScope.awaitsLock stat = false) : (aborted rtm b stat).Bounded := by
  have hcount := rtm.counted_count stat
  obtain ⟨hnested, hzero, hcapacity, hconflict⟩ := RTMScope.givesUp_eq_false.mp h
  have hold : rtm.counted ≤ 11 := by
    unfold RTMScope.counted
    omega
  rw [aborted, hstat, if_neg Bool.false_ne_true, retry]
  split
  · next hup =>
    intro r hr
    obtain rfl := Option.some.inj hr
    exact ⟨hup, by omega⟩
  · next hup => exact Bool.eq_false_iff.mpr hup

theorem body_retry : (retry rtm b).body = some b := by
  unfold retry
  split <;> rfl

theorem body_aborted : (aborted rtm b stat).body = some b := by
  unfold aborted
  split
  · rfl
  · exact body_retry _ b

theorem retry_outside : ¬ (retry rtm b).InPlace ∧
    ∀ rtm' b' log rest, retry rtm b ≠ .inside rtm' b' log rest := by
  unfold retry
  split <;> simp [InPlace]

theorem aborted_outside : ¬ (aborted rtm b stat).InPlace ∧
    ∀ rtm' b' log rest, aborted rtm b stat ≠ .inside rtm' b' log rest := by
  unfold aborted
  split
  · simp [InPlace]
  · exact retry_outside _ b

end Aborted
end ScopePhase

/-- What took effect: a whole scope with its result, or a store outside of all scopes. -/
inductive Effect (T L W R : Type) where
  | scope (t : T) (body : Prog L W R) (r : R)
  | store (t : T) (l : L) (w : W)

def Effect.Act [DecidableEq L] : Effect T L W R → (L → W) → (L → W) → Prop
  | .scope _ body r, m, m' => body.run m = (r, m')
  | .store _ l w, m, m' => m' = Function.update m l w

def Effect.scopeOf [DecidableEq T] (t : T) : Effect T L W R → Option (Prog L W R)
  | .scope u body _ => if u = t then some body else none
  | .store _ _ _ => none

/-- The memory with the lock, and the threads. The history is a record of the run. -/
structure Rtm (T L W R : Type) where
  mem : L → W
  lock : UInt16
  phase : T → ScopePhase L W R
  history : List (Effect T L W R)

inductive RtmEvent (T L W R : Type) where
  | enter (t : T) (body : Prog L W R)
  | lock (t : T) (body : Prog L W R)
  | xbegin (t : T)
  | isLocked (t : T)
  | access (t : T)
  | abort (t : T) (stat : UInt32)
  | leave (t : T)
  | pause (t : T)
  | xchg (t : T)
  | relax (t : T)
  | store (t : T) (l : L) (w : W)

def RtmEvent.enters [DecidableEq T] (t : T) : RtmEvent T L W R → Option (Prog L W R)
  | .enter u body => if u = t then some body else none
  | .lock u body => if u = t then some body else none
  | _ => none

namespace Rtm

def init (m : L → W) : Rtm T L W R where
  mem := m
  lock := 0
  phase _ := .outside
  history := []

section Step
variable [DecidableEq T]

def goto (s : Rtm T L W R) (t : T) (phase : ScopePhase L W R) : Rtm T L W R :=
  { s with phase := Function.update s.phase t phase }

variable [DecidableEq L] [DecidableEq W]

instance (log : TxLog L W) (m : L → W) : Decidable (log.Valid m) :=
  inferInstanceAs (Decidable (∀ x ∈ log.reads, m x.1 = x.2))

def step (s : Rtm T L W R) : RtmEvent T L W R → Option (Rtm T L W R)
  | .enter t body =>
    match s.phase t with
    | .outside => some (s.goto t (.beginning .new body))
    | _ => none
  | .lock t body =>
    match s.phase t with
    | .outside => some (s.goto t (.locking none body))
    | _ => none
  | .xbegin t =>
    match s.phase t with
    | .beginning rtm body => some (s.goto t (.started rtm body))
    | _ => none
  | .isLocked t =>
    match s.phase t with
    | .started rtm body =>
      if s.lock ≠ 0 then some (s.goto t (.aborted rtm body (xabort 0xff)))
      else some (s.goto t (.inside rtm body .empty body))
    | _ => none
  | .access t =>
    match s.phase t with
    | .inside rtm body log rest =>
      (log.step s.mem rest).map (fun r => s.goto t (.inside rtm body r.1 r.2))
    | .inPlace rtm body rest =>
      (rest.step s.mem).map (fun r => { s.goto t (.inPlace rtm body r.1) with mem := r.2 })
    | _ => none
  | .abort t stat =>
    match s.phase t with
    | .started rtm body =>
      if stat &&& xabortExplicit = 0 then some (s.goto t (.aborted rtm body stat)) else none
    | .inside rtm body _ _ =>
      if stat &&& xabortExplicit = 0 then some (s.goto t (.aborted rtm body stat)) else none
    | _ => none
  | .leave t =>
    match s.phase t with
    | .inside _ body log (.ret r) =>
      -- the lock is in the read set, as it was when it was checked
      if s.lock = 0 ∧ log.Valid s.mem then
        some { s.goto t .outside with
          mem := log.apply s.mem
          history := s.history ++ [.scope t body r] }
      else none
    | .inPlace _ body (.ret r) =>
      some { s.goto t .outside with
        lock := if s.lock ≠ 0 then 0 else s.lock
        history := s.history ++ [.scope t body r] }
    | _ => none
  | .pause t =>
    match s.phase t with
    | .waiting rtm body => if s.lock ≠ 0 then some s else some (s.goto t (.retry rtm body))
    | _ => none
  | .xchg t =>
    match s.phase t with
    | .locking rtm body =>
      if s.lock = 0 then some { s.goto t (.inPlace rtm body body) with lock := 1 }
      else some { s.goto t (.spinning rtm body) with lock := 1 }
    | _ => none
  | .relax t =>
    match s.phase t with
    | .spinning rtm body => if s.lock ≠ 0 then some s else some (s.goto t (.locking rtm body))
    | _ => none
  | .store t l w =>
    match s.phase t with
    | .outside => some { s with
        mem := Function.update s.mem l w
        history := s.history ++ [.store t l w] }
    | _ => none

end Step

section Phase
variable [DecidableEq T] {s s' : Rtm T L W R} {t t' : T} {phase : ScopePhase L W R}

@[simp] theorem goto_mem : (s.goto t phase).mem = s.mem := rfl
@[simp] theorem goto_lock : (s.goto t phase).lock = s.lock := rfl
@[simp] theorem goto_history : (s.goto t phase).history = s.history := rfl

@[simp] theorem goto_self : (s.goto t phase).phase t = phase := by simp [goto]

@[simp] theorem goto_other (h : t' ≠ t) : (s.goto t phase).phase t' = s.phase t' := by
  simp [goto, h]

theorem inPlace_iff {phase : ScopePhase L W R} :
    phase.InPlace ↔ ∃ rtm body rest, phase = .inPlace rtm body rest := by
  cases phase <;> simp [ScopePhase.InPlace]

end Phase

section Turn
variable [DecidableEq T] [DecidableEq L]

inductive Move (s : Rtm T L W R) (t : T) :
    RtmEvent T L W R → ScopePhase L W R → ScopePhase L W R → Prop where
  | xbegin (rtm : RTMScope) (body : Prog L W R) :
      Move s t (.xbegin t) (.beginning rtm body) (.started rtm body)
  | locked (rtm : RTMScope) (body : Prog L W R) (h : s.lock ≠ 0) :
      Move s t (.isLocked t) (.started rtm body) (.aborted rtm body (xabort 0xff))
  | subscribe (rtm : RTMScope) (body : Prog L W R) (h : s.lock = 0) :
      Move s t (.isLocked t) (.started rtm body) (.inside rtm body .empty body)
  | access (rtm : RTMScope) (body : Prog L W R) {log log' : TxLog L W} {rest rest' : Prog L W R}
      (h : log.step s.mem rest = some (log', rest')) :
      Move s t (.access t) (.inside rtm body log rest) (.inside rtm body log' rest')
  | abortStarted (rtm : RTMScope) (body : Prog L W R) {stat : UInt32}
      (h : stat &&& xabortExplicit = 0) :
      Move s t (.abort t stat) (.started rtm body) (.aborted rtm body stat)
  | abortInside (rtm : RTMScope) (body : Prog L W R) (log : TxLog L W) (rest : Prog L W R)
      {stat : UInt32} (h : stat &&& xabortExplicit = 0) :
      Move s t (.abort t stat) (.inside rtm body log rest) (.aborted rtm body stat)
  | resume (rtm : RTMScope) (body : Prog L W R) (h : s.lock = 0) :
      Move s t (.pause t) (.waiting rtm body) (.retry rtm body)
  | relax (rtm : Option RTMScope) (body : Prog L W R) (h : s.lock = 0) :
      Move s t (.relax t) (.spinning rtm body) (.locking rtm body)

inductive Turn (s : Rtm T L W R) : RtmEvent T L W R → Rtm T L W R → Prop where
  | enter {t : T} (body : Prog L W R) (hphase : s.phase t = .outside) :
      Turn s (.enter t body) (s.goto t (.beginning .new body))
  | lock {t : T} (body : Prog L W R) (hphase : s.phase t = .outside) :
      Turn s (.lock t body) (s.goto t (.locking none body))
  | move {e : RtmEvent T L W R} {t : T} {phase : ScopePhase L W R}
      (hmove : Move s t e (s.phase t) phase) : Turn s e (s.goto t phase)
  | pause {t : T} {rtm : RTMScope} {body : Prog L W R} (hphase : s.phase t = .waiting rtm body)
      (hlock : s.lock ≠ 0) : Turn s (.pause t) s
  | relax {t : T} {rtm : Option RTMScope} {body : Prog L W R}
      (hphase : s.phase t = .spinning rtm body)
      (hlock : s.lock ≠ 0) : Turn s (.relax t) s
  | miss {t : T} {rtm : Option RTMScope} {body : Prog L W R}
      (hphase : s.phase t = .locking rtm body) (hlock : s.lock ≠ 0) :
      Turn s (.xchg t) { s.goto t (.spinning rtm body) with lock := 1 }
  | acquire {t : T} {rtm : Option RTMScope} {body : Prog L W R}
      (hphase : s.phase t = .locking rtm body) (hlock : s.lock = 0) :
      Turn s (.xchg t) { s.goto t (.inPlace rtm body body) with lock := 1 }
  | access {t : T} {rtm : Option RTMScope} {body rest rest' : Prog L W R} {m : L → W}
      (hphase : s.phase t = .inPlace rtm body rest) (h : rest.step s.mem = some (rest', m)) :
      Turn s (.access t) { s.goto t (.inPlace rtm body rest') with mem := m }
  | commit {t : T} {rtm : RTMScope} {body : Prog L W R} {log : TxLog L W} {r : R}
      (hphase : s.phase t = .inside rtm body log (.ret r)) (hlock : s.lock = 0)
      (hvalid : log.Valid s.mem) :
      Turn s (.leave t) { s.goto t .outside with
        mem := log.apply s.mem
        history := s.history ++ [.scope t body r] }
  | release {t : T} {rtm : Option RTMScope} {body : Prog L W R} {r : R}
      (hphase : s.phase t = .inPlace rtm body (.ret r)) :
      Turn s (.leave t) { s.goto t .outside with
        lock := 0
        history := s.history ++ [.scope t body r] }
  | store {t : T} (l : L) (w : W) (hphase : s.phase t = .outside) :
      Turn s (.store t l w) { s with
        mem := Function.update s.mem l w
        history := s.history ++ [.store t l w] }

variable [DecidableEq W] {s s' : Rtm T L W R} {e : RtmEvent T L W R}

theorem Turn.of_step (h : s.step e = some s') : Turn s e s' := by
  cases e with
  | enter t body =>
    simp only [Rtm.step] at h
    split at h
    next hphase =>
      obtain rfl := Option.some.inj h
      exact .enter body hphase
    next => cases h
  | lock t body =>
    simp only [Rtm.step] at h
    split at h
    next hphase =>
      obtain rfl := Option.some.inj h
      exact .lock body hphase
    next => cases h
  | xbegin t =>
    simp only [Rtm.step] at h
    split at h
    next rtm body hphase =>
      obtain rfl := Option.some.inj h
      exact .move (hphase ▸ .xbegin rtm body)
    next => cases h
  | isLocked t =>
    simp only [Rtm.step] at h
    split at h
    next rtm body hphase =>
      split at h
      next hlock =>
        obtain rfl := Option.some.inj h
        exact .move (hphase ▸ .locked rtm body hlock)
      next hlock =>
        obtain rfl := Option.some.inj h
        exact .move (hphase ▸ .subscribe rtm body (by simpa using hlock))
    next => cases h
  | access t =>
    simp only [Rtm.step] at h
    split at h
    next rtm body log rest hphase =>
      obtain ⟨⟨log', rest'⟩, hstep, rfl⟩ := Option.map_eq_some_iff.mp h
      exact .move (hphase ▸ .access rtm body hstep)
    next rtm body rest hphase =>
      obtain ⟨⟨rest', m⟩, hstep, rfl⟩ := Option.map_eq_some_iff.mp h
      exact .access hphase hstep
    next => cases h
  | abort t stat =>
    simp only [Rtm.step] at h
    split at h
    next rtm body hphase =>
      split at h
      next hstat =>
        obtain rfl := Option.some.inj h
        exact .move (hphase ▸ .abortStarted rtm body hstat)
      next => cases h
    next rtm body log rest hphase =>
      split at h
      next hstat =>
        obtain rfl := Option.some.inj h
        exact .move (hphase ▸ .abortInside rtm body log rest hstat)
      next => cases h
    next => cases h
  | leave t =>
    simp only [Rtm.step] at h
    split at h
    next rtm body log r hphase =>
      split at h
      next hok =>
        obtain rfl := Option.some.inj h
        exact .commit hphase hok.1 hok.2
      next => cases h
    next rtm body r hphase =>
      obtain rfl := Option.some.inj h
      have hzero : (if s.lock ≠ 0 then 0 else s.lock) = 0 := by
        split
        · rfl
        · simp_all
      rw [hzero]
      exact .release hphase
    next => cases h
  | pause t =>
    simp only [Rtm.step] at h
    split at h
    next rtm body hphase =>
      split at h
      next hlock =>
        obtain rfl := Option.some.inj h
        exact .pause hphase hlock
      next hlock =>
        obtain rfl := Option.some.inj h
        exact .move (hphase ▸ .resume rtm body (by simpa using hlock))
    next => cases h
  | xchg t =>
    simp only [Rtm.step] at h
    split at h
    next rtm body hphase =>
      split at h
      next hlock =>
        obtain rfl := Option.some.inj h
        exact .acquire hphase hlock
      next hlock =>
        obtain rfl := Option.some.inj h
        exact .miss hphase hlock
    next => cases h
  | relax t =>
    simp only [Rtm.step] at h
    split at h
    next rtm body hphase =>
      split at h
      next hlock =>
        obtain rfl := Option.some.inj h
        exact .relax hphase hlock
      next hlock =>
        obtain rfl := Option.some.inj h
        exact .move (hphase ▸ .relax rtm body (by simpa using hlock))
    next => cases h
  | store t l w =>
    simp only [Rtm.step] at h
    split at h
    next hphase =>
      obtain rfl := Option.some.inj h
      exact .store l w hphase
    next => cases h

end Turn

section Scopes
variable [DecidableEq T] [DecidableEq L] [DecidableEq W] {s s' : Rtm T L W R}
  {e : RtmEvent T L W R} {es : List (RtmEvent T L W R)}

omit [DecidableEq T] [DecidableEq W] in
theorem Move.body_eq {t : T} {old new : ScopePhase L W R} (h : Move s t e old new) :
    new.body = old.body := by
  cases h with
  | locked rtm body => exact ScopePhase.body_aborted rtm body _
  | abortStarted rtm body => exact ScopePhase.body_aborted rtm body _
  | abortInside rtm body => exact ScopePhase.body_aborted rtm body _
  | resume rtm body => exact ScopePhase.body_retry rtm body
  | _ => rfl

/-- The scopes of a thread that took effect, and the one that it is in. -/
def scopes (s : Rtm T L W R) (t : T) : List (Prog L W R) :=
  s.history.filterMap (Effect.scopeOf t) ++ (s.phase t).body.toList

omit [DecidableEq L] [DecidableEq W] in
theorem scopes_congr {t u : T} {new : ScopePhase L W R} (hhistory : s'.history = s.history)
    (hself : s'.phase u = new) (hbody : new.body = (s.phase u).body)
    (hothers : ∀ t', t' ≠ u → s'.phase t' = s.phase t') : s'.scopes t = s.scopes t := by
  rw [scopes, scopes, hhistory]
  by_cases heq : t = u
  · rw [heq, hself, hbody]
  · rw [hothers t heq]

omit [DecidableEq L] [DecidableEq W] in
theorem scopes_leave {t u : T} {body : Prog L W R} {r : R} (hbody : (s.phase u).body = some body)
    (hhistory : s'.history = s.history ++ [.scope u body r]) (hself : s'.phase u = .outside)
    (hothers : ∀ t', t' ≠ u → s'.phase t' = s.phase t') : s'.scopes t = s.scopes t := by
  rw [scopes, scopes, hhistory, List.filterMap_append]
  by_cases heq : t = u
  · subst heq
    rw [hself, hbody]
    simp [ScopePhase.body, Effect.scopeOf]
  · simp [hothers t heq, Effect.scopeOf, Ne.symm heq]

omit [DecidableEq L] [DecidableEq W] in
theorem scopes_same {t : T} (henters : e.enters t = none) (h : s'.scopes t = s.scopes t) :
    s'.scopes t = s.scopes t ++ (e.enters t).toList := by
  rw [h, henters, Option.toList_none, List.append_nil]

omit [DecidableEq W] in
theorem Move.enters {t u : T} {old new : ScopePhase L W R} (h : Move s u e old new) :
    e.enters t = none := by
  cases h <;> rfl

omit [DecidableEq L] [DecidableEq W] in
theorem scopes_enter {t u : T} {body : Prog L W R} {new : ScopePhase L W R}
    (houtside : s.phase u = .outside) (hbody : new.body = some body) :
    (s.goto u new).scopes t = s.scopes t ++ (if u = t then some body else none).toList := by
  by_cases heq : u = t
  · subst heq
    rw [scopes, scopes, goto_self, hbody, houtside, if_pos rfl]
    simp [ScopePhase.body]
  · simp [scopes, goto_other (Ne.symm heq), heq]

/-- A step adds the scope that it enters, and loses or doubles none. -/
theorem scopes_step (t : T) (h : s.step e = some s') :
    s'.scopes t = s.scopes t ++ (e.enters t).toList := by
  cases Turn.of_step h with
  | enter body hphase => exact scopes_enter hphase rfl
  | lock body hphase => exact scopes_enter hphase rfl
  | move hmove =>
    exact scopes_same hmove.enters
      (scopes_congr rfl goto_self hmove.body_eq (fun _ hne => goto_other hne))
  | pause => exact scopes_same rfl rfl
  | relax => exact scopes_same rfl rfl
  | miss hphase hlock =>
    exact scopes_same rfl
      (scopes_congr rfl goto_self (by rw [hphase]; rfl) (fun _ hne => goto_other hne))
  | acquire hphase hlock =>
    exact scopes_same rfl
      (scopes_congr rfl goto_self (by rw [hphase]; rfl) (fun _ hne => goto_other hne))
  | access hphase haccess =>
    exact scopes_same rfl
      (scopes_congr rfl goto_self (by rw [hphase]; rfl) (fun _ hne => goto_other hne))
  | commit hphase hlock hvalid =>
    exact scopes_same rfl
      (scopes_leave (by rw [hphase]; rfl) rfl goto_self (fun _ hne => goto_other hne))
  | release hphase =>
    exact scopes_same rfl
      (scopes_leave (by rw [hphase]; rfl) rfl goto_self (fun _ hne => goto_other hne))
  | store l w hphase => exact scopes_same rfl (by simp [scopes, Effect.scopeOf])

theorem scopes_run (t : T) (hrun : run Rtm.step es s = some s') :
    s'.scopes t = s.scopes t ++ es.filterMap (RtmEvent.enters t) := by
  induction es generalizing s with
  | nil =>
    obtain rfl := Option.some.inj hrun
    simp
  | cons e es ih =>
    obtain ⟨s₁, hs₁, hrest⟩ := Option.bind_eq_some_iff.mp hrun
    rw [ih hrest, scopes_step t hs₁, List.append_assoc]
    cases henters : e.enters t <;> simp [henters]

def Bounded (s : Rtm T L W R) : Prop := ∀ t, (s.phase t).Bounded

omit [DecidableEq T] [DecidableEq W] in
theorem Move.bounded {t : T} {old new : ScopePhase L W R} (hmove : Move s t e old new)
    (h : old.Bounded) : new.Bounded := by
  cases hmove with
  | xbegin rtm body => exact h
  | locked rtm body hlock => exact ScopePhase.bounded_aborted body h RTMScope.awaitsLock_locked
  | subscribe rtm body hlock => exact h
  | access rtm body hstep => exact h
  | abortStarted rtm body hstat =>
    exact ScopePhase.bounded_aborted body h (RTMScope.awaitsLock_hardware hstat)
  | abortInside rtm body log rest hstat =>
    exact ScopePhase.bounded_aborted body h (RTMScope.awaitsLock_hardware hstat)
  | resume rtm body hlock => exact h.elim
  | relax rtm body hlock => exact h

omit [DecidableEq L] [DecidableEq W] in
theorem Bounded.of_phase {t : T} {new : ScopePhase L W R} (h : s.Bounded)
    (hself : s'.phase t = new) (hnew : new.Bounded)
    (hothers : ∀ t', t' ≠ t → s'.phase t' = s.phase t') : s'.Bounded := by
  intro t'
  by_cases heq : t' = t
  · rw [heq, hself]
    exact hnew
  · rw [hothers t' heq]
    exact h t'

theorem Bounded.step (h : s.Bounded) (hstep : s.step e = some s') : s'.Bounded := by
  have hat : ∀ {t phase}, s.phase t = phase → phase.Bounded := fun hphase => hphase ▸ h _
  cases Turn.of_step hstep with
  | enter body hphase => exact h.of_phase goto_self rfl (fun _ hne => goto_other hne)
  | lock body hphase =>
    exact h.of_phase goto_self (fun _ hr => by cases hr) (fun _ hne => goto_other hne)
  | move hmove =>
    exact h.of_phase goto_self (hmove.bounded (h _)) (fun _ hne => goto_other hne)
  | pause => exact h
  | relax => exact h
  | miss hphase hlock =>
    have hlocking := hat hphase
    exact h.of_phase goto_self hlocking (fun _ hne => goto_other hne)
  | acquire hphase hlock =>
    have hlocking := hat hphase
    exact h.of_phase goto_self hlocking (fun _ hne => goto_other hne)
  | access hphase haccess =>
    have hinPlace := hat hphase
    exact h.of_phase goto_self hinPlace (fun _ hne => goto_other hne)
  | commit hphase hlock hvalid => exact h.of_phase goto_self trivial (fun _ hne => goto_other hne)
  | release hphase => exact h.of_phase goto_self trivial (fun _ hne => goto_other hne)
  | store l w hphase => exact h

end Scopes
end Rtm
end XStore.Xutils
