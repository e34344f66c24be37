import XStore.Xutils.Rtm

/-! Every scope takes effect as if it ran alone, whatever the threads and the hardware do, and so
does every piece of work under the lock. -/
namespace XStore.Xutils
open XStore.Lib
variable {T L W R : Type}
namespace Rtm

/-- A store outside of all scopes goes to a cell that no thread with the lock is at work on. -/
def RaceFree (s : Rtm T L W R) : RtmEvent T L W R → Prop
  | .store _ l _ => ∀ t rtm body rest, s.phase t = .inPlace rtm body rest → ¬ body.Touches l
  | _ => True

/-- What took effect leads from `m₀` to `b`. Only the thread with the lock, if there is one, has
changed the memory since, and has come in its body from `b` to the memory; what a transaction has
done so far follows its body. -/
structure Settled [DecidableEq L] (m₀ : L → W) (s : Rtm T L W R) (b : L → W) (holder : Option T) :
    Prop where
  replays : Replays Effect.Act s.history m₀ b
  lock : s.lock = 0 ↔ holder = none
  free : holder = none → s.mem = b
  busy : ∀ t, holder = some t → ∃ rtm body rest, s.phase t = .inPlace rtm body rest ∧
    body.Reaches b rest s.mem
  inPlace : ∀ t, (s.phase t).InPlace → holder = some t
  inside : ∀ t rtm body log rest, s.phase t = .inside rtm body log rest → log.Follows body rest

namespace Settled
variable [DecidableEq T] [DecidableEq L] {m₀ b : L → W} {s s' : Rtm T L W R} {holder : Option T}
  {t : T} {phase : ScopePhase L W R}

omit [DecidableEq T] in
theorem init (m₀ : L → W) : Settled m₀ (.init m₀ : Rtm T L W R) m₀ none where
  replays := rfl
  lock := by simp [Rtm.init]
  free _ := rfl
  busy t ht := by cases ht
  inPlace t ht := ht.elim
  inside t rtm body log rest h := by cases h

theorem goto (h : Settled m₀ s b holder) (hout : ¬ (s.phase t).InPlace) (hnew : ¬ phase.InPlace)
    (hin : ∀ rtm body log rest, phase = .inside rtm body log rest → log.Follows body rest) :
    Settled m₀ (s.goto t phase) b holder where
  replays := h.replays
  lock := h.lock
  free := h.free
  busy t' ht' := by
    obtain ⟨rtm, body, rest, hphase, hrest⟩ := h.busy t' ht'
    have hne : t' ≠ t := by
      rintro rfl
      exact hout (inPlace_iff.mpr ⟨rtm, body, rest, hphase⟩)
    exact ⟨rtm, body, rest, (goto_other hne).trans hphase, hrest⟩
  inPlace t' ht' := by
    by_cases heq : t' = t
    · subst heq
      rw [goto_self] at ht'
      exact absurd ht' hnew
    · rw [goto_other heq] at ht'
      exact h.inPlace t' ht'
  inside t' rtm body log rest hphase := by
    by_cases heq : t' = t
    · subst heq
      rw [goto_self] at hphase
      exact hin rtm body log rest hphase
    · rw [goto_other heq] at hphase
      exact h.inside t' rtm body log rest hphase

omit [DecidableEq T] in
/-- What transactions have done so far stays right as long as nothing puts another one in its
place. -/
theorem inside_of (h : Settled m₀ s b holder) (hothers : ∀ t', t' ≠ t → s'.phase t' = s.phase t')
    (hself : ∀ rtm body log rest, s'.phase t ≠ .inside rtm body log rest) (t' : T) :
    ∀ rtm body log rest, s'.phase t' = .inside rtm body log rest → log.Follows body rest := by
  intro rtm body log rest hphase
  by_cases heq : t' = t
  · subst heq
    exact absurd hphase (hself rtm body log rest)
  · exact h.inside t' rtm body log rest ((hothers t' heq).symm.trans hphase)

omit [DecidableEq T] in
theorem holder_none (h : Settled m₀ s b holder) : holder = none ↔ ∀ t, ¬ (s.phase t).InPlace := by
  constructor
  · rintro rfl t ht
    cases h.inPlace t ht
  · intro hall
    cases hholder : holder with
    | none => rfl
    | some t =>
      obtain ⟨rtm, body, rest, hphase, -⟩ := h.busy t hholder
      exact absurd (inPlace_iff.mpr ⟨rtm, body, rest, hphase⟩) (hall t)

omit [DecidableEq T] in
theorem reaches (h : Settled m₀ s b holder) {rtm : Option RTMScope} {body rest : Prog L W R}
    (hphase : s.phase t = .inPlace rtm body rest) :
    holder = some t ∧ body.Reaches b rest s.mem := by
  have hholder := h.inPlace t (by rw [hphase]; trivial)
  obtain ⟨rtm₁, body₁, rest₁, hphase₁, hreach⟩ := h.busy t hholder
  obtain ⟨rfl, rfl, rfl⟩ : rtm = rtm₁ ∧ body = body₁ ∧ rest = rest₁ := by
    simpa using hphase.symm.trans hphase₁
  exact ⟨hholder, hreach⟩

theorem acquire (h : Settled m₀ s b holder) (hlock : s.lock = 0) (rtm : Option RTMScope)
    (body : Prog L W R) (hmem : s'.mem = s.mem) (hhistory : s'.history = s.history)
    (hlock' : s'.lock = 1) (hself : s'.phase t = .inPlace rtm body body)
    (hothers : ∀ t', t' ≠ t → s'.phase t' = s.phase t') : Settled m₀ s' b (some t) where
  replays := hhistory ▸ h.replays
  lock := by simp [hlock']
  free hnone := by cases hnone
  busy t' ht' := by
    obtain rfl := Option.some.inj ht'
    refine ⟨rtm, body, body, hself, ?_⟩
    rw [hmem, h.free (h.lock.mp hlock)]
    exact .refl body b
  inPlace t' ht' := by
    by_cases heq : t' = t
    · rw [heq]
    · rw [hothers t' heq] at ht'
      have hsome := h.inPlace t' ht'
      rw [h.lock.mp hlock] at hsome
      cases hsome
  inside t' := h.inside_of hothers (fun _ _ _ _ hphase => by rw [hself] at hphase; cases hphase) t'

theorem access (h : Settled m₀ s b holder) {rtm : Option RTMScope} {body rest rest' : Prog L W R}
    (hphase : s.phase t = .inPlace rtm body rest) (haccess : rest.step s.mem = some (rest', s'.mem))
    (hhistory : s'.history = s.history) (hlock : s'.lock = s.lock)
    (hself : s'.phase t = .inPlace rtm body rest')
    (hothers : ∀ t', t' ≠ t → s'.phase t' = s.phase t') : Settled m₀ s' b holder := by
  obtain ⟨hholder, hreach⟩ := h.reaches hphase
  refine ⟨hhistory ▸ h.replays, by rw [hlock]; exact h.lock, ?_, ?_, ?_, ?_⟩
  · intro hnone
    rw [hnone] at hholder
    cases hholder
  · intro t' ht'
    obtain rfl := Option.some.inj (hholder.symm.trans ht')
    exact ⟨rtm, body, rest', hself, hreach.step haccess⟩
  · intro t' ht'
    by_cases heq : t' = t
    · rw [heq]
      exact hholder
    · rw [hothers t' heq] at ht'
      exact h.inPlace t' ht'
  · exact h.inside_of hothers (fun _ _ _ _ hp => by rw [hself] at hp; cases hp)

omit [DecidableEq T] in
/-- A scope takes effect as a whole, and nobody has the lock after it. -/
theorem settle (h : Settled m₀ s b holder) (hholder : ∀ t', holder = some t' → t' = t)
    {e : Effect T L W R} (heffect : e.Act b s'.mem) (hhistory : s'.history = s.history ++ [e])
    (hlock : s'.lock = 0) (hself : s'.phase t = .outside)
    (hothers : ∀ t', t' ≠ t → s'.phase t' = s.phase t') : Settled m₀ s' s'.mem none where
  replays := hhistory ▸ h.replays.snoc heffect
  lock := by simp [hlock]
  free _ := rfl
  busy t' ht' := by cases ht'
  inPlace t' ht' := by
    by_cases heq : t' = t
    · rw [heq, hself] at ht'
      exact ht'.elim
    · rw [hothers t' heq] at ht'
      exact absurd (hholder t' (h.inPlace t' ht')) heq
  inside := h.inside_of hothers (fun _ _ _ _ hp => by rw [hself] at hp; cases hp)

omit [DecidableEq T] in
/-- A transaction that commits did what its body does alone. -/
theorem commits (h : Settled m₀ s b holder) {rtm : RTMScope} {body : Prog L W R} {log : TxLog L W}
    {r : R} (hphase : s.phase t = .inside rtm body log (.ret r)) (hlock : s.lock = 0)
    (hvalid : log.Valid s.mem) : body.run b = (r, log.apply s.mem) := by
  rw [← h.free (h.lock.mp hlock)]
  exact (h.inside t rtm body log _ hphase).commit hvalid

omit [DecidableEq T] in
theorem releases (h : Settled m₀ s b holder) {rtm : Option RTMScope} {body : Prog L W R} {r : R}
    (hphase : s.phase t = .inPlace rtm body (.ret r)) : body.run b = (r, s.mem) :=
  (h.reaches hphase).2.run

omit [DecidableEq T] in
theorem commit (h : Settled m₀ s b holder) {rtm : RTMScope} {body : Prog L W R} {log : TxLog L W}
    {r : R} (hphase : s.phase t = .inside rtm body log (.ret r)) (hlock : s.lock = 0)
    (hvalid : log.Valid s.mem) (hmem : s'.mem = log.apply s.mem)
    (hhistory : s'.history = s.history ++ [.scope t body r]) (hlock' : s'.lock = s.lock)
    (hself : s'.phase t = .outside) (hothers : ∀ t', t' ≠ t → s'.phase t' = s.phase t') :
    Settled m₀ s' s'.mem none := by
  have hnone := h.lock.mp hlock
  have heffect : (Effect.scope t body r).Act b s'.mem := by
    change body.run b = (r, s'.mem)
    rw [hmem]
    exact h.commits hphase hlock hvalid
  refine h.settle (fun t' ht' => ?_) heffect hhistory (hlock'.trans hlock) hself hothers
  rw [hnone] at ht'
  cases ht'

omit [DecidableEq T] in
theorem release (h : Settled m₀ s b holder) {rtm : Option RTMScope} {body : Prog L W R} {r : R}
    (hphase : s.phase t = .inPlace rtm body (.ret r)) (hmem : s'.mem = s.mem)
    (hhistory : s'.history = s.history ++ [.scope t body r]) (hlock : s'.lock = 0)
    (hself : s'.phase t = .outside) (hothers : ∀ t', t' ≠ t → s'.phase t' = s.phase t') :
    Settled m₀ s' s'.mem none := by
  have hholder := (h.reaches hphase).1
  have heffect : (Effect.scope t body r).Act b s'.mem := by
    change body.run b = (r, s'.mem)
    rw [hmem]
    exact h.releases hphase
  exact h.settle (fun t' ht' => (Option.some.inj (hholder.symm.trans ht')).symm) heffect hhistory
    hlock hself hothers

theorem miss (h : Settled m₀ s b holder) {rtm : Option RTMScope} {body : Prog L W R}
    (hphase : s.phase t = .locking rtm body) (hlock : s.lock ≠ 0) :
    Settled m₀ { s.goto t (.spinning rtm body) with lock := 1 } b holder := by
  have hgo : Settled m₀ (s.goto t (.spinning rtm body)) b holder :=
    h.goto (by rw [hphase]; exact id) id (fun _ _ _ _ hp => by cases hp)
  refine { hgo with lock := ?_ }
  have hne := mt h.lock.mpr hlock
  simp [hne]

omit [DecidableEq T] in
theorem store (h : Settled m₀ s b holder) (l : L) (w : W)
    (hkeep : ∀ t rtm body rest, s.phase t = .inPlace rtm body rest → body.Reaches b rest s.mem →
      body.Reaches (Function.update b l w) rest (Function.update s.mem l w))
    (hmem : s'.mem = Function.update s.mem l w)
    (hhistory : s'.history = s.history ++ [.store t l w]) (hlock : s'.lock = s.lock)
    (hphase : s'.phase = s.phase) : Settled m₀ s' (Function.update b l w) holder := by
  refine ⟨?_, by rw [hlock]; exact h.lock, ?_, ?_, ?_, ?_⟩
  · rw [hhistory]
    exact h.replays.snoc rfl
  · intro hnone
    rw [hmem, h.free hnone]
  · intro t' ht'
    obtain ⟨rtm, body, rest, hp, hreach⟩ := h.busy t' ht'
    refine ⟨rtm, body, rest, by rw [hphase]; exact hp, ?_⟩
    rw [hmem]
    exact hkeep t' rtm body rest hp hreach
  · intro t' ht'
    rw [hphase] at ht'
    exact h.inPlace t' ht'
  · intro t' rtm body log rest hp
    rw [hphase] at hp
    exact h.inside t' rtm body log rest hp

end Settled

section Run
variable [DecidableEq T] [DecidableEq L] [DecidableEq W] {m₀ b : L → W} {s s' : Rtm T L W R}
  {holder : Option T} {e : RtmEvent T L W R} {es : List (RtmEvent T L W R)}

omit [DecidableEq W] in
theorem Move.settled {t : T} {phase : ScopePhase L W R} (h : Settled m₀ s b holder)
    (hmove : Move s t e (s.phase t) phase) : Settled m₀ (s.goto t phase) b holder := by
  generalize hold : s.phase t = old at hmove
  have hgo : ∀ {new}, ¬ old.InPlace → ¬ new.InPlace →
      (∀ rtm body log rest, new = .inside rtm body log rest → log.Follows body rest) →
      Settled m₀ (s.goto t new) b holder :=
    fun hout hnew hin => h.goto (hold ▸ hout) hnew hin
  cases hmove with
  | xbegin rtm body => exact hgo id id (fun _ _ _ _ hp => by cases hp)
  | locked rtm body hlock =>
    obtain ⟨hnew, hin⟩ := ScopePhase.aborted_outside rtm body (xabort 0xff)
    exact hgo id hnew (fun _ _ _ _ hp => absurd hp (hin _ _ _ _))
  | subscribe rtm body hlock =>
    refine hgo id id (fun _ _ _ _ hp => ?_)
    cases hp
    exact .start body
  | access rtm body hstep =>
    refine hgo id id (fun _ _ _ _ hp => ?_)
    cases hp
    exact (h.inside t _ _ _ _ hold).step hstep
  | abortStarted rtm body hstat =>
    obtain ⟨hnew, hin⟩ := ScopePhase.aborted_outside rtm body _
    exact hgo id hnew (fun _ _ _ _ hp => absurd hp (hin _ _ _ _))
  | abortInside rtm body log rest hstat =>
    obtain ⟨hnew, hin⟩ := ScopePhase.aborted_outside rtm body _
    exact hgo id hnew (fun _ _ _ _ hp => absurd hp (hin _ _ _ _))
  | resume rtm body =>
    obtain ⟨hnew, hin⟩ := ScopePhase.retry_outside rtm body
    exact hgo id hnew (fun _ _ _ _ hp => absurd hp (hin _ _ _ _))
  | relax rtm body => exact hgo id id (fun _ _ _ _ hp => by cases hp)

/-- One step: what took effect still leads to where the memory settles. -/
theorem Settled.step (h : Settled m₀ s b holder) (hstep : s.step e = some s')
    (hfree : s.RaceFree e) : ∃ b' holder', Settled m₀ s' b' holder' := by
  cases Turn.of_step hstep with
  | enter body hphase =>
    exact ⟨b, holder, h.goto (by rw [hphase]; exact id) id (fun _ _ _ _ hp => by cases hp)⟩
  | lock body hphase =>
    exact ⟨b, holder, h.goto (by rw [hphase]; exact id) id (fun _ _ _ _ hp => by cases hp)⟩
  | move hmove => exact ⟨b, holder, hmove.settled h⟩
  | pause => exact ⟨b, holder, h⟩
  | relax => exact ⟨b, holder, h⟩
  | miss hphase hlock => exact ⟨b, holder, h.miss hphase hlock⟩
  | @acquire t rtm body hphase hlock =>
    exact ⟨b, some t, h.acquire hlock rtm body rfl rfl rfl goto_self (fun _ hne => goto_other hne)⟩
  | access hphase haccess =>
    exact ⟨b, holder, h.access hphase haccess rfl rfl goto_self (fun _ hne => goto_other hne)⟩
  | commit hphase hlock hvalid =>
    exact ⟨_, none, h.commit hphase hlock hvalid rfl rfl rfl goto_self
      (fun _ hne => goto_other hne)⟩
  | release hphase =>
    exact ⟨_, none, h.release hphase rfl rfl rfl goto_self (fun _ hne => goto_other hne)⟩
  | store l w hphase =>
    refine ⟨_, holder, h.store l w (fun t rtm body rest hp hreach => ?_) rfl rfl rfl rfl⟩
    exact (hreach.update (hfree t rtm body rest hp) w).1

theorem Settled.run (h : Settled m₀ s b holder) (hrun : run Rtm.step es s = some s')
    (hfree : AllSteps Rtm.step RaceFree es s) : ∃ b' holder', Settled m₀ s' b' holder' := by
  induction es generalizing s b holder with
  | nil =>
    obtain rfl := Option.some.inj hrun
    exact ⟨b, holder, h⟩
  | cons e es ih =>
    obtain ⟨s₁, hs₁, hrest⟩ := Option.bind_eq_some_iff.mp hrun
    obtain ⟨b₁, holder₁, h₁⟩ := h.step hs₁ hfree.1
    exact ih h₁ hrest (hfree.2 s₁ hs₁)

end Run

section Results
variable [DecidableEq T] [DecidableEq L] [DecidableEq W] {m₀ : L → W} {s : Rtm T L W R}
  {es : List (RtmEvent T L W R)}

/-- Scopes are serializable, whatever the threads and the hardware do: what took effect, one after
the other, has the recorded results and leads to the memory, but for what the one thread with the
lock has done in its body so far. Every scope that a thread enters takes effect once, in the order
in which it enters them. -/
theorem rtm_serializable (hrun : run Rtm.step es (.init m₀) = some s)
    (hfree : AllSteps Rtm.step RaceFree es (.init m₀)) :
    (∃ b, Replays Effect.Act s.history m₀ b ∧ ((∀ t, ¬ (s.phase t).InPlace) → s.mem = b) ∧
      ∀ t rtm body rest, s.phase t = .inPlace rtm body rest →
        body.Reaches b rest s.mem ∧ ∀ t', (s.phase t').InPlace → t' = t) ∧
    (s.lock = 0 ↔ ∀ t, ¬ (s.phase t).InPlace) ∧
    ∀ t, es.filterMap (RtmEvent.enters t) =
      s.history.filterMap (Effect.scopeOf t) ++ (s.phase t).body.toList := by
  obtain ⟨b, holder, h⟩ := (Settled.init m₀).run hrun hfree
  refine ⟨⟨b, h.replays, fun hall => h.free (h.holder_none.mpr hall), ?_⟩,
    h.lock.trans h.holder_none, ?_⟩
  · intro t rtm body rest hphase
    obtain ⟨hholder, hreach⟩ := h.reaches hphase
    exact ⟨hreach, fun t' ht' => Option.some.inj ((h.inPlace t' ht').symm.trans hholder)⟩
  · intro t
    exact (scopes_run t hrun).symm

end Results

def increment : Prog Unit ℕ ℕ :=
  .read () fun n => .write () (n + 1) <| .ret n

/-- The second thread takes the lock while the first one is in a transaction; the transaction cannot
commit any more. -/
def overlap : List (RtmEvent Bool Unit ℕ ℕ) :=
  [.enter false increment, .xbegin false, .isLocked false, .access false, .access false,
    .lock true increment, .xchg true, .access true, .access true, .abort false 4]

theorem rtm_serializable_two : ∃ s, run Rtm.step overlap (.init fun _ => 0) = some s ∧
    (∃ b, Replays Effect.Act s.history (fun _ => 0) b ∧
      ((∀ t, ¬ (s.phase t).InPlace) → s.mem = b) ∧
      ∀ t rtm body rest, s.phase t = .inPlace rtm body rest →
        body.Reaches b rest s.mem ∧ ∀ t', (s.phase t').InPlace → t' = t) ∧
    (s.lock = 0 ↔ ∀ t, ¬ (s.phase t).InPlace) ∧
    ∀ t, overlap.filterMap (RtmEvent.enters t) =
      s.history.filterMap (Effect.scopeOf t) ++ (s.phase t).body.toList := by
  obtain ⟨s, hrun⟩ : ∃ s, run Rtm.step overlap (.init fun _ => 0) = some s := ⟨_, rfl⟩
  exact ⟨s, hrun, rtm_serializable hrun (AllSteps.of_forall (by simp [overlap, RaceFree]))⟩

end Rtm
end XStore.Xutils
