import XStore.Xutils.RtmSerial

/-! A thread in a scope gets to its end while nobody else has the lock, whatever the hardware does
to its transactions. -/
namespace XStore.Xutils
open XStore.Lib
variable {T L W R : Type}
namespace Rtm

section Limits
variable [DecidableEq T] [DecidableEq L] [DecidableEq W] {m₀ : L → W} {s : Rtm T L W R}
  {es : List (RtmEvent T L W R)}

/-- A scope that finds the lock taken goes back to `_xbegin`. -/
theorem goes_back {t : T} {rtm : RTMScope} {body : Prog L W R} (h : s.Bounded)
    (hphase : s.phase t = .started rtm body) (hlock : s.lock ≠ 0) :
    s.step (.isLocked t) =
      some (s.goto t (.beginning { rtm with retry := rtm.retry + 1 } body)) := by
  have hbounded := h t
  rw [hphase] at hbounded
  have hnot : ({ rtm with retry := rtm.retry + 1 } : RTMScope).givesUp = false := hbounded
  simp only [step, hphase, if_pos hlock, ScopePhase.aborted, RTMScope.awaitsLock_locked,
    Bool.false_eq_true, if_false, RTMScope.count_locked, ScopePhase.retry, hnot]

/-- A scope takes the lock only after more aborts than it may have, and never with more than 12
that count; an abort because the lock is taken counts for nothing, and the loop in which the
constructor would wait for the lock is never entered. -/
theorem rtm_falls_back (hrun : run Rtm.step es (.init m₀) = some s) (t : T) :
    (s.phase t).Bounded ∧
      (∀ rtm : RTMScope, (rtm.count (xabort 0xff)).counted = rtm.counted) ∧
      ∀ rtm body, s.phase t = .started rtm body → s.lock ≠ 0 → s.step (.isLocked t) =
        some (s.goto t (.beginning { rtm with retry := rtm.retry + 1 } body)) := by
  have hbounded : s.Bounded :=
    run_invariant Bounded (fun _ _ _ hstep h => h.step hstep) hrun (fun _ => trivial)
  refine ⟨hbounded t, fun rtm => ?_, fun rtm body hphase hlock => goes_back hbounded hphase hlock⟩
  rw [RTMScope.count_locked]
  rfl

/-- The first thread begins again while the second one has the lock. -/
theorem rtm_falls_back_two : ∃ s s', run Rtm.step (overlap ++ [.xbegin false])
      (.init fun _ => 0) = some s ∧ (s.phase false).Bounded ∧ s.lock ≠ 0 ∧
    s.step (.isLocked false) = some s' ∧
    s'.phase false = .beginning ⟨2, 1, 0, 0, 0⟩ increment := by
  obtain ⟨s, hrun, hphase, hlock⟩ : ∃ s, run Rtm.step (overlap ++ [.xbegin false])
      (.init fun _ => 0) = some s ∧ s.phase false = .started ⟨1, 1, 0, 0, 0⟩ increment ∧
        s.lock ≠ 0 := ⟨_, rfl, rfl, by decide⟩
  obtain ⟨hbounded, -, hback⟩ := rtm_falls_back hrun false
  exact ⟨s, _, hrun, hbounded, hlock, hback _ _ hphase hlock, goto_self⟩

end Limits

/-- A step of the thread in its scope; an abort of the hardware is one that the scope counts. -/
def Own (t : T) : RtmEvent T L W R → Prop
  | .enter _ _ => False
  | .lock _ _ => False
  | .xbegin u => u = t
  | .isLocked u => u = t
  | .access u => u = t
  | .abort u stat => u = t ∧ RTMScope.Counts stat
  | .leave u => u = t
  | .pause u => u = t
  | .xchg u => u = t
  | .relax u => u = t
  | .store _ _ _ => False

section Advance
variable [DecidableEq L]

inductive Advance : ScopePhase L W R → ScopePhase L W R → Prop where
  | xbegin (rtm : RTMScope) (body : Prog L W R) : Advance (.beginning rtm body) (.started rtm body)
  | subscribe (rtm : RTMScope) (body : Prog L W R) :
      Advance (.started rtm body) (.inside rtm body .empty body)
  | access (rtm : RTMScope) (body : Prog L W R) {log log' : TxLog L W} {rest rest' : Prog L W R}
      {m : L → W} (h : log.step m rest = some (log', rest')) :
      Advance (.inside rtm body log rest) (.inside rtm body log' rest')
  | abortStarted (rtm : RTMScope) (body : Prog L W R) {stat : UInt32}
      (hstat : stat &&& xabortExplicit = 0) (h : RTMScope.Counts stat) :
      Advance (.started rtm body) (.aborted rtm body stat)
  | abortInside (rtm : RTMScope) (body : Prog L W R) (log : TxLog L W) (rest : Prog L W R)
      {stat : UInt32} (hstat : stat &&& xabortExplicit = 0) (h : RTMScope.Counts stat) :
      Advance (.inside rtm body log rest) (.aborted rtm body stat)
  | commit (rtm : RTMScope) (body rest : Prog L W R) (log : TxLog L W) :
      Advance (.inside rtm body log rest) .outside
  | relax (rtm : Option RTMScope) (body : Prog L W R) :
      Advance (.spinning rtm body) (.locking rtm body)
  | acquire (rtm : Option RTMScope) (body : Prog L W R) :
      Advance (.locking rtm body) (.inPlace rtm body body)
  | accessInPlace (rtm : Option RTMScope) (body : Prog L W R) {rest rest' : Prog L W R}
      {m m' : L → W} (h : rest.step m = some (rest', m')) :
      Advance (.inPlace rtm body rest) (.inPlace rtm body rest')
  | release (rtm : Option RTMScope) (body rest : Prog L W R) :
      Advance (.inPlace rtm body rest) .outside

/-- The thread cannot get on from the phase for ever. -/
abbrev Ends (phase : ScopePhase L W R) : Prop := Acc (fun q p => Advance p q) phase

theorem ends_outside : Ends (.outside : ScopePhase L W R) := ⟨_, fun _ h => by cases h⟩

theorem ends_inPlace (rtm : Option RTMScope) (body rest : Prog L W R) :
    Ends (.inPlace rtm body rest) := by
  induction rest with
  | ret r =>
    refine ⟨_, fun _ h => ?_⟩
    cases h with
    | accessInPlace _ _ h => cases h
    | release => exact ends_outside
  | read l next ih =>
    refine ⟨_, fun _ h => ?_⟩
    cases h with
    | accessInPlace _ _ h =>
      obtain ⟨rfl, rfl⟩ := Prod.mk.inj (Option.some.inj h)
      exact ih _
    | release => exact ends_outside
  | write l w next ih =>
    refine ⟨_, fun _ h => ?_⟩
    cases h with
    | accessInPlace _ _ h =>
      obtain ⟨rfl, rfl⟩ := Prod.mk.inj (Option.some.inj h)
      exact ih
    | release => exact ends_outside

theorem ends_locking (rtm : Option RTMScope) (body : Prog L W R) : Ends (.locking rtm body) := by
  refine ⟨_, fun _ h => ?_⟩
  cases h with
  | acquire => exact ends_inPlace rtm body body

theorem ends_spinning (rtm : Option RTMScope) (body : Prog L W R) : Ends (.spinning rtm body) := by
  refine ⟨_, fun _ h => ?_⟩
  cases h with
  | relax => exact ends_locking rtm body

section Transaction
variable {rtm : RTMScope} {body : Prog L W R}

theorem ends_inside (habort : ∀ stat, stat &&& xabortExplicit = 0 → RTMScope.Counts stat →
    Ends (.aborted rtm body stat)) (rest : Prog L W R) (log : TxLog L W) :
    Ends (.inside rtm body log rest) := by
  induction rest generalizing log with
  | ret r =>
    refine ⟨_, fun _ h => ?_⟩
    cases h with
    | access _ _ h => cases h
    | abortInside _ _ _ _ hstat h => exact habort _ hstat h
    | commit => exact ends_outside
  | read l next ih =>
    refine ⟨_, fun _ h => ?_⟩
    cases h with
    | access _ _ h =>
      simp only [TxLog.step] at h
      split at h
      · obtain ⟨rfl, rfl⟩ := Prod.mk.inj (Option.some.inj h)
        exact ih _ log
      · obtain ⟨rfl, rfl⟩ := Prod.mk.inj (Option.some.inj h)
        exact ih _ _
    | abortInside _ _ _ _ hstat h => exact habort _ hstat h
    | commit => exact ends_outside
  | write l w next ih =>
    refine ⟨_, fun _ h => ?_⟩
    cases h with
    | access _ _ h =>
      obtain ⟨rfl, rfl⟩ := Prod.mk.inj (Option.some.inj h)
      exact ih _
    | abortInside _ _ _ _ hstat h => exact habort _ hstat h
    | commit => exact ends_outside

theorem ends_started (habort : ∀ stat, stat &&& xabortExplicit = 0 → RTMScope.Counts stat →
    Ends (.aborted rtm body stat)) : Ends (.started rtm body) := by
  refine ⟨_, fun _ h => ?_⟩
  cases h with
  | subscribe => exact ends_inside habort body .empty
  | abortStarted _ _ hstat h => exact habort _ hstat h

end Transaction

/-- A scope runs out of aborts: each one counts, and after 12 it takes the lock. -/
theorem ends_aborted (n : ℕ) (rtm : RTMScope) (body : Prog L W R) (hup : rtm.givesUp = false)
    (hn : 12 ≤ rtm.counted + n) (stat : UInt32) (hstat : stat &&& xabortExplicit = 0)
    (hcounts : RTMScope.Counts stat) : Ends (.aborted rtm body stat) := by
  induction n generalizing rtm stat with
  | zero =>
    obtain ⟨hnested, hzero, hcapacity, hconflict⟩ := RTMScope.givesUp_eq_false.mp hup
    unfold RTMScope.counted at hn
    omega
  | succ n ih =>
    have hcount := rtm.counted_of_counts hcounts
    rw [ScopePhase.aborted, RTMScope.awaitsLock_hardware hstat, if_neg Bool.false_ne_true,
      ScopePhase.retry]
    split
    · exact ends_locking _ body
    · next hup' =>
      have habort := ih (rtm.count stat) (Bool.eq_false_iff.mpr hup') (by omega)
      refine ⟨_, fun _ h => ?_⟩
      cases h with
      | xbegin => exact ends_started habort

theorem ends_of_bounded {phase : ScopePhase L W R} (h : phase.Bounded) : Ends phase := by
  have habort : ∀ {rtm : RTMScope} (body : Prog L W R), rtm.givesUp = false →
      ∀ stat, stat &&& xabortExplicit = 0 → RTMScope.Counts stat →
        Ends (.aborted rtm body stat) :=
    fun body hup => ends_aborted 12 _ body hup (Nat.le_add_left 12 _)
  cases phase with
  | outside => exact ends_outside
  | beginning rtm body =>
    refine ⟨_, fun _ hnext => ?_⟩
    cases hnext with
    | xbegin => exact ends_started (habort body h)
  | started rtm body => exact ends_started (habort body h)
  | inside rtm body log rest => exact ends_inside (habort body h) rest log
  | waiting rtm body => exact h.elim
  | locking rtm body => exact ends_locking rtm body
  | spinning rtm body => exact ends_spinning rtm body
  | inPlace rtm body rest => exact ends_inPlace rtm body rest

end Advance

section Alone
variable [DecidableEq T] [DecidableEq L] [DecidableEq W] {m₀ : L → W} {s s' : Rtm T L W R} {t : T}
  {e : RtmEvent T L W R} {es fs : List (RtmEvent T L W R)}

structure Alone (m₀ : L → W) (t : T) (s : Rtm T L W R) : Prop where
  settled : ∃ b holder, Settled m₀ s b holder
  bounded : s.Bounded
  others : ∀ t', t' ≠ t → ¬ (s.phase t').InPlace

omit [DecidableEq T] [DecidableEq W] in
theorem Alone.lock (h : Alone m₀ t s) (ht : ¬ (s.phase t).InPlace) : s.lock = 0 := by
  obtain ⟨b, holder, hsettled⟩ := h.settled
  refine hsettled.lock.mpr ?_
  cases hholder : holder with
  | none => rfl
  | some t' =>
    obtain ⟨rtm, body, rest, hphase, -⟩ := hsettled.busy t' hholder
    have hin : (s.phase t').InPlace := inPlace_iff.mpr ⟨rtm, body, rest, hphase⟩
    by_cases heq : t' = t
    · exact absurd (heq ▸ hin) ht
    · exact absurd hin (h.others t' heq)

omit [DecidableEq T] [DecidableEq W] in
theorem Move.advance {new : ScopePhase L W R} (h : Alone m₀ t s) (hown : Own t e)
    {u : T} (hmove : Move s u e (s.phase u) new) : u = t ∧ Advance (s.phase t) new := by
  have hlock : ∀ {old}, s.phase u = old → u = t → ¬ old.InPlace → s.lock = 0 := by
    rintro old hphase rfl hout
    exact h.lock (hphase ▸ hout)
  generalize hold : s.phase u = old at hmove
  have hat : u = t → Advance old new → u = t ∧ Advance (s.phase t) new := by
    rintro rfl hadvance
    exact ⟨rfl, hold ▸ hadvance⟩
  cases hmove with
  | xbegin rtm body => exact hat hown (.xbegin rtm body)
  | locked rtm body hbusy => exact absurd (hlock hold hown id) hbusy
  | subscribe rtm body hfree => exact hat hown (.subscribe rtm body)
  | access rtm body hstep => exact hat hown (.access rtm body hstep)
  | abortStarted rtm body hstat => exact hat hown.1 (.abortStarted rtm body hstat hown.2)
  | abortInside rtm body log rest hstat =>
    exact hat hown.1 (.abortInside rtm body log rest hstat hown.2)
  | resume rtm body hfree =>
    have hwaiting := h.bounded u
    rw [hold] at hwaiting
    exact hwaiting.elim
  | relax rtm body hfree => exact hat hown (.relax rtm body)

theorem Alone.advance (h : Alone m₀ t s) (hown : Own t e) (hstep : s.step e = some s') :
    Advance (s.phase t) (s'.phase t) ∧ ∀ t', t' ≠ t → s'.phase t' = s.phase t' := by
  have hat : ∀ {phase : ScopePhase L W R}, Advance (s.phase t) phase →
      s'.phase = (s.goto t phase).phase →
      Advance (s.phase t) (s'.phase t) ∧ ∀ t', t' ≠ t → s'.phase t' = s.phase t' := by
    intro phase hadvance hphase
    rw [hphase, goto_self]
    exact ⟨hadvance, fun t' hne => goto_other hne⟩
  cases Turn.of_step hstep with
  | enter body hphase => exact hown.elim
  | lock body hphase => exact hown.elim
  | move hmove =>
    obtain ⟨rfl, hadvance⟩ := hmove.advance h hown
    exact hat hadvance rfl
  | pause hphase hlock =>
    obtain rfl := hown
    exact absurd (h.lock (by rw [hphase]; exact id)) hlock
  | relax hphase hlock =>
    obtain rfl := hown
    exact absurd (h.lock (by rw [hphase]; exact id)) hlock
  | miss hphase hlock =>
    obtain rfl := hown
    exact absurd (h.lock (by rw [hphase]; exact id)) hlock
  | acquire hphase hlock =>
    obtain rfl := hown
    exact hat (hphase ▸ .acquire _ _) rfl
  | access hphase haccess =>
    obtain rfl := hown
    exact hat (hphase ▸ .accessInPlace _ _ haccess) rfl
  | commit hphase hlock hvalid =>
    obtain rfl := hown
    exact hat (hphase ▸ .commit _ _ _ _) rfl
  | release hphase =>
    obtain rfl := hown
    exact hat (hphase ▸ .release _ _ _) rfl
  | store l w hphase => exact hown.elim

theorem Alone.step (h : Alone m₀ t s) (hown : Own t e) (hstep : s.step e = some s') :
    Alone m₀ t s' := by
  obtain ⟨b, holder, hsettled⟩ := h.settled
  refine ⟨hsettled.step hstep ?_, h.bounded.step hstep, fun t' hne => ?_⟩
  · cases e with
    | store => exact hown.elim
    | _ => trivial
  · rw [(h.advance hown hstep).2 t' hne]
    exact h.others t' hne

theorem Alone.run (h : Alone m₀ t s) (hown : ∀ f ∈ fs, Own t f)
    (hrun : run Rtm.step fs s = some s') : Alone m₀ t s' :=
  run_invariant_of (Alone m₀ t) (Own t) (fun _ _ _ hs hf ha => ha.step hf hs) hown hrun h

/-- The thread cannot go on in its scope for ever. -/
theorem Alone.ends (h : Alone m₀ t s) :
    Acc (fun s₂ s₁ : Rtm T L W R => ∃ e, Own t e ∧ s₁.step e = some s₂) s := by
  have hacc : Ends (s.phase t) := ends_of_bounded (h.bounded t)
  generalize hphase : s.phase t = phase at hacc
  induction hacc generalizing s with
  | intro phase _ ih =>
    refine ⟨_, fun s₂ hnext => ?_⟩
    obtain ⟨e, hown, hstep⟩ := hnext
    exact ih _ (hphase ▸ (h.advance hown hstep).1) (h.step hown hstep) rfl

theorem Alone.next (h : Alone m₀ t s) (hphase : s.phase t ≠ .outside) :
    ∃ e s₁, Own t e ∧ s.step e = some s₁ := by
  cases hp : s.phase t with
  | outside => exact absurd hp hphase
  | beginning rtm body => exact ⟨.xbegin t, _, rfl, by simp only [Rtm.step, hp]; rfl⟩
  | started rtm body =>
    have hlock := h.lock (by rw [hp]; exact id)
    exact ⟨.isLocked t, _, rfl, by simp only [Rtm.step, hp, hlock]; rfl⟩
  | inside rtm body log rest =>
    -- the hardware may abort at any time, and must if the transaction is out of date
    exact ⟨.abort t 0, _, ⟨rfl, by decide⟩, by simp only [Rtm.step, hp]; rfl⟩
  | waiting rtm body =>
    have hwaiting := h.bounded t
    rw [hp] at hwaiting
    exact hwaiting.elim
  | locking rtm body =>
    have hlock := h.lock (by rw [hp]; exact id)
    exact ⟨.xchg t, _, rfl, by simp only [Rtm.step, hp, hlock]; rfl⟩
  | spinning rtm body =>
    have hlock := h.lock (by rw [hp]; exact id)
    exact ⟨.relax t, _, rfl, by simp only [Rtm.step, hp, hlock]; rfl⟩
  | inPlace rtm body rest =>
    cases rest with
    | ret r => exact ⟨.leave t, _, rfl, by simp only [Rtm.step, hp]; rfl⟩
    | read l next => exact ⟨.access t, _, rfl, by simp only [Rtm.step, hp]; rfl⟩
    | write l w next => exact ⟨.access t, _, rfl, by simp only [Rtm.step, hp]; rfl⟩

theorem alone_of_run (hrun : run Rtm.step es (.init m₀) = some s)
    (hfree : AllSteps Rtm.step RaceFree es (.init m₀))
    (hothers : ∀ t', t' ≠ t → ¬ (s.phase t').InPlace) : Alone m₀ t s where
  settled := (Settled.init m₀).run hrun hfree
  bounded := run_invariant Bounded (fun _ _ _ hstep h => h.step hstep) hrun (fun _ => trivial)
  others := hothers

/-- Whatever a run has come to, a thread in a scope gets to the end of it as soon as nobody else
has the lock: it cannot go on for ever, however often the hardware aborts it, and when it cannot go
on its scope has taken effect, once. -/
theorem rtm_finishes (hrun : run Rtm.step es (.init m₀) = some s)
    (hfree : AllSteps Rtm.step RaceFree es (.init m₀))
    (hothers : ∀ t', t' ≠ t → ¬ (s.phase t').InPlace) :
    Acc (fun s₂ s₁ : Rtm T L W R => ∃ e, Own t e ∧ s₁.step e = some s₂) s ∧
    ∀ fs s', (∀ f ∈ fs, Own t f) → run Rtm.step fs s = some s' →
      (¬ ∃ e s₁, Own t e ∧ s'.step e = some s₁) →
      s'.phase t = .outside ∧ s'.history.filterMap (Effect.scopeOf t) =
        s.history.filterMap (Effect.scopeOf t) ++ (s.phase t).body.toList := by
  have halone := alone_of_run hrun hfree hothers
  refine ⟨halone.ends, fun fs s' hown hruns hstop => ?_⟩
  have houtside : s'.phase t = .outside := by
    by_contra hphase
    exact hstop ((halone.run hown hruns).next hphase)
  refine ⟨houtside, ?_⟩
  have hscopes := scopes_run t hruns
  have hnone : fs.filterMap (RtmEvent.enters t) = [] := by
    refine List.filterMap_eq_nil_iff.mpr fun f hf => ?_
    cases f with
    | enter => exact (hown _ hf).elim
    | lock => exact (hown _ hf).elim
    | _ => rfl
  rw [hnone, List.append_nil, scopes, scopes, houtside] at hscopes
  simpa [ScopePhase.body] using hscopes

end Alone

theorem rtm_finishes_two : ∃ s, run Rtm.step overlap (.init fun _ => 0) = some s ∧
    Acc (fun s₂ s₁ : Rtm Bool Unit ℕ ℕ => ∃ e, Own true e ∧ s₁.step e = some s₂) s ∧
    ∀ fs s', (∀ f ∈ fs, Own true f) → run Rtm.step fs s = some s' →
      (¬ ∃ e s₁, Own true e ∧ s'.step e = some s₁) →
      s'.phase true = .outside ∧ s'.history.filterMap (Effect.scopeOf true) =
        s.history.filterMap (Effect.scopeOf true) ++ (s.phase true).body.toList := by
  obtain ⟨s, hrun, hfalse⟩ : ∃ s, run Rtm.step overlap (.init fun _ => 0) = some s ∧
      ¬ (s.phase false).InPlace := ⟨_, rfl, id⟩
  refine ⟨s, hrun, rtm_finishes hrun (AllSteps.of_forall (by simp [overlap, RaceFree])) ?_⟩
  intro t hne
  rwa [Bool.eq_false_iff.mpr hne]

end Rtm
end XStore.Xutils
