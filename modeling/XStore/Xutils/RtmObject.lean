import XStore.Xutils.RtmSerial

/-! Threads whose scopes, and whose work under the lock, are operations on one object. -/
namespace XStore.Xutils
open XStore.Lib
variable {T L W R I A : Type}
namespace Rtm

def Calls (body : I → Prog L W R) : RtmEvent T L W R → Prop
  | .enter _ b => ∃ i, b = body i
  | .lock _ b => ∃ i, b = body i
  | .store _ _ _ => False
  | _ => True

structure Object (L W R I A : Type) [DecidableEq L] where
  body : I → Prog L W R
  next : A → I → R × A
  Rel : (L → W) → A → Prop
  spec : ∀ i m a, Rel m a →
    ((body i).run m).1 = (next a i).1 ∧ Rel ((body i).run m).2 (next a i).2

section Object
variable [DecidableEq L] {o : Object L W R I A} {m m' : L → W} {a : A}

theorem Object.replays {es : List (Effect T L W R)} (h : Replays Effect.Act es m m')
    (hes : ∀ e ∈ es, ∃ t i r, e = .scope t (o.body i) r) (hm : o.Rel m a) :
    ∃ calls : List (T × I),
      es = List.zipWith (fun c r => .scope c.1 (o.body c.2) r) calls
        (sequential o.next (calls.map Prod.snd) a).1 ∧
      o.Rel m' (sequential o.next (calls.map Prod.snd) a).2 := by
  induction es generalizing m a with
  | nil =>
    obtain rfl := h
    exact ⟨[], rfl, hm⟩
  | cons e es ih =>
    obtain ⟨m₁, he, hrest⟩ := h
    obtain ⟨t, i, r, rfl⟩ := hes e List.mem_cons_self
    obtain ⟨hout, hrel⟩ := o.spec i m a hm
    have hact : (o.body i).run m = (r, m₁) := he
    simp only [hact] at hout hrel
    obtain ⟨calls, hcalls, hend⟩ := ih hrest (fun e he => hes e (List.mem_cons_of_mem _ he)) hrel
    refine ⟨(t, i) :: calls, ?_, hend⟩
    rw [hcalls, hout]
    rfl

end Object

section Operations
variable [DecidableEq T] [DecidableEq L] [DecidableEq W] {body : I → Prog L W R}
  {s s' : Rtm T L W R} {e : RtmEvent T L W R} {es : List (RtmEvent T L W R)} {m₀ : L → W} {a₀ : A}

structure Busy (body : I → Prog L W R) (s : Rtm T L W R) : Prop where
  history : ∀ e ∈ s.history, ∃ t i r, e = .scope t (body i) r
  phase : ∀ t b, (s.phase t).body = some b → ∃ i, b = body i

omit [DecidableEq T] [DecidableEq L] [DecidableEq W] in
theorem Calls.raceFree (h : Calls body e) : s.RaceFree e := by
  cases e with
  | store => exact h.elim
  | _ => trivial

omit [DecidableEq L] [DecidableEq W] in
theorem Busy.of_phase (h : Busy body s) (hhistory : s'.history = s.history) {t : T}
    (hself : ∀ b, (s'.phase t).body = some b → ∃ i, b = body i)
    (hothers : ∀ t', t' ≠ t → s'.phase t' = s.phase t') : Busy body s' where
  history := hhistory ▸ h.history
  phase t' b hb := by
    by_cases heq : t' = t
    · subst heq
      exact hself b hb
    · rw [hothers t' heq] at hb
      exact h.phase t' b hb

omit [DecidableEq L] [DecidableEq W] in
theorem Busy.leave (h : Busy body s) {t : T} {b : Prog L W R} {r : R}
    (hb : (s.phase t).body = some b) (hhistory : s'.history = s.history ++ [.scope t b r])
    (hself : s'.phase t = .outside) (hothers : ∀ t', t' ≠ t → s'.phase t' = s.phase t') :
    Busy body s' where
  history e he := by
    rw [hhistory] at he
    rcases List.mem_append.mp he with he | he
    · exact h.history e he
    · obtain ⟨i, rfl⟩ := h.phase t b hb
      exact ⟨t, i, r, List.mem_singleton.mp he⟩
  phase t' b' hb' := by
    by_cases heq : t' = t
    · subst heq
      rw [hself] at hb'
      cases hb'
    · rw [hothers t' heq] at hb'
      exact h.phase t' b' hb'

theorem Busy.step (h : Busy body s) (hcalls : Calls body e) (hstep : s.step e = some s') :
    Busy body s' := by
  have hgo : ∀ {t : T} {new : ScopePhase L W R}, new.body = (s.phase t).body →
      s'.history = s.history → s'.phase = (s.goto t new).phase → Busy body s' := by
    intro t new hbody hhistory hphase
    refine h.of_phase hhistory (t := t) (fun b hb => h.phase t b ?_) (fun t' hne => ?_)
    · rw [← hbody, ← hb, hphase, goto_self]
    · rw [hphase, goto_other hne]
  cases Turn.of_step hstep with
  | enter b hphase =>
    refine h.of_phase rfl (fun b' hb' => ?_) (fun _ hne => goto_other hne)
    rw [goto_self] at hb'
    obtain rfl := Option.some.inj hb'
    exact hcalls
  | lock b hphase =>
    refine h.of_phase rfl (fun b' hb' => ?_) (fun _ hne => goto_other hne)
    rw [goto_self] at hb'
    obtain rfl := Option.some.inj hb'
    exact hcalls
  | move hmove => exact hgo hmove.body_eq rfl rfl
  | pause => exact h
  | relax => exact h
  | miss hphase hlock => exact hgo (by rw [hphase]; rfl) rfl rfl
  | acquire hphase hlock => exact hgo (by rw [hphase]; rfl) rfl rfl
  | access hphase haccess => exact hgo (by rw [hphase]; rfl) rfl rfl
  | commit hphase hlock hvalid =>
    exact h.leave (by rw [hphase]; rfl) rfl goto_self (fun _ hne => goto_other hne)
  | release hphase =>
    exact h.leave (by rw [hphase]; rfl) rfl goto_self (fun _ hne => goto_other hne)
  | store l w hphase => exact hcalls.elim

/-- Every run of threads that do operations on one object: what took effect are calls with the
results that they have one after the other, and the memory is the object that they leave. Only
the thread with the lock has gone on from there in its operation. -/
theorem Object.linearizes {o : Object L W R I A} (hm : o.Rel m₀ a₀)
    (hrun : run Rtm.step es (.init m₀) = some s) (hcalls : ∀ e ∈ es, Calls o.body e) :
    ∃ calls : List (T × I), ∃ b,
      s.history = List.zipWith (fun c r => .scope c.1 (o.body c.2) r) calls
        (sequential o.next (calls.map Prod.snd) a₀).1 ∧
      o.Rel b (sequential o.next (calls.map Prod.snd) a₀).2 ∧
      ((∀ t, ¬ (s.phase t).InPlace) → s.mem = b) ∧
      ∀ t rtm body rest, s.phase t = .inPlace rtm body rest →
        ∃ i, body = o.body i ∧ body.Reaches b rest s.mem := by
  have hfree : AllSteps Rtm.step RaceFree es (.init m₀) := by
    refine AllSteps.of_forall fun e he s => ?_
    exact (hcalls e he).raceFree
  have hbusy : Busy o.body s :=
    run_invariant_of (Busy o.body) (Calls o.body) (fun _ _ _ hs hc h => h.step hc hs) hcalls hrun
      ⟨fun _ he => absurd he List.not_mem_nil, fun _ _ hb => by cases hb⟩
  obtain ⟨b, holder, h⟩ := (Settled.init m₀).run hrun hfree
  obtain ⟨calls, hhistory, hrel⟩ := Object.replays h.replays hbusy.history hm
  refine ⟨calls, b, hhistory, hrel, fun hall => h.free (h.holder_none.mpr hall),
    fun t rtm body rest hphase => ?_⟩
  obtain ⟨i, hi⟩ := hbusy.phase t body (by rw [hphase]; rfl)
  exact ⟨i, hi, (h.reaches hphase).2⟩

end Operations
end Rtm
end XStore.Xutils
