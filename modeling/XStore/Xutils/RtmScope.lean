import XStore.Lib.Code
import XStore.Xutils.RtmSerial

/-! Scopes as a part of a larger program: what goes on within one, what takes effect when a thread
leaves it, and stores outside of the scopes to cells that they do not access. -/
namespace XStore.Xutils
open XStore.Lib
variable {T L W R : Type}

def ScopePhase.result : ScopePhase L W R → Option R
  | .inside _ _ _ (.ret r) => some r
  | .inPlace _ _ (.ret r) => some r
  | _ => none

def RtmEvent.within : RtmEvent T L W R → Bool
  | .enter _ _ => false
  | .lock _ _ => false
  | .leave _ => false
  | .store _ _ _ => false
  | _ => true

namespace Rtm
variable [DecidableEq T] [DecidableEq L] [DecidableEq W] {m₀ b : L → W} {s s' : Rtm T L W R}
  {holder : Option T} {e : RtmEvent T L W R} {t : T}

omit [DecidableEq L] [DecidableEq W] in
theorem body_goto {phase : ScopePhase L W R} (hbody : phase.body = (s.phase t).body) (u : T) :
    ((s.goto t phase).phase u).body = (s.phase u).body := by
  by_cases heq : u = t
  · rw [heq, goto_self, hbody]
  · rw [goto_other heq]

/-- Within the scopes nothing takes effect, and every thread keeps its body. -/
theorem Settled.within (h : Settled m₀ s b holder) (hstep : s.step e = some s')
    (he : e.within = true) :
    (∃ holder', Settled m₀ s' b holder') ∧ ∀ u, (s'.phase u).body = (s.phase u).body := by
  cases Turn.of_step hstep with
  | enter body hphase => cases he
  | lock body hphase => cases he
  | move hmove => exact ⟨⟨holder, hmove.settled h⟩, body_goto hmove.body_eq⟩
  | pause => exact ⟨⟨holder, h⟩, fun _ => rfl⟩
  | relax => exact ⟨⟨holder, h⟩, fun _ => rfl⟩
  | miss hphase hlock => exact ⟨⟨holder, h.miss hphase hlock⟩, body_goto (by rw [hphase]; rfl)⟩
  | acquire hphase hlock =>
    exact ⟨⟨_, h.acquire hlock _ _ rfl rfl rfl goto_self (fun _ hne => goto_other hne)⟩,
      body_goto (by rw [hphase]; rfl)⟩
  | access hphase haccess =>
    exact ⟨⟨holder, h.access hphase haccess rfl rfl goto_self (fun _ hne => goto_other hne)⟩,
      body_goto (by rw [hphase]; rfl)⟩
  | commit hphase hlock hvalid => cases he
  | release hphase => cases he
  | store l w hphase => cases he

theorem Settled.entered {body : Prog L W R} (h : Settled m₀ s b holder)
    (hstep : s.step (.enter t body) = some s') :
    Settled m₀ s' b holder ∧ s'.phase = Function.update s.phase t (.beginning .new body) := by
  cases Turn.of_step hstep with
  | enter _ hphase =>
    exact ⟨h.goto (by rw [hphase]; exact id) id (fun _ _ _ _ hp => by cases hp), rfl⟩
  | move hmove => cases hmove

theorem Settled.left (h : Settled m₀ s b holder) (hstep : s.step (.leave t) = some s') :
    ∃ body r, (s.phase t).body = some body ∧ (s.phase t).result = some r ∧
      body.run b = (r, s'.mem) ∧ Settled m₀ s' s'.mem none ∧
      s'.phase = Function.update s.phase t .outside := by
  cases Turn.of_step hstep with
  | move hmove => cases hmove
  | @commit _ rtm body log r hphase hlock hvalid =>
    refine ⟨body, r, by rw [hphase]; rfl, by rw [hphase]; rfl, h.commits hphase hlock hvalid,
      ?_, rfl⟩
    exact h.commit hphase hlock hvalid rfl rfl rfl goto_self (fun _ hne => goto_other hne)
  | @release _ rtm body r hphase =>
    refine ⟨body, r, by rw [hphase]; rfl, by rw [hphase]; rfl, h.releases hphase, ?_, rfl⟩
    exact h.release hphase rfl rfl rfl goto_self (fun _ hne => goto_other hne)

theorem Settled.beside {l : L} {w : W} (h : Settled m₀ s b holder)
    (hstep : s.step (.store t l w) = some s')
    (hapart : ∀ u rtm body rest, s.phase u = .inPlace rtm body rest →
      body.Within (fun l' => l' ≠ l) b) :
    Settled m₀ s' (Function.update b l w) holder ∧ s'.phase = s.phase := by
  cases Turn.of_step hstep with
  | move hmove => cases hmove
  | store _ _ hphase =>
    refine ⟨h.store l w (fun u rtm body rest hp hreach => ?_) rfl rfl rfl rfl, rfl⟩
    exact ((hapart u rtm body rest hp).update hreach (fun hne => hne rfl) w).1

end Rtm
end XStore.Xutils
