import XStore.Lib.Runs
import XStore.Xcache.Dispatch

/-! Updates and a background training run on one trainer: the two watermarks tell whether a
training is owed (submodel_trainer.hh). -/
namespace XStore.Xcache
open XStore.Lib XStore.Xkv XStore.Xml
variable {K : Type}

/-- Where a training run stands. After its snapshot it goes on with its own copy of the range. -/
inductive Phase (K : Type) where
  | idle
  | checked
  | snapped (sKey eKey : K)
  deriving DecidableEq, Repr

/-- The trainer, the run on it, and the keys of the updates since the latest snapshot. -/
structure TrainerState (K : Type) where
  trainer : XMLTrainer K
  phase : Phase K
  pending : List K
  deriving DecidableEq, Repr

/-- An update holds `guard` from its start to its end, and so does the snapshot. -/
inductive TrainerEvent (K : Type) where
  | updateKey (k : K)
  | check
  | snapshot
  | finish
  deriving DecidableEq, Repr

namespace TrainerState

section Steps
variable [KeyType K] [Usize]

def init : TrainerState K where
  trainer := .new
  phase := .idle
  pending := []

/-- The training runs come from a single thread. -/
def step (σ : TrainerState K) : TrainerEvent K → Option (TrainerState K)
  | .updateKey k =>
    some { σ with trainer := σ.trainer.updateKey k, pending := k :: σ.pending }
  | .check => match σ.phase with
    | .idle => some { σ with phase := if σ.trainer.needTrain then .checked else .idle }
    | _ => none
  | .snapshot => match σ.phase with
    | .checked =>
      some { σ with phase := .snapped σ.trainer.startKey σ.trainer.endKey, pending := [] }
    | _ => none
  | .finish => match σ.phase with
    | .snapped _ _ => some { σ with trainer := σ.trainer.trainDone, phase := .idle }
    | _ => none

inductive Stepped (σ : TrainerState K) : TrainerEvent K → TrainerState K → Prop where
  | updateKey (k : K) : Stepped σ (.updateKey k)
      { σ with trainer := σ.trainer.updateKey k, pending := k :: σ.pending }
  | spared (h : σ.phase = .idle) (hneed : σ.trainer.needTrain = false) : Stepped σ .check σ
  | due (h : σ.phase = .idle) (hneed : σ.trainer.needTrain = true) :
      Stepped σ .check { σ with phase := .checked }
  | snapshot (h : σ.phase = .checked) : Stepped σ .snapshot
      { σ with phase := .snapped σ.trainer.startKey σ.trainer.endKey, pending := [] }
  | finish (sKey eKey : K) (h : σ.phase = .snapped sKey eKey) : Stepped σ .finish
      { σ with trainer := σ.trainer.trainDone, phase := .idle }

theorem step_cases {σ σ' : TrainerState K} {e : TrainerEvent K} (h : step σ e = some σ') :
    Stepped σ e σ' := by
  cases e with
  | updateKey k =>
    cases h
    exact .updateKey k
  | check =>
    cases hp : σ.phase <;> simp only [step, hp] at h <;> cases h
    cases hneed : σ.trainer.needTrain with
    | false =>
      simp only [Bool.false_eq_true, if_false, ← hp]
      exact .spared hp hneed
    | true => exact .due hp hneed
  | snapshot =>
    cases hp : σ.phase <;> simp only [step, hp] at h <;> cases h
    exact .snapshot hp
  | finish =>
    cases hp : σ.phase <;> simp only [step, hp] at h <;> cases h
    exact .finish _ _ hp

end Steps

section LostUpdate
variable [LinearOrder K] [Usize] {σ σ' : TrainerState K}

/-- Between training runs, the next one is owed and takes in every key since the latest
snapshot. -/
def NoneLost (σ : TrainerState K) : Prop :=
  σ.phase = .idle → ∀ k ∈ σ.pending,
    σ.trainer.needTrain = true ∧ σ.trainer.startKey ≤ k ∧ k ≤ σ.trainer.endKey

/-- No update lands between a snapshot and the end of its training run, and none finds the
watermark at its last value. -/
def Safe (σ : TrainerState K) : TrainerEvent K → Prop
  | .updateKey _ => (∀ sKey eKey, σ.phase ≠ .snapped sKey eKey) ∧
      σ.trainer.lWatermark + 1 < 2 ^ Usize.bits
  | _ => True

/-- What every step keeps: at most one training is owed, and one is during a training run. -/
structure Counted (σ : TrainerState K) : Prop where
  hWatermark_lt : σ.trainer.hWatermark < 2 ^ Usize.bits
  last : σ.trainer.lWatermark + 1 = 2 ^ Usize.bits ∨
    σ.trainer.lWatermark ≤ σ.trainer.hWatermark ∧
      σ.trainer.hWatermark ≤ σ.trainer.lWatermark + 1
  running : σ.phase ≠ .idle → σ.trainer.hWatermark = σ.trainer.lWatermark + 1
  range : ∀ k ∈ σ.pending, σ.trainer.startKey ≤ k ∧ k ≤ σ.trainer.endKey

/-- What safe steps keep besides: a pending key has its training owed, and a snapshot leaves
none pending. -/
structure Owed (σ : TrainerState K) : Prop where
  counted : Counted σ
  idle : σ.phase = .idle → σ.pending ≠ [] → σ.trainer.needTrain = true
  snapped : ∀ sKey eKey, σ.phase = .snapped sKey eKey → σ.pending = []

theorem NoneLost.covers [BoundedOrder K] (h : NoneLost σ) (hp : σ.phase = .idle) {k : K}
    (hk : k ∈ σ.pending) : ∃ σ' sKey eKey, run step [.check, .snapshot] σ = some σ' ∧
      σ'.phase = .snapped sKey eKey ∧ sKey ≤ k ∧ k ≤ eKey := by
  obtain ⟨hneed, hstart, hend⟩ := h hp k hk
  refine ⟨{ σ with phase := .snapped σ.trainer.startKey σ.trainer.endKey, pending := [] }, _, _,
    ?_, rfl, hstart, hend⟩
  simp only [run, step, hp, hneed, if_true, Option.bind_some]

theorem Owed.noneLost (h : Owed σ) : NoneLost σ := fun hp k hk =>
  ⟨h.idle hp (List.ne_nil_of_mem hk), h.counted.range k hk⟩

variable [BoundedOrder K]

theorem Counted.init : Counted (.init : TrainerState K) where
  hWatermark_lt := Nat.two_pow_pos _
  last := Or.inr (by simp [TrainerState.init, XMLTrainer.new])
  running h := absurd rfl h
  range := by simp [TrainerState.init]

theorem Owed.init : Owed (.init : TrainerState K) where
  counted := .init
  idle _ h := absurd rfl h
  snapped := nofun

theorem Counted.updateKey (h : Counted σ) (k : K) :
    Counted { σ with trainer := σ.trainer.updateKey k, pending := k :: σ.pending } := by
  obtain ⟨hlt, hlast, hrunning, hrange⟩ := h
  have hl := σ.trainer.lWatermark_updateKey k
  have hh := σ.trainer.hWatermark_updateKey k
  rw [Usize.succ_mod hlt] at hh
  refine ⟨?_, ?_, fun hp => ?_, fun j hj => ?_⟩
  · simp only [hh]
    split_ifs <;> omega
  · simp only [hh, hl]
    split_ifs <;> omega
  · have := hrunning hp
    simp only [hh, hl]
    split_ifs <;> omega
  · rw [XMLTrainer.startKey_updateKey, XMLTrainer.endKey_updateKey, min_le_iff, le_max_iff]
    rcases List.mem_cons.mp hj with rfl | hj
    · exact ⟨Or.inr le_rfl, Or.inr le_rfl⟩
    · exact ⟨Or.inl (hrange j hj).1, Or.inl (hrange j hj).2⟩

theorem Counted.step {e : TrainerEvent K} (hstep : step σ e = some σ') (h : Counted σ) :
    Counted σ' := by
  cases step_cases hstep with
  | updateKey k => exact h.updateKey k
  | spared hp hneed => exact h
  | due hp hneed =>
    have hgt : σ.trainer.hWatermark > σ.trainer.lWatermark := of_decide_eq_true hneed
    have hlt := h.hWatermark_lt
    have hlast := h.last
    exact ⟨hlt, hlast, fun _ => by simp only; omega, h.range⟩
  | snapshot hp =>
    exact ⟨h.hWatermark_lt, h.last, fun _ => h.running (by simp [hp]), by simp⟩
  | finish sKey eKey hp =>
    -- a training was owed, so the watermark was not the last one
    have hrunning := h.running (by simp [hp])
    have hlt := h.hWatermark_lt
    have hdone : σ.trainer.trainDone.lWatermark = σ.trainer.hWatermark := by
      rw [hrunning]
      exact Nat.mod_eq_of_lt (by omega)
    exact ⟨hlt, Or.inr ⟨hdone.le, hdone.symm ▸ Nat.le_succ _⟩, fun hne => absurd rfl hne,
      h.range⟩

theorem Owed.step {e : TrainerEvent K} (hstep : step σ e = some σ') (hsafe : Safe σ e)
    (h : Owed σ) : Owed σ' := by
  have hcounted := h.counted.step hstep
  cases step_cases hstep with
  | updateKey k =>
    refine ⟨hcounted, fun _ _ => ?_, fun sKey eKey hp => absurd hp (hsafe.1 sKey eKey)⟩
    have hlast := h.counted.last
    have hl := hsafe.2
    exact (σ.trainer.needTrain_updateKey k (by omega) hl).1
  | spared hp hneed => exact h
  | due hp hneed => exact ⟨hcounted, nofun, nofun⟩
  | snapshot hp => exact ⟨hcounted, nofun, fun _ _ _ => rfl⟩
  | finish sKey eKey hp =>
    exact ⟨hcounted, fun _ hne => absurd (h.snapped sKey eKey hp) hne, nofun⟩

/-- A run with a pending key after its snapshot has lost this key by its end. -/
theorem not_noneLost_of_snapped {sKey eKey : K} {es : List (TrainerEvent K)}
    (hrun : run TrainerState.step es σ = some σ') (hidle : σ'.phase = .idle)
    (hcounted : Counted σ) (hp : σ.phase = .snapped sKey eKey) (hne : σ.pending ≠ []) :
    ¬ AllStates TrainerState.step NoneLost es σ := by
  intro hall
  induction es generalizing σ with
  | nil =>
    obtain rfl := Option.some.inj hrun
    rw [hp] at hidle
    cases hidle
  | cons e es ih =>
    obtain ⟨σ₁, hstep, hrest⟩ := Option.bind_eq_some_iff.mp hrun
    have hcounted₁ := hcounted.step hstep
    have hall₁ := hall.2 σ₁ hstep
    cases step_cases hstep with
    | updateKey k => exact ih hrest hcounted₁ hp (List.cons_ne_nil _ _) hall₁
    | spared hp' hneed => simp [hp] at hp'
    | due hp' hneed => simp [hp] at hp'
    | snapshot hp' => simp [hp] at hp'
    | finish s e hp' =>
      -- the increment pays for the training owed before the snapshot
      obtain ⟨k, hk⟩ := List.exists_mem_of_ne_nil _ hne
      have hneed := of_decide_eq_true (hall₁.head rfl k hk).1
      have hrunning := hcounted.running (by simp [hp])
      have hlt := hcounted.hWatermark_lt
      simp only [XMLTrainer.trainDone, ← hrunning, Nat.mod_eq_of_lt hlt] at hneed
      omega

/-- An update that is not safe is lost, at the latest when the training run ends. -/
theorem safe_of_noneLost {e : TrainerEvent K} {es : List (TrainerEvent K)} {σ₁ : TrainerState K}
    (hstep : step σ e = some σ₁) (hrun : run TrainerState.step es σ₁ = some σ')
    (hidle : σ'.phase = .idle) (hcounted : Counted σ)
    (hall : AllStates TrainerState.step NoneLost es σ₁) : Safe σ e := by
  cases step_cases hstep with
  | updateKey k =>
    have hcounted₁ := hcounted.step hstep
    have hunsnapped : ∀ sKey eKey, σ.phase ≠ .snapped sKey eKey := fun sKey eKey hp =>
      not_noneLost_of_snapped hrun hidle hcounted₁ hp (List.cons_ne_nil _ _) hall
    refine ⟨hunsnapped, ?_⟩
    have hlt := hcounted₁.hWatermark_lt
    by_cases hp : σ.phase = .idle
    · have hneed := of_decide_eq_true (hall.head hp k List.mem_cons_self).1
      simp only [XMLTrainer.lWatermark_updateKey] at hneed hlt
      omega
    · have := hcounted.running hp
      have := hcounted.hWatermark_lt
      omega
  | _ => trivial

theorem allStates_noneLost {es : List (TrainerEvent K)} (hsafe : AllSteps step Safe es σ)
    (h : Owed σ) : AllStates step NoneLost es σ :=
  (hsafe.allStates (fun _ _ _ hstep hC => Owed.step hstep hC) h).imp (fun _ => Owed.noneLost)

theorem allSteps_safe {es : List (TrainerEvent K)}
    (hrun : run TrainerState.step es σ = some σ') (hidle : σ'.phase = .idle)
    (hcounted : Counted σ) (hall : AllStates TrainerState.step NoneLost es σ) :
    AllSteps TrainerState.step Safe es σ := by
  induction es generalizing σ with
  | nil => trivial
  | cons e es ih =>
    obtain ⟨σ₁, hstep, hrest⟩ := Option.bind_eq_some_iff.mp hrun
    have hall₁ := hall.2 σ₁ hstep
    have hsafe := safe_of_noneLost hstep hrest hidle hcounted hall₁
    exact .cons hstep hsafe (ih hrest (hcounted.step hstep) hall₁)

/-- A run without an update between a snapshot and the end of its training run loses none, as
long as the watermark lasts; every other run loses one by the time its training has finished. -/
theorem none_lost_iff (es : List (TrainerEvent K)) :
    (AllSteps step Safe es .init → AllStates step NoneLost es (.init : TrainerState K)) ∧
      ∀ σ : TrainerState K, run step es .init = some σ → σ.phase = .idle →
        (AllStates step NoneLost es (.init : TrainerState K) ↔ AllSteps step Safe es .init) :=
  ⟨fun hsafe => allStates_noneLost hsafe .init, fun _ hrun hidle =>
    ⟨allSteps_safe hrun hidle .init, fun hsafe => allStates_noneLost hsafe .init⟩⟩

end LostUpdate

theorem none_lost_iff_two :
    letI := usize64
    AllStates step NoneLost [.updateKey 1, .check, .snapshot, .finish, .updateKey 2]
        (.init : TrainerState XKey) ↔
      AllSteps step Safe [.updateKey 1, .check, .snapshot, .finish, .updateKey 2]
        (.init : TrainerState XKey) :=
  letI := usize64
  (none_lost_iff _).2 ⟨⟨1, 2, 1, 2, 2⟩, .idle, [2]⟩ (by decide) rfl

/-- The key 2 arrives between the snapshot of the range of 1 and the end of the training run:
no training is owed for it. -/
theorem update_lost_two :
    letI := usize64
    ∃ σ : TrainerState XKey, run step [.updateKey 1, .check, .snapshot, .updateKey 2, .finish]
      .init = some σ ∧ σ.phase = .idle ∧ 2 ∈ σ.pending ∧ σ.trainer.needTrain = false ∧
        ¬ NoneLost σ := by
  refine ⟨⟨⟨1, 2, 1, 1, 2⟩, .idle, [2]⟩, by decide, rfl, by decide, rfl, fun h => ?_⟩
  exact absurd (h rfl 2 (by decide)).1 (by decide)

section Alone
variable {IT KV S SS M : Type} [Usize] [KeyType K] [KeyIterTrait IT KV K] [SampleTrait S K]
  [SampleTrait SS K] [MlTrait M K]

theorem run_trainWItWShrink {fuel : ℕ} {t t' : XMLTrainer K} {it it' : IT} {kv : KV} {s : S}
    {ss : SS} {f : UpdateFunc} {model : XSubModel M}
    (h : t.trainWItWShrink fuel it kv s ss f = .ok (model, it', t')) (ks : List K) :
    run step (if t.needTrain then [.check, .snapshot, .finish] else [.check]) ⟨t, .idle, ks⟩ =
      some ⟨t', .idle, if t.needTrain then [] else ks⟩ := by
  cases hneed : t.needTrain with
  | false =>
    simp only [XMLTrainer.trainWItWShrink, hneed, Bool.false_eq_true, if_false] at h
    cases h
    simp [run, step, hneed]
  | true =>
    simp only [XMLTrainer.trainWItWShrink, hneed, if_true] at h
    obtain ⟨⟨it₁, s₁, train⟩, hsnap, h⟩ := bind_eq_ok.mp h
    obtain ⟨model₁, hfit, h⟩ := bind_eq_ok.mp h
    cases h
    simp [run, step, hneed]

end Alone

end TrainerState
end XStore.Xcache
