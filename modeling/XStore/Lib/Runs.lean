import Mathlib.Data.Option.Basic

/-! Runs of a transition system. A step is a partial function of the state and an event: an
event that is not enabled has no successor. -/
namespace XStore.Lib
variable {σ ε : Type*} {step : σ → ε → Option σ} {s s' : σ} {es fs : List ε}

/-- The state after a sequence of events, if every one of them is enabled in its turn. -/
def run (step : σ → ε → Option σ) : List ε → σ → Option σ
  | [], s => some s
  | e :: es, s => (step s e).bind (run step es)

@[simp] theorem run_nil : run step [] s = some s := rfl

theorem run_cons {e : ε} {s₁ : σ} (h : step s e = some s₁) :
    run step (e :: es) s = run step es s₁ := by
  simp [run, h]

theorem run_append : run step (es ++ fs) s = (run step es s).bind (run step fs) := by
  induction es generalizing s with
  | nil => rfl
  | cons e es ih =>
    simp only [List.cons_append, run]
    cases step s e with
    | none => rfl
    | some s₁ => exact ih

theorem run_trans {s₁ s₂ : σ} (h₁ : run step es s = some s₁) (h₂ : run step fs s₁ = some s₂) :
    run step (es ++ fs) s = some s₂ := by
  rw [run_append, h₁, Option.bind_some, h₂]

theorem run_invariant_of (Inv : σ → Prop) (C : ε → Prop)
    (hstep : ∀ s e s', step s e = some s' → C e → Inv s → Inv s')
    (hC : ∀ e ∈ es, C e) (hrun : run step es s = some s') (h : Inv s) : Inv s' := by
  induction es generalizing s with
  | nil =>
    obtain rfl := Option.some.inj hrun
    exact h
  | cons e es ih =>
    obtain ⟨s₁, hs₁, hrest⟩ := Option.bind_eq_some_iff.mp hrun
    exact ih (fun e' he' => hC e' (List.mem_cons_of_mem e he')) hrest
      (hstep s e s₁ hs₁ (hC e List.mem_cons_self) h)

/-- What every step preserves holds at the end of every run. -/
theorem run_invariant (Inv : σ → Prop)
    (hstep : ∀ s e s', step s e = some s' → Inv s → Inv s')
    (hrun : run step es s = some s') (h : Inv s) : Inv s' :=
  run_invariant_of Inv (fun _ => True) (fun s e s' hs _ => hstep s e s' hs)
    (fun _ _ => trivial) hrun h

def seen {δ : Type*} (step : σ → ε → Option σ) (see : σ → ε → Option δ) : List ε → σ → List δ
  | [], _ => []
  | e :: es, s => (see s e).toList ++ (step s e).elim [] (seen step see es)

/-- A run of one system is a run of another one, if every step of it is none or one there. -/
theorem run_refines {τ δ : Type*} {step' : τ → δ → Option τ} {see : σ → ε → Option δ}
    (R : σ → τ → Prop) (C : ε → Prop) {t : τ}
    (hstep : ∀ s e s' t, step s e = some s' → C e → R s t →
      ∃ t', run step' (see s e).toList t = some t' ∧ R s' t')
    (hC : ∀ e ∈ es, C e) (hrun : run step es s = some s') (h : R s t) :
    ∃ t', run step' (seen step see es s) t = some t' ∧ R s' t' := by
  induction es generalizing s t with
  | nil =>
    obtain rfl := Option.some.inj hrun
    exact ⟨t, rfl, h⟩
  | cons e es ih =>
    obtain ⟨s₁, hs₁, hrest⟩ := Option.bind_eq_some_iff.mp hrun
    obtain ⟨t₁, ht₁, h₁⟩ := hstep s e s₁ t hs₁ (hC e List.mem_cons_self) h
    obtain ⟨t', ht', h'⟩ := ih (fun e' he' => hC e' (List.mem_cons_of_mem e he')) hrest h₁
    refine ⟨t', ?_, h'⟩
    rw [seen, hs₁, Option.elim_some]
    exact run_trans ht₁ ht'

/-- `P` holds in every state that the run passes, the first and the last included. -/
def AllStates (step : σ → ε → Option σ) (P : σ → Prop) : List ε → σ → Prop
  | [], s => P s
  | e :: es, s => P s ∧ ∀ s', step s e = some s' → AllStates step P es s'

/-- Every event of the run meets `C` in the state before it. -/
def AllSteps (step : σ → ε → Option σ) (C : σ → ε → Prop) : List ε → σ → Prop
  | [], _ => True
  | e :: es, s => C s e ∧ ∀ s', step s e = some s' → AllSteps step C es s'

theorem AllStates.head {P : σ → Prop} (h : AllStates step P es s) : P s := by
  cases es with
  | nil => exact h
  | cons e es => exact h.1

theorem AllStates.last {P : σ → Prop} (h : AllStates step P es s) (hrun : run step es s = some s') :
    P s' := by
  induction es generalizing s with
  | nil =>
    obtain rfl := Option.some.inj hrun
    exact h
  | cons e es ih =>
    obtain ⟨s₁, hs₁, hrest⟩ := Option.bind_eq_some_iff.mp hrun
    exact ih (h.2 s₁ hs₁) hrest

theorem AllStates.cons_iff {P : σ → Prop} {e : ε} {s₁ : σ} (hstep : step s e = some s₁) :
    AllStates step P (e :: es) s ↔ P s ∧ AllStates step P es s₁ := by
  constructor
  · intro h
    exact ⟨h.1, h.2 s₁ hstep⟩
  · intro h
    refine ⟨h.1, fun s' hs' => ?_⟩
    obtain rfl := Option.some.inj (hstep.symm.trans hs')
    exact h.2

theorem AllSteps.cons {C : σ → ε → Prop} {e : ε} {s₁ : σ} (hstep : step s e = some s₁)
    (hC : C s e) (h : AllSteps step C es s₁) : AllSteps step C (e :: es) s := by
  refine ⟨hC, fun s' hs' => ?_⟩
  obtain rfl := Option.some.inj (hstep.symm.trans hs')
  exact h

theorem AllSteps.cons_iff {C : σ → ε → Prop} {e : ε} {s₁ : σ} (hstep : step s e = some s₁) :
    AllSteps step C (e :: es) s ↔ C s e ∧ AllSteps step C es s₁ :=
  ⟨fun h => ⟨h.1, h.2 s₁ hstep⟩, fun h => .cons hstep h.1 h.2⟩

/-- What every step that meets `C` preserves holds in all states of a run of such steps. -/
theorem AllSteps.allStates {Inv : σ → Prop} {C : σ → ε → Prop}
    (hstep : ∀ s e s', step s e = some s' → C s e → Inv s → Inv s')
    (hC : AllSteps step C es s) (h : Inv s) : AllStates step Inv es s := by
  induction es generalizing s with
  | nil => exact h
  | cons e es ih => exact ⟨h, fun s' hs' => ih (hC.2 s' hs') (hstep s e s' hs' hC.1 h)⟩

theorem AllSteps.of_forall {C : σ → ε → Prop} (h : ∀ e ∈ es, ∀ s, C s e) :
    AllSteps step C es s := by
  induction es generalizing s with
  | nil => trivial
  | cons e es ih =>
    exact ⟨h e List.mem_cons_self s, fun s' _ => ih fun e he => h e (List.mem_cons_of_mem _ he)⟩

theorem AllSteps.mono {C D : σ → ε → Prop} (himp : ∀ s e, C s e → D s e)
    (hC : AllSteps step C es s) : AllSteps step D es s := by
  induction es generalizing s with
  | nil => trivial
  | cons e es ih => exact ⟨himp s e hC.1, fun s' hs' => ih (hC.2 s' hs')⟩

/-- Under an invariant that steps meeting `C` preserve, `C` may give `D` at every step. -/
theorem AllSteps.imp {Inv : σ → Prop} {C D : σ → ε → Prop}
    (hstep : ∀ s e s', step s e = some s' → C s e → Inv s → Inv s')
    (himp : ∀ s e, C s e → Inv s → D s e) (hC : AllSteps step C es s) (h : Inv s) :
    AllSteps step D es s := by
  induction es generalizing s with
  | nil => trivial
  | cons e es ih =>
    exact ⟨himp s e hC.1 h, fun s' hs' => ih (hC.2 s' hs') (hstep s e s' hs' hC.1 h)⟩

theorem AllStates.imp {P Q : σ → Prop} (himp : ∀ s, P s → Q s) (h : AllStates step P es s) :
    AllStates step Q es s := by
  induction es generalizing s with
  | nil => exact himp s h
  | cons e es ih => exact ⟨himp s h.1, fun s' hs' => ih (h.2 s' hs')⟩

end XStore.Lib
