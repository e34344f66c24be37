import XStore.Lib.Related
import XStore.Lib.Transact

/-! Programs on a memory that may fail, and when one does to the memory what a plain computation
does to what the memory stands for. -/
namespace XStore.Lib
variable {ε L W R R' α β γ δ σ : Type}

namespace Prog

def bind : Prog L W R → (R → Prog L W R') → Prog L W R'
  | .ret r, f => f r
  | .read l next, f => .read l fun w => (next w).bind f
  | .write l w next, f => .write l w (next.bind f)

variable [DecidableEq L]

/-- Every access of the run from `m` is to a cell in `S`. -/
def Within (S : L → Prop) : Prog L W R → (L → W) → Prop
  | .ret _, _ => True
  | .read l next, m => S l ∧ (next (m l)).Within S m
  | .write l w next, m => S l ∧ next.Within S (Function.update m l w)

variable {S S' : L → Prop} {p q : Prog L W R} {f : R → Prog L W R'} {m m' : L → W}

theorem run_bind (p : Prog L W R) (f : R → Prog L W R') (m : L → W) :
    (p.bind f).run m = (f (p.run m).1).run (p.run m).2 := by
  induction p generalizing m with
  | ret r => rfl
  | read l next ih => exact ih (m l) m
  | write l w next ih => exact ih (Function.update m l w)

theorem Within.bind (hp : p.Within S m) (hf : (f (p.run m).1).Within S (p.run m).2) :
    (p.bind f).Within S m := by
  induction p generalizing m with
  | ret r => exact hf
  | read l next ih => exact ⟨hp.1, ih (m l) hp.2 hf⟩
  | write l w next ih => exact ⟨hp.1, ih hp.2 hf⟩

theorem Within.mono (hp : p.Within S m) (hS : ∀ l, S l → S' l) : p.Within S' m := by
  induction p generalizing m with
  | ret r => trivial
  | read l next ih => exact ⟨hS l hp.1, ih (m l) hp.2⟩
  | write l w next ih => exact ⟨hS l hp.1, ih hp.2⟩

theorem Within.step (hp : p.Within S m) (hstep : p.step m = some (q, m')) : q.Within S m' := by
  cases p with
  | ret r => cases hstep
  | read l next =>
    obtain ⟨rfl, rfl⟩ := Prod.mk.inj (Option.some.inj hstep)
    exact hp.2
  | write l w next =>
    obtain ⟨rfl, rfl⟩ := Prod.mk.inj (Option.some.inj hstep)
    exact hp.2

theorem Within.step_update (hp : p.Within S m) {l : L} (hl : ¬ S l) (w : W)
    (h : p.step m = some (q, m')) :
    p.step (Function.update m l w) = some (q, Function.update m' l w) := by
  cases p with
  | ret r => cases h
  | read l' next =>
    have hne : l' ≠ l := fun heq => hl (heq ▸ hp.1)
    obtain ⟨rfl, rfl⟩ := Prod.mk.inj (Option.some.inj h)
    rw [Prog.step, Function.update_of_ne hne]
  | write l' w' next =>
    have hne : l' ≠ l := fun heq => hl (heq ▸ hp.1)
    obtain ⟨rfl, rfl⟩ := Prod.mk.inj (Option.some.inj h)
    rw [Prog.step, Function.update_comm hne.symm]

theorem Within.update (hp : p.Within S m) (h : p.Reaches m q m') {l : L} (hl : ¬ S l) (w : W) :
    p.Reaches (Function.update m l w) q (Function.update m' l w) ∧ q.Within S m' := by
  refine Relation.ReflTransGen.rec (motive := fun y _ =>
    p.Reaches (Function.update m l w) y.1 (Function.update y.2 l w) ∧ y.1.Within S y.2)
    ⟨.refl p _, hp⟩ (fun _ hstep ih => ?_) h
  exact ⟨ih.1.step (ih.2.step_update hl w hstep), ih.2.step hstep⟩

end Prog

def Code (ε L W α : Type) := Prog L W (Except ε α)

namespace Code

def bind (c : Code ε L W α) (k : α → Code ε L W β) : Code ε L W β :=
  Prog.bind c fun
    | .ok a => k a
    | .error e => .ret (.error e)

instance : Monad (Code ε L W) where
  pure a := Prog.ret (.ok a)
  bind := bind

instance : MonadLift (Except ε) (Code ε L W) where
  monadLift x := Prog.ret x

def load (l : L) : Code ε L W W := Prog.read l fun w => .ret (.ok w)

def store (l : L) (w : W) : Code ε L W Unit := Prog.write l w (.ret (.ok ()))

variable [DecidableEq L] {view : σ → L → W} {S : L → Prop} {s s' : σ} {c : Code ε L W α}
  {k : α → Code ε L W β} {a : α} {m m' : L → W}

def run (c : Code ε L W α) (m : L → W) : Except ε α × (L → W) := Prog.run c m

/-- Every access of the run from `m` is to a cell in `S`. -/
def Within (S : L → Prop) (c : Code ε L W α) (m : L → W) : Prop := Prog.Within S c m

theorem run_bind_ok (h : c.run m = (.ok a, m')) : (c >>= k).run m = (k a).run m' := by
  have hbind : (c >>= k).run m = _ := Prog.run_bind c _ m
  rw [hbind]
  change ((match (c.run m).1 with
    | .ok a => k a
    | .error e => Prog.ret (.error e) : Prog L W (Except ε β))).run (c.run m).2 = _
  rw [h]
  rfl

theorem run_bind_error {e : ε} (h : (c.run m).1 = .error e) : ((c >>= k).run m).1 = .error e := by
  have hbind : (c >>= k).run m = _ := Prog.run_bind c _ m
  rw [hbind]
  change (((match (c.run m).1 with
    | .ok a => k a
    | .error e => Prog.ret (.error e) : Prog L W (Except ε β))).run (c.run m).2).1 = _
  rw [h]
  rfl

theorem Within.bind_ok (hc : c.Within S m) (h : c.run m = (.ok a, m')) (hk : (k a).Within S m') :
    (c >>= k).Within S m := by
  refine Prog.Within.bind hc ?_
  change Prog.Within S (match (c.run m).1 with
    | .ok a => k a
    | .error e => Prog.ret (.error e) : Prog L W (Except ε β)) (c.run m).2
  rw [h]
  exact hk

theorem Within.bind_error {e : ε} (hc : c.Within S m) (h : (c.run m).1 = .error e) :
    (c >>= k).Within S m := by
  refine Prog.Within.bind hc ?_
  change Prog.Within S (match (c.run m).1 with
    | .ok a => k a
    | .error e => Prog.ret (.error e) : Prog L W (Except ε β)) (c.run m).2
  rw [h]
  trivial

/-- On the memory of `s` the program accesses cells of `S` only, returns `a` and leaves the memory
of `s'`. -/
structure Ends (view : σ → L → W) (S : L → Prop) (c : Code ε L W α) (s : σ) (a : α) (s' : σ) :
    Prop where
  within : c.Within S (view s)
  run : c.run (view s) = (.ok a, view s')

theorem Ends.pure (a : α) : Ends view S (Pure.pure a : Code ε L W α) s a s := ⟨trivial, rfl⟩

theorem Ends.lift {x : Except ε α} (hx : x = .ok a) :
    Ends view S (liftM x : Code ε L W α) s a s := by
  subst hx
  exact .pure a

theorem Ends.load {l : L} (hl : S l) : Ends view S (Code.load l : Code ε L W W) s (view s l) s :=
  ⟨⟨hl, trivial⟩, rfl⟩

theorem Ends.store {l : L} {w : W} (hl : S l) (hs : view s' = Function.update (view s) l w) :
    Ends view S (Code.store l w : Code ε L W Unit) s () s' := by
  refine ⟨⟨hl, trivial⟩, ?_⟩
  rw [hs]
  rfl

theorem Ends.bind {s'' : σ} {b : β} (hc : Ends view S c s a s') (hk : Ends view S (k a) s' b s'') :
    Ends view S (c >>= k) s b s'' :=
  ⟨hc.within.bind_ok hc.run hk.within, (run_bind_ok hc.run).trans hk.run⟩

/-- The program does on the memory of `s` what the plain computation `x` does: they fail alike, or
both go through and `Q` relates the two results and what the memory stands for then. -/
structure Sim (view : σ → L → W) (S : L → Prop) (c : Code ε L W α) (s : σ) (x : Except ε β)
    (Q : β → α → σ → Prop) : Prop where
  within : c.Within S (view s)
  ok : ∀ b, x = .ok b → ∃ a s', c.run (view s) = (.ok a, view s') ∧ Q b a s'
  error : ∀ e, x = .error e → (c.run (view s)).1 = .error e

namespace Sim
variable {x : Except ε γ} {g : γ → Except ε δ} {Q Q' : γ → α → σ → Prop} {Q₁ : δ → β → σ → Prop}

theorem mono (h : Sim view S c s x Q) (himp : ∀ b a s', Q b a s' → Q' b a s') :
    Sim view S c s x Q' where
  within := h.within
  ok b hb := by
    obtain ⟨a, s', hrun, hQ⟩ := h.ok b hb
    exact ⟨a, s', hrun, himp b a s' hQ⟩
  error := h.error

theorem of_ends {b : γ} (h : Ends view S c s a s') (hQ : Q b a s') :
    Sim view S c s (Except.ok b) Q where
  within := h.within
  ok b' hb' := by
    obtain rfl := Except.ok.inj hb'
    exact ⟨a, s', h.run, hQ⟩
  error e he := by cases he

theorem pure {b : γ} (hQ : Q b a s) :
    Sim view S (Pure.pure a) s (Pure.pure b : Except ε γ) Q := of_ends (Ends.pure a) hQ

theorem lift {Q : α → α → σ → Prop} (x : Except ε α) (hQ : ∀ a, x = .ok a → Q a a s) :
    Sim view S (liftM x : Code ε L W α) s x Q where
  within := trivial
  ok a ha := by
    subst ha
    exact ⟨a, s, rfl, hQ a rfl⟩
  error e he := by
    subst he
    rfl

/-- Two plain computations side by side, one of them within the program. -/
theorem related {x : Except ε α} {y : Except ε γ} {P : α → γ → Prop} (h : Related P x y) :
    Sim view S (liftM x : Code ε L W α) s y (fun b a s' => x = .ok a ∧ P a b ∧ s' = s) where
  within := trivial
  ok b hb := by
    subst hb
    cases x with
    | ok a => exact ⟨a, s, rfl, rfl, h, rfl⟩
    | error e => exact h.elim
  error e he := by
    subst he
    cases x with
    | ok a => exact h.elim
    | error e' => exact congrArg Except.error h

/-- A run that went through is one of the plain computation. -/
theorem sound {m' : L → W} (h : Sim view S c s x Q) (hrun : c.run (view s) = (.ok a, m')) :
    ∃ b s', x = .ok b ∧ m' = view s' ∧ Q b a s' := by
  cases x with
  | error e =>
    have herror := h.error e rfl
    rw [hrun] at herror
    cases herror
  | ok b =>
    obtain ⟨a', s', hrun', hQ⟩ := h.ok b rfl
    cases hrun.symm.trans hrun'
    exact ⟨b, s', rfl, rfl, hQ⟩

theorem fail (e : ε) :
    Sim view S (liftM (Except.error e : Except ε α) : Code ε L W α) s
      (.error e : Except ε γ) Q where
  within := trivial
  ok b hb := by cases hb
  error e' he' := by
    obtain rfl := Except.error.inj he'
    rfl

theorem bind (h : Sim view S c s x Q) (hk : ∀ b a s', Q b a s' → Sim view S (k a) s' (g b) Q₁) :
    Sim view S (c >>= k) s (x >>= g) Q₁ := by
  cases x with
  | error e =>
    have he := h.error e rfl
    refine ⟨h.within.bind_error he, fun b hb => (by cases hb), fun e' he' => ?_⟩
    obtain rfl := Except.error.inj he'
    exact run_bind_error he
  | ok b =>
    obtain ⟨a, s', ha, hQ⟩ := h.ok b rfl
    have hnext := hk b a s' hQ
    have hcomp := run_bind_ok (k := k) ha
    refine ⟨h.within.bind_ok ha hnext.within, fun b' hb' => ?_, fun e he => ?_⟩
    · rw [hcomp]
      exact hnext.ok b' hb'
    · rw [hcomp]
      exact hnext.error e he

theorem skip {x : Except ε δ} (hc : Ends view S c s a s') (hk : Sim view S (k a) s' x Q₁) :
    Sim view S (c >>= k) s x Q₁ := by
  have hcomp := run_bind_ok (k := k) hc.run
  refine ⟨hc.within.bind_ok hc.run hk.within, fun b hb => ?_, fun e he => ?_⟩
  · rw [hcomp]
    exact hk.ok b hb
  · rw [hcomp]
    exact hk.error e he

theorem foldlM {ι : Type} {I : γ → α → σ → Prop} {body : α → ι → Code ε L W α}
    {plain : γ → ι → Except ε γ}
    (hbody : ∀ b a s i, I b a s → Sim view S (body a i) s (plain b i) I) {b : γ}
    (hI : I b a s) (is : List ι) :
    Sim view S (is.foldlM body a) s (is.foldlM plain b) I := by
  induction is generalizing a b s with
  | nil => exact pure hI
  | cons i is ih =>
    rw [List.foldlM_cons, List.foldlM_cons]
    exact (hbody b a s i hI).bind fun b' a' s' hI' => ih hI'

end Sim
end Code
end XStore.Lib
