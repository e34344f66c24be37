import Mathlib.Logic.Basic

/-! Two computations that may fail, run side by side: they fail alike, or both go through and
their results are related. -/
namespace XStore.Lib
variable {ε α β γ δ : Type}

def Related (R : α → β → Prop) : Except ε α → Except ε β → Prop
  | .ok a, .ok b => R a b
  | .error e, .error e' => e = e'
  | _, _ => False

namespace Related
variable {R R' : α → β → Prop} {S : γ → δ → Prop} {x : Except ε α} {y : Except ε β}

theorem pure {a : α} {b : β} (h : R a b) : Related R (Pure.pure a : Except ε α) (Pure.pure b) := h

theorem ok {a : α} {b : β} (h : R a b) : Related R (.ok a : Except ε α) (.ok b) := h

theorem error (e : ε) : Related R (.error e) (.error e) := rfl

theorem refl (x : Except ε α) : Related (fun a b => a = b) x x := by
  cases x with
  | ok a => exact rfl
  | error e => exact rfl

theorem mono (h : Related R x y) (himp : ∀ a b, R a b → R' a b) : Related R' x y := by
  cases x with
  | ok a =>
    cases y with
    | ok b => exact himp a b h
    | error e => exact h
  | error e =>
    cases y with
    | ok b => exact h
    | error e' => exact h

theorem bind {f : α → Except ε γ} {g : β → Except ε δ} (h : Related R x y)
    (hfg : ∀ a b, R a b → Related S (f a) (g b)) : Related S (x >>= f) (y >>= g) := by
  cases x with
  | ok a =>
    cases y with
    | ok b => exact hfg a b h
    | error e => exact h.elim
  | error e =>
    cases y with
    | ok b => exact h.elim
    | error e' => exact h

theorem bind_same {x : Except ε α} {f : α → Except ε γ} {g : α → Except ε δ}
    (hfg : ∀ a, Related S (f a) (g a)) : Related S (x >>= f) (x >>= g) :=
  (refl x).bind (fun a _ hab => hab ▸ hfg a)

theorem foldlM {f : α → γ → Except ε α} {g : β → γ → Except ε β}
    (hstep : ∀ a b c, R a b → Related R (f a c) (g b c)) {a : α} {b : β} (h : R a b)
    (cs : List γ) : Related R (cs.foldlM f a) (cs.foldlM g b) := by
  induction cs generalizing a b with
  | nil => exact h
  | cons c cs ih =>
    rw [List.foldlM_cons, List.foldlM_cons]
    exact (hstep a b c h).bind (fun a' b' h' => ih h')

theorem exists_ok {a : α} (h : Related R x y) (hx : x = .ok a) : ∃ b, y = .ok b ∧ R a b := by
  subst hx
  cases y with
  | ok b => exact ⟨b, rfl, h⟩
  | error e => exact h.elim

end Related
end XStore.Lib
