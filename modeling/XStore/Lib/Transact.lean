import Mathlib.Logic.Function.Basic
import Mathlib.Logic.Relation

/-! Programs of reads and writes: on the memory itself, and in a transaction, which notes what it
reads and keeps what it writes to itself until it commits. -/
namespace XStore.Lib
variable {L W R : Type}

inductive Prog (L W R : Type) where
  | ret (r : R)
  | read (l : L) (next : W → Prog L W R)
  | write (l : L) (w : W) (next : Prog L W R)

namespace Prog

def Touches (l : L) : Prog L W R → Prop
  | .ret _ => False
  | .read l' next => l' = l ∨ ∃ w, (next w).Touches l
  | .write l' _ next => l' = l ∨ next.Touches l

variable [DecidableEq L]

def run : Prog L W R → (L → W) → R × (L → W)
  | .ret r, m => (r, m)
  | .read l next, m => (next (m l)).run m
  | .write l w next, m => next.run (Function.update m l w)

def step : Prog L W R → (L → W) → Option (Prog L W R × (L → W))
  | .ret _, _ => none
  | .read l next, m => some (next (m l), m)
  | .write l w next, m => some (next, Function.update m l w)

variable {p q : Prog L W R} {m m' m'' : L → W}

theorem run_step (h : p.step m = some (q, m')) : p.run m = q.run m' := by
  cases p with
  | ret r => cases h
  | read l next =>
    obtain ⟨rfl, rfl⟩ := Prod.mk.inj (Option.some.inj h)
    rfl
  | write l w next =>
    obtain ⟨rfl, rfl⟩ := Prod.mk.inj (Option.some.inj h)
    rfl

theorem touches_step (h : p.step m = some (q, m')) {l : L} (hq : q.Touches l) : p.Touches l := by
  cases p with
  | ret r => cases h
  | read l' next =>
    obtain ⟨rfl, rfl⟩ := Prod.mk.inj (Option.some.inj h)
    exact Or.inr ⟨_, hq⟩
  | write l' w next =>
    obtain ⟨rfl, rfl⟩ := Prod.mk.inj (Option.some.inj h)
    exact Or.inr hq

theorem step_update {l : L} (hl : ¬ p.Touches l) (w : W) (h : p.step m = some (q, m')) :
    p.step (Function.update m l w) = some (q, Function.update m' l w) := by
  cases p with
  | ret r => cases h
  | read l' next =>
    have hne : l' ≠ l := fun heq => hl (Or.inl heq)
    obtain ⟨rfl, rfl⟩ := Prod.mk.inj (Option.some.inj h)
    rw [step, Function.update_of_ne hne]
  | write l' w' next =>
    have hne : l' ≠ l := fun heq => hl (Or.inl heq)
    obtain ⟨rfl, rfl⟩ := Prod.mk.inj (Option.some.inj h)
    rw [step, Function.update_comm hne.symm]

/-- The program has come from `p` on `m` to `q` on `m'`. -/
def Reaches (p : Prog L W R) (m : L → W) (q : Prog L W R) (m' : L → W) : Prop :=
  Relation.ReflTransGen (fun x y => x.1.step x.2 = some y) (p, m) (q, m')

theorem Reaches.refl (p : Prog L W R) (m : L → W) : p.Reaches m p m := Relation.ReflTransGen.refl

theorem Reaches.step {q' : Prog L W R} (h : p.Reaches m q m') (hstep : q.step m' = some (q', m'')) :
    p.Reaches m q' m'' := Relation.ReflTransGen.tail h hstep

/-- What is left of the program completes what it has begun. -/
theorem Reaches.run (h : p.Reaches m q m') : p.run m = q.run m' := by
  refine Relation.ReflTransGen.head_induction_on (motive := fun x _ => x.1.run x.2 = q.run m') h
    rfl fun hstep _ ih => ?_
  exact (run_step hstep).trans ih

/-- A store to a cell that the program never accesses can as well come before it. -/
theorem Reaches.update {l : L} (h : p.Reaches m q m') (hl : ¬ p.Touches l) (w : W) :
    p.Reaches (Function.update m l w) q (Function.update m' l w) ∧ ¬ q.Touches l := by
  refine Relation.ReflTransGen.rec (motive := fun y _ =>
    p.Reaches (Function.update m l w) y.1 (Function.update y.2 l w) ∧ ¬ y.1.Touches l)
    ⟨.refl p _, hl⟩ (fun _ hstep ih => ?_) h
  exact ⟨ih.1.step (step_update ih.2 w hstep), fun hq => ih.2 (touches_step hstep hq)⟩

def Always (I : (L → W) → Prop) : Prog L W R → (L → W) → Prop
  | .ret _, m => I m
  | .read l next, m => I m ∧ (next (m l)).Always I m
  | .write l w next, m => I m ∧ next.Always I (Function.update m l w)

theorem Always.head {I : (L → W) → Prop} (h : p.Always I m) : I m := by
  cases p with
  | ret r => exact h
  | read l next => exact h.1
  | write l w next => exact h.1

theorem Always.step {I : (L → W) → Prop} (h : p.Always I m) (hstep : p.step m = some (q, m')) :
    q.Always I m' := by
  cases p with
  | ret r => cases hstep
  | read l next =>
    obtain ⟨rfl, rfl⟩ := Prod.mk.inj (Option.some.inj hstep)
    exact h.2
  | write l w next =>
    obtain ⟨rfl, rfl⟩ := Prod.mk.inj (Option.some.inj hstep)
    exact h.2

theorem Always.reaches {I : (L → W) → Prop} (h : p.Always I m) (hreach : p.Reaches m q m') :
    q.Always I m' := by
  refine Relation.ReflTransGen.rec (motive := fun y _ => y.1.Always I y.2) h
    (fun _ hstep ih => ?_) hreach
  exact ih.step hstep

end Prog

/-- What a transaction has read from the memory, and what it has written. -/
structure TxLog (L W : Type) where
  reads : List (L × W)
  writes : L → Option W

namespace TxLog

def empty : TxLog L W where
  reads := []
  writes _ := none

def apply (t : TxLog L W) (m : L → W) : L → W := fun l => (t.writes l).getD (m l)

/-- Everything that the transaction has read is still there. -/
def Valid (t : TxLog L W) (m : L → W) : Prop := ∀ x ∈ t.reads, m x.1 = x.2

variable [DecidableEq L]

/-- One access within a transaction; a cell that it has written is read back from its writes. -/
def step (t : TxLog L W) (m : L → W) : Prog L W R → Option (TxLog L W × Prog L W R)
  | .ret _ => none
  | .read l next =>
    match t.writes l with
    | some w => some (t, next w)
    | none => some ({ t with reads := (l, m l) :: t.reads }, next (m l))
  | .write l w next => some ({ t with writes := Function.update t.writes l (some w) }, next)

/-- The transaction of `p` has come to `q`: on every memory in which what it read is still there,
the rest does to the memory with its writes what the whole program does. -/
def Follows (t : TxLog L W) (p q : Prog L W R) : Prop :=
  ∀ m, t.Valid m → p.run m = q.run (t.apply m)

variable {t t' : TxLog L W} {p q q' : Prog L W R} {m : L → W}

omit [DecidableEq L] in
@[simp] theorem apply_empty (m : L → W) : (empty : TxLog L W).apply m = m := rfl

theorem Follows.start (p : Prog L W R) : Follows .empty p p := fun _ _ => rfl

theorem apply_write (l : L) (w : W) : ({ t with writes := Function.update t.writes l (some w) } :
    TxLog L W).apply m = Function.update (t.apply m) l w := by
  funext l'
  by_cases h : l' = l
  · subst h
    simp [apply]
  · simp [apply, h]

theorem Follows.step (h : Follows t p q) (hstep : t.step m q = some (t', q')) :
    Follows t' p q' := by
  cases q with
  | ret r => cases hstep
  | read l next =>
    simp only [TxLog.step] at hstep
    cases hw : t.writes l with
    | some w =>
      rw [hw] at hstep
      obtain ⟨rfl, rfl⟩ := Prod.mk.inj (Option.some.inj hstep)
      intro m₁ hvalid
      rw [h m₁ hvalid, Prog.run, apply, hw]
      rfl
    | none =>
      rw [hw] at hstep
      obtain ⟨rfl, rfl⟩ := Prod.mk.inj (Option.some.inj hstep)
      intro m₁ hvalid
      have hread : t.apply m₁ l = m l := by
        rw [apply, hw]
        exact hvalid (l, m l) List.mem_cons_self
      rw [h m₁ (fun x hx => hvalid x (List.mem_cons_of_mem _ hx)), Prog.run, hread]
      rfl
  | write l w next =>
    obtain ⟨rfl, rfl⟩ := Prod.mk.inj (Option.some.inj hstep)
    intro m₁ hvalid
    rw [h m₁ hvalid, Prog.run, apply_write]

/-- A transaction that commits has done what its program does at this moment. -/
theorem Follows.commit {r : R} (h : Follows t p (.ret r)) (hvalid : t.Valid m) :
    p.run m = (r, t.apply m) := h m hvalid

end TxLog

/-- What a record of effects did, one after the other, to the memory. -/
def Replays {E M : Type} (act : E → M → M → Prop) : List E → M → M → Prop
  | [], m, m' => m = m'
  | e :: es, m, m' => ∃ m₁, act e m m₁ ∧ Replays act es m₁ m'

section Replay
variable {E M : Type} {act : E → M → M → Prop} {es : List E} {e : E} {m m' m'' : M}

theorem Replays.snoc (h : Replays act es m m') (he : act e m' m'') :
    Replays act (es ++ [e]) m m'' := by
  induction es generalizing m with
  | nil =>
    obtain rfl := h
    exact ⟨m'', he, rfl⟩
  | cons d es ih =>
    obtain ⟨m₁, hd, hrest⟩ := h
    exact ⟨m₁, hd, ih hrest⟩

/-- What every effect of the record keeps holds in the end. -/
theorem Replays.keeps {I : M → Prop} (h : Replays act es m m')
    (hkeep : ∀ e ∈ es, ∀ m m', act e m m' → I m → I m') (hm : I m) : I m' := by
  induction es generalizing m with
  | nil =>
    obtain rfl := h
    exact hm
  | cons d es ih =>
    obtain ⟨m₁, hd, hrest⟩ := h
    exact ih hrest (fun e he => hkeep e (List.mem_cons_of_mem d he))
      (hkeep d List.mem_cons_self m m₁ hd hm)

end Replay

/-- The results of operations on an object, one after the other, and the object after them. -/
def sequential {A I B : Type} (next : A → I → B × A) : List I → A → List B × A
  | [], a => ([], a)
  | i :: is, a =>
    let (b, a) := next a i
    let (bs, a) := sequential next is a
    (b :: bs, a)

theorem sequential_length {A I B : Type} (next : A → I → B × A) (is : List I) (a : A) :
    (sequential next is a).1.length = is.length := by
  induction is generalizing a with
  | nil => rfl
  | cons i is ih => simp only [sequential, List.length_cons, ih]

end XStore.Lib
