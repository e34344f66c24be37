import XStore.Xcache.CacheIter

/-! The samplers (sample_trait.hh, step_sampler.hh, page_sampler.hh). -/
namespace XStore.Xcache
open XStore.Xkv
variable {N : ℕ} {K : Type}

structure TrainSet (K : Type) where
  set : List K
  label : List ℕ
  deriving DecidableEq, Repr

namespace TrainSet

def empty : TrainSet K where
  set := []
  label := []

def push (t : TrainSet K) (k : K) (l : ℕ) : TrainSet K where
  set := t.set ++ [k]
  label := t.label ++ [l]

end TrainSet

class SampleTrait (S : Type) (K : outParam Type) where
  addTo : S → K → ℕ → TrainSet K → Res (S × TrainSet K)
  finalize : S → TrainSet K → Res (TrainSet K)

def addAll {S : Type} [SampleTrait S K] (xs : List (K × ℕ)) (s : S) (t : TrainSet K) :
    Res (S × TrainSet K) :=
  xs.foldlM (fun st kl => SampleTrait.addTo st.1 kl.1 kl.2 st.2) (s, t)

section AddAll
variable {S : Type} [SampleTrait S K] (x : K × ℕ) (xs ys : List (K × ℕ)) (s : S) (t : TrainSet K)

@[simp] theorem addAll_nil : addAll [] s t = .ok (s, t) := rfl

theorem addAll_cons : addAll (x :: xs) s t =
    (SampleTrait.addTo s x.1 x.2 t >>= fun st => addAll xs st.1 st.2) := by
  simp only [addAll, List.foldlM_cons]

variable {x s t} in
theorem addAll_cons_ok {s₁ : S} {t₁ : TrainSet K}
    (h : SampleTrait.addTo s x.1 x.2 t = .ok (s₁, t₁)) :
    addAll (x :: xs) s t = addAll xs s₁ t₁ := by
  rw [addAll_cons, h, ok_bind]

theorem addAll_append :
    addAll (xs ++ ys) s t = (addAll xs s t >>= fun st => addAll ys st.1 st.2) := by
  simp only [addAll, List.foldlM_append]

end AddAll

/-- Every pair. -/
structure DefaultSample (K : Type) where
  deriving DecidableEq, Repr

instance : SampleTrait (DefaultSample K) K where
  addTo s k l t := .ok (s, t.push k l)
  finalize _ t := .ok t

/-- Every `step`-th pair, from the first on. -/
structure StepSampler (K : Type) where
  step : ℕ
  curCount : ℕ
  deriving DecidableEq, Repr

def StepSampler.new (step : ℕ) : StepSampler K where
  step := step
  curCount := 0

instance : SampleTrait (StepSampler K) K where
  addTo s k l t :=
    let t := if s.curCount = 0 then t.push k l else t
    let curCount := s.curCount + 1
    .ok ({ s with curCount := if curCount = s.step then 0 else curCount }, t)
  finalize _ t := .ok t

/-- The first and the last pair of every page. -/
structure PageSampler (N : ℕ) (K : Type) where
  minKeyInPage : Option K
  minKeyLabel : Option ℕ
  maxKeyInPage : Option K
  maxKeyLabel : Option ℕ
  deriving DecidableEq, Repr

namespace PageSampler

def new : PageSampler N K where
  minKeyInPage := none
  minKeyLabel := none
  maxKeyInPage := none
  maxKeyLabel := none

def addCur (s : PageSampler N K) (t : TrainSet K) : Res (TrainSet K) := do
  let t ← match s.minKeyInPage with
    | some k => do
      let l ← need s.minKeyLabel .emptyOption
      pure (t.push k l)
    | none => pure t
  match s.maxKeyInPage with
  | some k => do
    let maxLabel ← need s.maxKeyLabel .emptyOption
    let minLabel ← need s.minKeyLabel .emptyOption
    ensure (LogicAddr.decodeLogicId N maxLabel == LogicAddr.decodeLogicId N minLabel) .samePage
    if LogicAddr.decodeOff N minLabel ≠ LogicAddr.decodeOff N maxLabel then
      pure (t.push k maxLabel)
    else pure t
  | none => pure t

variable [KeyType K]

def addTo (s : PageSampler N K) (k : K) (l : ℕ) (t : TrainSet K) :
    Res (PageSampler N K × TrainSet K) :=
  match s.minKeyInPage with
  | none => pure ({ s with minKeyInPage := some k, minKeyLabel := some l }, t)
  | some minKey => do
    let minLabel ← need s.minKeyLabel .emptyOption
    if LogicAddr.decodeLogicId N l ≠ LogicAddr.decodeLogicId N minLabel then
      let t ← s.addCur t
      pure ({ minKeyInPage := some k, minKeyLabel := some l
              maxKeyInPage := none, maxKeyLabel := none }, t)
    else
      let larger := match s.maxKeyInPage with
        | none => true
        | some maxKey => KeyType.gt k maxKey
      let s := if larger then { s with maxKeyInPage := some k, maxKeyLabel := some l } else s
      let s := if KeyType.gt minKey k then { s with minKeyInPage := some k, minKeyLabel := some l }
        else s
      pure (s, t)

end PageSampler

instance [KeyType K] : SampleTrait (PageSampler N K) K where
  addTo := PageSampler.addTo
  finalize s t := s.addCur t

end XStore.Xcache
