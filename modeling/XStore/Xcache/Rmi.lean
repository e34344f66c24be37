import XStore.Xcache.Trainer

/-! The two-layer index: the dispatcher, the choice of a submodel and the training of all of
them (dispatcher.hh, rmi_2.hh). -/
namespace XStore.Xcache
open XStore.Lib XStore.Xkv XStore.Xml
variable {N : ℕ} {K V M M₁ M₂ S SS : Type}

/-- Division and multiplication of doubles, with whatever rounding. -/
class DoubleArith where
  div : ℚ → ℚ → ℚ
  mul : ℚ → ℚ → ℚ

structure Dispatcher (M : Type) where
  model : M
  dispatchNum : ℕ
  upBound : ℕ
  deriving DecidableEq, Repr

def Dispatcher.new [MlTrait M K] (dn : ℕ) : Res (Dispatcher M) := do
  ensure (decide (dn > 0 ∧ dn < 4000000)) .dispatchNum
  pure { model := MlTrait.init, dispatchNum := dn, upBound := 0 }

def Dispatcher.predict [Usize] [DoubleArith] [MlTrait M K] (d : Dispatcher M) (key : K)
    (max : ℕ) : ℕ :=
  let res := MlTrait.predict d.model key
  let res := if res < 0 then 0 else res
  let res := if res ≥ max then
      (((d.dispatchNum + 2 ^ Usize.bits - 1) % 2 ^ Usize.bits : ℕ) : ℚ)
    else DoubleArith.mul (DoubleArith.div res max) d.dispatchNum
  -- a share of `dispatch_num`, so the conversion only drops its fraction
  (truncate res).toNat

namespace Dispatcher
variable [KeyType K] [MlTrait M K]

def trainLoop [SampleTrait S K] (kv : Store N K V) :
    ℕ → NodeIter N K → S → ℕ → TrainSet K → Res (ℕ × TrainSet K)
  | 0, _, _, _, _ => .error .outOfFuel
  | fuel + 1, it, s, count, t =>
    if it.hasNext then do
      let key ← it.curKey
      let (s, t) ← SampleTrait.addTo s key count t
      let it ← XTreeIter.next kv.mem it
      trainLoop kv fuel it s (count + 1) t
    else pure (count, t)

def train [SampleTrait S K] (fuel : ℕ) (d : Dispatcher M) (kv : Store N K V) (s : S) :
    Res (Dispatcher M × ℕ) := do
  let it ← XTreeIter.ofTree kv.mem kv.tree
  let (count, t) ← trainLoop kv fuel it s 0 .empty
  let d := { d with upBound := count % 2 ^ 32 }
  pure ({ d with model := MlTrait.train d.model t.set t.label }, t.set.length)

def defaultTrain (fuel : ℕ) (d : Dispatcher M) (kv : Store N K V) : Res (Dispatcher M × ℕ) :=
  d.train fuel kv ({} : DefaultSample K)

end Dispatcher

structure LocalTwoRMI (M₁ M₂ : Type) where
  firstLayer : Dispatcher M₁
  secondLayer : List (XSubModel M₂)
  deriving DecidableEq, Repr

namespace LocalTwoRMI
variable [Usize] [DoubleArith] [MlTrait M₁ K] [MlTrait M₂ K]

def selectSecModel (rmi : LocalTwoRMI M₁ M₂) (k : K) : ℕ :=
  let res := rmi.firstLayer.predict k rmi.firstLayer.upBound
  if res ≥ rmi.secondLayer.length then rmi.secondLayer.length - 1 else res

def getPredictRange (rmi : LocalTwoRMI M₁ M₂) (k : K) : Res (ℤ × ℤ) := do
  let model ← need rmi.secondLayer[rmi.selectSecModel k]? .outOfRange
  pure (model.getPredictRange k)

variable [KeyType K]

def defaultTrainFirst (fuel : ℕ) (rmi : LocalTwoRMI M₁ M₂) (kv : Store N K V) :
    Res (LocalTwoRMI M₁ M₂ × ℕ) := do
  let (firstLayer, n) ← rmi.firstLayer.defaultTrain fuel kv
  pure ({ rmi with firstLayer := firstLayer }, n)

def dispatchLoop (rmi : LocalTwoRMI M₁ M₂) (kv : Store N K V) :
    ℕ → NodeIter N K → List (XMLTrainer K) → Res (List (XMLTrainer K))
  | 0, _, _ => .error .outOfFuel
  | fuel + 1, it, trainers =>
    if it.hasNext then do
      let key ← it.curKey
      let model := rmi.selectSecModel key
      ensure (decide (model < trainers.length)) .validModel
      let it ← XTreeIter.next kv.mem it
      dispatchLoop rmi kv fuel it (trainers.modify model (fun t => t.updateKey key))
    else pure trainers

def dispatchKeysToTrainers (fuel : ℕ) (rmi : LocalTwoRMI M₁ M₂) (kv : Store N K V) :
    Res (List (XMLTrainer K)) := do
  let it ← XTreeIter.ofTree kv.mem kv.tree
  rmi.dispatchLoop kv fuel it (List.replicate rmi.secondLayer.length .new)

end LocalTwoRMI

/-- One submodel and its table: the trainer runs over the tree with an empty table. -/
def trainSub [Usize] [KeyType K] [StdSort] [SampleTrait S K] [SampleTrait SS K] [MlTrait M K]
    (fuel : ℕ) (kv : Store N K V) (s : S) (ss : SS) (f : UpdateFunc) (t : XMLTrainer K) :
    Res (XSubModel M × TT) := do
  let it ← XCacheTreeIter.fromTT kv.mem kv.tree .empty
  let (model, it, _) ← t.trainWItWShrink fuel it kv s ss f
  let tt ← need it.tt .nullDeref
  pure (model, tt)

end XStore.Xcache
