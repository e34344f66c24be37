import XStore.Base
import Mathlib.Data.Rat.Defs

/-! The second-layer model with its error bounds (ml_trait.hh, xmodel.hh). -/
namespace XStore.Xml
variable {M K : Type}

/-- A machine learning model. A double is a rational here. -/
class MlTrait (M : Type) (K : outParam Type) where
  init : M
  train : M → List K → List ℕ → M
  predict : M → K → ℚ

def truncate (x : ℚ) : ℤ := x.num.tdiv x.den

/-- A double converted to an int. The language has no value for one outside the range; the
instruction that compilers use for the conversion then gives the smallest int. -/
def doubleToInt (x : ℚ) : ℤ :=
  if -2 ^ 31 ≤ truncate x ∧ truncate x < 2 ^ 31 then truncate x else -2 ^ 31

abbrev UpdateFunc := ℕ → ℕ → ℤ → ℤ → ℤ × ℤ

def defaultUpdateFunc : UpdateFunc := fun label predict curMin curMax =>
  let newMin := min curMin (toInt64 (toInt64 label - toInt64 predict))
  let newMax := max curMax (toInt64 (toInt64 label - toInt64 predict))
  (toInt32 newMin, toInt32 newMax)

structure XSubModel (M : Type) where
  ml : M
  errMin : ℤ
  errMax : ℤ
  max : ℤ
  deriving DecidableEq, Repr

namespace XSubModel
variable [MlTrait M K]

def new : XSubModel M where
  ml := MlTrait.init
  errMin := 0
  errMax := 0
  max := 0

def getPointPredict (s : XSubModel M) (k : K) : ℤ :=
  -- `std::min<int>` converts before it clamps
  let res := min (doubleToInt (MlTrait.predict s.ml k)) (toInt32 (s.max - 1))
  Max.max res 0

def getPredictRange (s : XSubModel M) (k : K) : ℤ × ℤ :=
  let p := s.getPointPredict k
  (Max.max 0 (toInt32 (p + s.errMin)), min s.max (toInt32 (p + s.errMax)))

def trainMl (s : XSubModel M) (trainData : List K) (trainLabel : List ℕ) : Res (XSubModel M) := do
  ensure (trainData.length == trainLabel.length) .sameSize
  let s := { s with ml := MlTrait.train s.ml trainData trainLabel }
  match trainLabel.getLast? with
  | some l => pure { s with max := toInt32 l }
  | none => pure s

def calError (s : XSubModel M) (trainData : List K) (trainLabel : List ℕ) (f : UpdateFunc) :
    XSubModel M :=
  (trainData.zip trainLabel).foldl (fun s kl =>
    let res := f kl.2 ((s.getPointPredict kl.1) % 2 ^ 64).toNat s.errMin s.errMax
    { s with errMin := res.1, errMax := res.2 }) s

end XSubModel
end XStore.Xml
