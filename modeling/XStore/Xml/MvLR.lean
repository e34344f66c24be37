import XStore.Base
import Mathlib.Data.Rat.Defs

/-! The training of a linear model with several features (mv_lr.hh). A double is a rational
here, and the solver is a parameter. -/
namespace XStore.Xml
variable {K : Type}

class ToFeature (K : Type) where
  toFeature : K → List ℚ

/-- `LAPACKE_dgels` for a row-major matrix, not transposed, and one right-hand side: from the
sizes, the matrix and `b` to the result and what it leaves in `b`. -/
abbrev Dgels := ℕ → ℕ → List ℚ → List ℚ → ℤ × List ℚ

/-- The columns of the matrix: the selected features and, behind them, the bias. -/
structure Columns where
  usefulFeatureIdxs : List ℕ
  useBias : Bool
  deriving DecidableEq, Repr

namespace Columns

def count (c : Columns) : ℕ := c.usefulFeatureIdxs.length + if c.useBias then 1 else 0

def drop (c : Columns) (fittingRes : ℤ) : Columns :=
  if fittingRes ≥ c.usefulFeatureIdxs.length then { c with useBias := false }
  else { c with usefulFeatureIdxs := c.usefulFeatureIdxs.eraseIdx (fittingRes - 1).toNat }

def fillRow (D : ℕ) (c : Columns) (feature : List ℚ) : Res (List ℚ) := do
  ensure (feature.length == D) .featureSize
  let xs ← c.usefulFeatureIdxs.mapM (fun i => need feature[i]? .outOfRange)
  pure (xs ++ if c.useBias then [1] else [])

end Columns

structure MvLR where
  wVec : List ℚ
  deriving DecidableEq, Repr

namespace MvLR

/-- All weights that have no column are 0. -/
def resetW (D : ℕ) (c : Columns) (b : List ℚ) : Res (List ℚ) := do
  let w ← c.usefulFeatureIdxs.zipIdx.foldlM (fun w fi => do
    ensure (decide (fi.1 < D)) .featureIdx
    let x ← need b[fi.2]? .outOfRange
    pure (w.set fi.1 x)) (List.replicate (D + 1) 0)
  if c.useBias then do
    let x ← need b[c.usefulFeatureIdxs.length]? .outOfRange
    pure (w.set D x)
  else pure w

/-- What follows the call of the solver: it returns `fittingRes` and leaves `b`. -/
def settle (D : ℕ) (c : Columns) (fittingRes : ℤ) (b : List ℚ) :
    Res (ℤ × Columns × List ℚ) := do
  let c := if fittingRes > 0 then c.drop fittingRes else c
  ensure (!(decide (fittingRes > 0) && c.usefulFeatureIdxs.length == 0 && !c.useBias)) .featureLeft
  ensure (!decide (fittingRes < 0)) .solverInfo
  let w ← resetW D c b
  pure (fittingRes, c, w)

variable [ToFeature K] (dgels : Dgels) (D : ℕ) (trainData : List K) (trainLabel : List ℕ)

/-- The body of the loop: the solver's result, the columns that are left and the weights. -/
def trainRound (c : Columns) : Res (ℤ × Columns × List ℚ) := do
  let m := trainData.length
  let n := c.count
  let filled ← trainData.zipIdx.mapM (fun ki => do
    let row ← c.fillRow D (ToFeature.toFeature ki.1)
    let label : ℕ ← need trainLabel[ki.2]? .outOfRange
    pure (row, (label : ℚ)))
  let a := (filled.map Prod.fst).flatten
  let b := filled.map Prod.snd ++ List.replicate (n - m) 0
  let res := dgels m n a b
  settle D c res.1 res.2

def trainLoop : ℕ → Columns → Res (List ℚ)
  | 0, _ => .error .outOfFuel
  | fuel + 1, c => do
    let (fittingRes, c, w) ← trainRound dgels D trainData trainLabel c
    if fittingRes ≠ 0 then trainLoop fuel c else pure w

def initColumns : Columns where
  usefulFeatureIdxs := List.range D
  useBias := true

def train (fuel : ℕ) : Res MvLR := do
  let w ← trainLoop dgels D trainData trainLabel fuel (initColumns D)
  pure { wVec := w }

end MvLR
end XStore.Xml
