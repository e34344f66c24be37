import XStore.Base
import XStore.Lib.RowMajor
import Mathlib.Algebra.BigOperators.Ring.Finset

/-! Matrices in a buffer and their two products (nn/mat.hh). The BLAS routine is a parameter. -/
namespace XStore.Xml
variable {α : Type}

/-- A matrix in row-major order, in a buffer of its size. -/
@[ext] structure Mat (α : Type) where
  ptr : List α
  nrow : ℕ
  ncol : ℕ
  size : ptr.length = nrow * ncol

inductive CblasLayout where
  | rowMajor | colMajor
  deriving DecidableEq, Repr

inductive CblasTranspose where
  | noTrans | trans
  deriving DecidableEq, Repr

/-- `cblas_dgemm`: the layout, the transpositions of both factors, the sizes `m`, `n`, `k`,
`alpha`, `a`, `lda`, `b`, `ldb`, `beta`, `c` and `ldc`. It works in the buffer of `c`. -/
structure Dgemm (α : Type) where
  run : CblasLayout → CblasTranspose → CblasTranspose → ℕ → ℕ → ℕ → α → List α → ℕ →
    List α → ℕ → α → List α → ℕ → List α
  length_run : ∀ layout ta tb m n k alpha a lda b ldb beta c ldc,
    (run layout ta tb m n k alpha a lda b ldb beta c ldc).length = c.length

namespace Mat
variable [CommSemiring α]

def at? (a : Mat α) (r c : ℕ) : Option α := a.ptr[r * a.ncol + c]?

def addAt (a : Mat α) (r c : ℕ) (x : α) : Res (Mat α) := do
  let y ← need (a.at? r c) .outOfRange
  pure { a with
    ptr := a.ptr.set (r * a.ncol + c) (y + x)
    size := by rw [List.length_set, a.size] }

def dot (a b : Mat α) (r col : ℕ) : Res α :=
  (List.range a.ncol).foldlM (fun temp i => do
    let x ← need (a.at? r i) .outOfRange
    let y ← need (b.at? i col) .outOfRange
    pure (temp + x * y)) 0

def manMult (a b c : Mat α) : Res (Mat α) := do
  ensure (a.ncol == b.nrow) .shapesMatch
  ensure (a.nrow == c.nrow) .shapesMatch
  ensure (c.ncol == b.ncol) .shapesMatch
  (List.range c.nrow).foldlM (fun c r => (List.range c.ncol).foldlM (fun c col => do
    let temp ← a.dot b r col
    c.addAt r col temp) c) c

def mult (dgemm : Dgemm α) (a b c : Mat α) : Res (Mat α) := do
  ensure (a.ncol == b.nrow) .shapesMatch
  ensure (a.nrow == c.nrow) .shapesMatch
  ensure (c.ncol == b.ncol) .shapesMatch
  pure { c with
    ptr := dgemm.run .colMajor .noTrans .noTrans a.nrow b.ncol a.ncol 1 a.ptr a.nrow b.ptr b.nrow
      1 c.ptr c.nrow
    size := by rw [dgemm.length_run, c.size] }

end Mat

def position (layout : CblasLayout) (ld i j : ℕ) : ℕ :=
  match layout with
  | .rowMajor => i * ld + j
  | .colMajor => i + j * ld

def operand (layout : CblasLayout) (t : CblasTranspose) (ld i j : ℕ) : ℕ :=
  match t with
  | .noTrans => position layout ld i j
  | .trans => position layout ld j i

/-- The least leading dimension that is allowed for a factor of `rows` rows and `cols` columns. -/
def leastLd (layout : CblasLayout) (t : CblasTranspose) (rows cols : ℕ) : ℕ :=
  match layout, t with
  | .rowMajor, .noTrans => max 1 cols
  | .rowMajor, .trans => max 1 rows
  | .colMajor, .noTrans => max 1 rows
  | .colMajor, .trans => max 1 cols

def LegalLds (layout : CblasLayout) (ta tb : CblasTranspose) (m n k lda ldb ldc : ℕ) : Prop :=
  leastLd layout ta m k ≤ lda ∧ leastLd layout tb k n ≤ ldb ∧ leastLd layout .noTrans m n ≤ ldc

instance (layout : CblasLayout) (ta tb : CblasTranspose) (m n k lda ldb ldc : ℕ) :
    Decidable (LegalLds layout ta tb m n k lda ldb ldc) :=
  inferInstanceAs (Decidable (_ ∧ _ ∧ _))

/-- The standard routine, on exact numbers: the result is `alpha` times the product plus `beta`
times what was there. With a leading dimension that is too small it leaves `c` as it is. -/
structure Dgemm.Standard [CommSemiring α] (dgemm : Dgemm α) : Prop where
  compute : ∀ layout ta tb m n k alpha a lda b ldb beta old ldc,
    LegalLds layout ta tb m n k lda ldb ldc →
    (∀ i < m, ∀ l < k, operand layout ta lda i l < a.length) →
    (∀ l < k, ∀ j < n, operand layout tb ldb l j < b.length) →
    ∀ i < m, ∀ j < n, ∀ x, old[position layout ldc i j]? = some x →
      (dgemm.run layout ta tb m n k alpha a lda b ldb beta old ldc)[position layout ldc i j]? =
        some (alpha * ∑ l ∈ Finset.range k, a.getD (operand layout ta lda i l) 0 *
          b.getD (operand layout tb ldb l j) 0 + beta * x)
  refuse : ∀ layout ta tb m n k alpha a lda b ldb beta c ldc,
    ¬ LegalLds layout ta tb m n k lda ldb ldc →
    dgemm.run layout ta tb m n k alpha a lda b ldb beta c ldc = c

end XStore.Xml
