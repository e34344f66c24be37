import Mathlib.Algebra.Group.Int.Defs
import Mathlib.Algebra.GroupWithZero.Nat
import Mathlib.Data.Int.Notation
import Mathlib.Data.List.Forall2
import Mathlib.Order.BoundedOrder.Basic
import Mathlib.Order.Lattice

/-! Common ground of the models: the ways the code can stop, and the key types. -/
namespace XStore

/-- The ASSERTs of the modelled code, each named by what it demands. -/
inductive Site where
  | depthPositive | upKeyValid | splitThreshold | siblingEmpty
  | candidateNotNull | candidateNoSplit
  | newLeafNotNull | leafNotNull
  | seekFound
  | incarnationFits | offsetInPage | pageVisited
  | sameSize | samePage | validModel
  | marshalSize | submodelSize | dispatchNum | dispatcherLonger | dispatcherSize
  | ttHeader | ttEntries | imageFits
  | msgHoldsHeader | msgSize | payloadSize | rpcCalled | replyAdded | msgType
  | corInStation | replyFits | connectData
  | batchFits | argsSize | argAdded | replyAwaited | valueFound | valueSize
  | boundsWiden | shapesMatch | featureSize | featureLeft | solverInfo | featureIdx
  | destHoldsValue | retryLimit
  | tableNotEmpty | batchPosted | orderInDistrict | tupleDecoded
  deriving DecidableEq, Repr

/-- How a run can stop: a false ASSERT, `value()` on an empty Option, or an access the
language gives no meaning to (a null pointer, a node cast to the wrong type, an index
outside an array, the end of a function that should return something). `outOfFuel` is no
behaviour of the code: the model gave a loop too few rounds. -/
inductive Fault where
  | assert (site : Site)
  | emptyOption
  | nullDeref
  | badCast
  | outOfRange
  | noReturn
  | outOfFuel
  deriving DecidableEq, Repr

abbrev Res (α : Type) := Except Fault α

/-- `ASSERT(b)`. -/
def ensure (b : Bool) (site : Site) : Res Unit :=
  if b then .ok () else .error (.assert site)

/-- A pointer or Option that must hold something, else the run stops with `f`. -/
def need {α : Type} (o : Option α) (f : Fault) : Res α :=
  match o with
  | some a => .ok a
  | none => .error f

@[simp] theorem ensure_true (s : Site) : ensure true s = .ok () := rfl
@[simp] theorem ensure_false (s : Site) : ensure false s = .error (.assert s) := rfl
@[simp] theorem need_some {α : Type} (a : α) (f : Fault) : need (some a) f = .ok a := rfl
@[simp] theorem need_none {α : Type} (f : Fault) : need (none : Option α) f = .error f := rfl

@[simp] theorem ok_bind {α β : Type} (a : α) (f : α → Res β) :
    ((Except.ok a : Res α) >>= f) = f a := rfl
@[simp] theorem error_bind {α β : Type} (e : Fault) (f : α → Res β) :
    ((Except.error e : Res α) >>= f) = .error e := rfl
@[simp] theorem pure_eq_ok {α : Type} (a : α) : (pure a : Res α) = .ok a := rfl

@[simp] theorem toOption_ok {α : Type} (a : α) : (Except.ok a : Res α).toOption = some a := rfl
@[simp] theorem toOption_error {α : Type} (e : Fault) :
    (Except.error e : Res α).toOption = none := rfl

theorem bind_eq_ok {α β : Type} {x : Res α} {f : α → Res β} {b : β} :
    (x >>= f) = .ok b ↔ ∃ a, x = .ok a ∧ f a = .ok b := by
  cases x <;> simp

theorem need_eq_ok {α : Type} {o : Option α} {f : Fault} {a : α} :
    need o f = .ok a ↔ o = some a := by
  cases o <;> simp

theorem exists_of_isOk {α : Type} {x : Res α} (h : x.isOk = true) : ∃ a, x = .ok a := by
  cases x with
  | ok a => exact ⟨a, rfl⟩
  | error e => cases h

theorem mapM_ok {α β : Type} {f : α → Res β} {P : α → β → Prop} {as : List α}
    (h : ∀ a ∈ as, ∃ b, f a = .ok b ∧ P a b) :
    ∃ bs, as.mapM f = .ok bs ∧ List.Forall₂ P as bs := by
  induction as with
  | nil => exact ⟨[], by simp, List.Forall₂.nil⟩
  | cons a as ih =>
    obtain ⟨b, hb, hP⟩ := h a (by simp)
    obtain ⟨bs, hbs, hall⟩ := ih (fun c hc => h c (List.mem_cons_of_mem a hc))
    exact ⟨b :: bs, by simp [hb, hbs], List.Forall₂.cons hP hall⟩

theorem foldlM_keeps {α β : Type} {P : β → Prop} {f : β → α → Res β}
    (hstep : ∀ b a b', f b a = .ok b' → P b → P b') {as : List α} {b b' : β}
    (hrun : as.foldlM f b = .ok b') (h : P b) : P b' := by
  induction as generalizing b with
  | nil =>
    cases hrun
    exact h
  | cons a as ih =>
    rw [List.foldlM_cons] at hrun
    obtain ⟨b₁, h₁, hrun⟩ := bind_eq_ok.mp hrun
    exact ih hrun (hstep b a b₁ h₁ h)

theorem foldlM_getElem? {α β : Type} (f : β → α → Res β) (as : List α) (b : β) (e : Fault) :
    (List.range as.length).foldlM (fun b i => do
      let a ← need as[i]? e
      f b a) b = as.foldlM f b := by
  induction as generalizing b with
  | nil => rfl
  | cons a as ih =>
    rw [List.length_cons, List.range_succ_eq_map, List.foldlM_cons, List.foldlM_cons]
    simp only [List.getElem?_cons_zero, need_some, ok_bind]
    cases f b a with
    | error e => rfl
    | ok b =>
      rw [ok_bind, ok_bind, List.foldlM_map]
      exact ih b

def toInt32 (x : ℤ) : ℤ := x.bmod (2 ^ 32)

def toInt64 (x : ℤ) : ℤ := x.bmod (2 ^ 64)

theorem toInt32_eq {x : ℤ} (hlo : -2 ^ 31 ≤ x) (hhi : x < 2 ^ 31) : toInt32 x = x := by
  unfold toInt32
  rw [Int.bmod_eq_of_le]
  · omega
  · omega

theorem toInt64_eq {x : ℤ} (hlo : -2 ^ 63 ≤ x) (hhi : x < 2 ^ 63) : toInt64 x = x := by
  unfold toInt64
  rw [Int.bmod_eq_of_le]
  · omega
  · omega

theorem toInt32_lt (x : ℤ) : toInt32 x < 2 ^ 31 := by
  have h := Int.bmod_lt (x := x) (m := 2 ^ 32) (by decide)
  unfold toInt32
  omega

theorem le_toInt32 (x : ℤ) : -2 ^ 31 ≤ toInt32 x := by
  have h := Int.le_bmod (x := x) (m := 2 ^ 32) (by decide)
  unfold toInt32
  omega

/-- Narrowing never makes a value that is not negative larger. -/
theorem toInt32_le {x : ℤ} (h : 0 ≤ x) : toInt32 x ≤ x := by
  unfold toInt32
  rw [Int.bmod_def]
  split <;> omega

/-- The next 2^31 values above the range come out negative. -/
theorem toInt32_neg {x : ℤ} (hlo : 2 ^ 31 ≤ x) (hhi : x < 2 ^ 32) : toInt32 x < 0 := by
  unfold toInt32
  rw [Int.bmod_def]
  split <;> omega

/-- The width of a usize in bits, which the missing headers of r2 decide. -/
class Usize where
  bits : ℕ
  bits_ge : 32 ≤ bits

@[reducible]
def usize64 : Usize := ⟨64, by decide⟩

theorem Usize.two_pow_bits [Usize] : 2 ^ 32 ≤ 2 ^ Usize.bits :=
  Nat.pow_le_pow_right (by decide) Usize.bits_ge

theorem Usize.succ_mod [Usize] {x : ℕ} (h : x < 2 ^ Usize.bits) :
    (x + 1) % 2 ^ Usize.bits = if x + 1 = 2 ^ Usize.bits then 0 else x + 1 := by
  split
  · next hlast => rw [hlast, Nat.mod_self]
  · exact Nat.mod_eq_of_lt (by omega)

/-- What the tree asks of a key class: its comparison operators, the placeholder
`K(kInvalidKey)`, and `min()` and `max()`. -/
class KeyType (K : Type) where
  eq : K → K → Bool
  ne : K → K → Bool
  lt : K → K → Bool
  gt : K → K → Bool
  ge : K → K → Bool
  invalid : K
  min : K
  max : K

/-- Keys whose operators agree with one linear order and whose placeholder is its top, as
for the default key class, a wrapped u64 with `kInvalidKey` the largest u64. -/
instance (priority := low) KeyType.ofOrder {K : Type} [LinearOrder K] [BoundedOrder K] :
    KeyType K where
  eq a b := decide (a = b)
  ne a b := decide (a ≠ b)
  lt a b := decide (a < b)
  gt a b := decide (a > b)
  ge a b := decide (a ≥ b)
  invalid := ⊤
  min := ⊥
  max := ⊤

namespace KeyType
variable {K : Type} [LinearOrder K] [BoundedOrder K]

@[simp] theorem eq_ofOrder (a b : K) : eq a b = decide (a = b) := rfl
@[simp] theorem ne_ofOrder (a b : K) : ne a b = decide (a ≠ b) := rfl
@[simp] theorem lt_ofOrder (a b : K) : lt a b = decide (a < b) := rfl
@[simp] theorem gt_ofOrder (a b : K) : gt a b = decide (b < a) := rfl
@[simp] theorem ge_ofOrder (a b : K) : ge a b = decide (b ≤ a) := rfl
@[simp] theorem invalid_ofOrder : (invalid : K) = ⊤ := rfl
@[simp] theorem min_ofOrder : (min : K) = ⊥ := rfl
@[simp] theorem max_ofOrder : (max : K) = ⊤ := rfl

end KeyType

abbrev XKey := Fin (2^64)

instance neZero_u64 : NeZero (2 ^ 64) := ⟨by decide⟩

end XStore
