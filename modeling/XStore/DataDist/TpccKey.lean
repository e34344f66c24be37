import XStore.Base
import Mathlib.Data.List.Lex

/-! The keys of TPC-C orders (tpcc_key.hh): a warehouse, a district, an order and an order line,
packed into a u64. -/
namespace XStore.DataDist

def kMaxDPerW : ℕ := 10
def kMaxOrderPD : ℕ := 200000
def kMaxOL : ℕ := 4000

structure TPCCKey where
  d : Fin (2 ^ 64)
  deriving DecidableEq, Repr

namespace TPCCKey

/-- The constructor from a tuple. The arithmetic is that of u64. -/
def ofTuple (w d o n : ℕ) : Res TPCCKey := do
  let upper := (w * kMaxDPerW + d) % 2 ^ 64
  ensure (decide (upper < kMaxOrderPD)) .orderInDistrict
  let upper := (upper * kMaxOrderPD + o) % 2 ^ 64
  pure ⟨Fin.ofNat _ ((upper <<< 32) % 2 ^ 64 + n)⟩

/-- `to_feature`, with its scalars as whole numbers. -/
def toFeature (k : TPCCKey) : Res (List ℕ) := do
  let n := (k.d.val &&& 0xffffffff) % kMaxOL
  let upper := k.d.val >>> 32
  let o := upper % kMaxOrderPD
  let upper := upper / kMaxOrderPD
  let d := upper % kMaxDPerW
  let back ← ofTuple (upper / kMaxDPerW) d o n
  ensure (back.d == k.d) .tupleDecoded
  pure [upper / kMaxDPerW, d, o, n]

instance : LinearOrder TPCCKey :=
  LinearOrder.lift' (fun k => k.d.val) (fun a b h => by
    cases a
    cases b
    exact congrArg mk (Fin.ext h))

instance : BoundedOrder TPCCKey where
  top := ⟨Fin.ofNat _ (2 ^ 64 - 1)⟩
  bot := ⟨0⟩
  le_top k := by
    change k.d.val ≤ (2 ^ 64 - 1) % 2 ^ 64
    omega
  bot_le k := Nat.zero_le k.d.val

theorem lt_iff {a b : TPCCKey} : a < b ↔ a.d.val < b.d.val := Iff.rfl

end TPCCKey

structure OrderLine where
  w : ℕ
  d : ℕ
  o : ℕ
  n : ℕ

namespace OrderLine

def key (t : OrderLine) : Res TPCCKey := TPCCKey.ofTuple t.w t.d t.o t.n

def toList (t : OrderLine) : List ℕ := [t.w, t.d, t.o, t.n]

/-- The parts are in their ranges, the warehouse is any u64, and the ASSERT of the constructor
holds. -/
structure Accepted (t : OrderLine) : Prop where
  w_lt : t.w < 2 ^ 64
  d_lt : t.d < kMaxDPerW
  o_lt : t.o < kMaxOrderPD
  n_lt : t.n < kMaxOL
  upper_lt : (t.w * kMaxDPerW + t.d) % 2 ^ 64 < kMaxOrderPD

def upper (t : OrderLine) : ℕ := (t.w * kMaxDPerW + t.d) * kMaxOrderPD + t.o

/-- Warehouse, district and order, as one number, fit the upper half of a key. -/
def Fits (t : OrderLine) : Prop := t.upper < 2 ^ 32

def stored (t : OrderLine) : ℕ :=
  ((t.w * kMaxDPerW + t.d) % 2 ^ 64 * kMaxOrderPD + t.o) % 2 ^ 32

variable {t t' : OrderLine} {k : TPCCKey}

theorem stored_lt (t : OrderLine) : t.stored < 2 ^ 32 := Nat.mod_lt _ (by decide)

/-- The parts are the digits of their number. -/
theorem digits_iff (hd : t.d < kMaxDPerW) (ho : t.o < kMaxOrderPD) (x : ℕ) :
    [x / kMaxOrderPD / kMaxDPerW, x / kMaxOrderPD % kMaxDPerW, x % kMaxOrderPD, t.n] = t.toList ↔
      x = t.upper := by
  simp only [kMaxDPerW, kMaxOrderPD] at hd ho
  simp only [toList, upper, kMaxDPerW, kMaxOrderPD, List.cons.injEq, and_true]
  omega

theorem key_ok (h : t.Accepted) : ∃ k, t.key = .ok k ∧ k.d.val = t.stored * 2 ^ 32 + t.n := by
  have ho := h.o_lt
  have hn := h.n_lt
  have hupper := h.upper_lt
  refine ⟨⟨Fin.ofNat _ ((((t.w * kMaxDPerW + t.d) % 2 ^ 64 * kMaxOrderPD + t.o) % 2 ^ 64) <<< 32 %
    2 ^ 64 + t.n)⟩, ?_, ?_⟩
  · simp only [key, TPCCKey.ofTuple, hupper, decide_true, ensure_true, ok_bind, pure_eq_ok]
  · simp only [stored, Fin.val_ofNat, Nat.shiftLeft_eq]
    simp only [kMaxOrderPD, kMaxOL] at ho hn hupper ⊢
    omega

theorem toFeature_ok {p n : ℕ} (hk : k.d.val = p * 2 ^ 32 + n) (hp : p < 2 ^ 32) (hn : n < kMaxOL) :
    k.toFeature = .ok
      [p / kMaxOrderPD / kMaxDPerW, p / kMaxOrderPD % kMaxDPerW, p % kMaxOrderPD, n] := by
  let u : OrderLine :=
    ⟨p / kMaxOrderPD / kMaxDPerW, p / kMaxOrderPD % kMaxDPerW, p % kMaxOrderPD, n⟩
  have hdigit : p / kMaxOrderPD / kMaxDPerW * kMaxDPerW + p / kMaxOrderPD % kMaxDPerW =
      p / kMaxOrderPD := Nat.div_add_mod' _ _
  have hu : u.Accepted := by
    refine ⟨?_, Nat.mod_lt _ (by decide), Nat.mod_lt _ (by decide), hn, ?_⟩
    · simp only [u, kMaxOrderPD, kMaxDPerW]
      omega
    · simp only [u, hdigit]
      simp only [kMaxOrderPD]
      omega
  have hstored : u.stored = p := by
    simp only [OrderLine.stored, u, hdigit]
    simp only [kMaxOrderPD]
    omega
  obtain ⟨back, hback, hval⟩ := key_ok hu
  rw [hstored] at hval
  have hsame : back.d = k.d := Fin.ext (by rw [hval, hk])
  have hlow : (k.d.val &&& 0xffffffff) % kMaxOL = n := by
    have hmask : k.d.val &&& 0xffffffff = k.d.val % 2 ^ 32 :=
      Nat.and_two_pow_sub_one_eq_mod k.d.val 32
    rw [hmask, hk]
    simp only [kMaxOL] at hn ⊢
    omega
  have hhigh : k.d.val >>> 32 = p := by
    rw [Nat.shiftRight_eq_div_pow, hk]
    simp only [kMaxOL] at hn
    omega
  have hagain : TPCCKey.ofTuple (p / kMaxOrderPD / kMaxDPerW) (p / kMaxOrderPD % kMaxDPerW)
      (p % kMaxOrderPD) n = .ok back := hback
  simp only [TPCCKey.toFeature, hlow, hhigh, hagain, hsame, ok_bind, pure_eq_ok,
    beq_self_eq_true, ensure_true]

theorem stored_eq_iff (h : t.Accepted) : t.stored = t.upper ↔ t.Fits := by
  obtain ⟨hw, hd, ho, hn, hupper⟩ := h
  simp only [Fits, stored, upper, kMaxDPerW, kMaxOrderPD] at *
  omega

theorem upper_lt_iff (h : t.Accepted) (h' : t'.Accepted) :
    (t.upper < t'.upper ∨ t.upper = t'.upper ∧ t.n < t'.n) ↔ t.toList < t'.toList := by
  have hd := h.d_lt
  have ho := h.o_lt
  have hd' := h'.d_lt
  have ho' := h'.o_lt
  simp only [toList, List.cons_lt_cons_iff, List.not_lt_nil, and_false, or_false]
  simp only [upper, kMaxDPerW, kMaxOrderPD] at *
  omega

/-- A key gives its order line back exactly if the line fits. -/
theorem toFeature_iff (h : t.Accepted) (hk : k.d.val = t.stored * 2 ^ 32 + t.n) :
    k.toFeature = .ok t.toList ↔ t.Fits := by
  rw [toFeature_ok hk t.stored_lt h.n_lt, Except.ok.injEq, digits_iff h.d_lt h.o_lt,
    stored_eq_iff h]

/-- Lines that fit are ordered as their keys are. -/
theorem key_lt_iff {k' : TPCCKey} (h : t.Accepted) (h' : t'.Accepted)
    (hfits : t.Fits) (hfits' : t'.Fits) (hk : k.d.val = t.stored * 2 ^ 32 + t.n)
    (hk' : k'.d.val = t'.stored * 2 ^ 32 + t'.n) : k < k' ↔ t.toList < t'.toList := by
  have hn := h.n_lt
  have hn' := h'.n_lt
  rw [TPCCKey.lt_iff, hk, hk', (stored_eq_iff h).mpr hfits, (stored_eq_iff h').mpr hfits',
    ← upper_lt_iff h h']
  simp only [kMaxOL] at hn hn'
  omega

/-- Two accepted lines: both are read back from their keys and the keys stand in the order of the
lines exactly if both fit. -/
theorem keys_faithful_iff (h : t.Accepted) (h' : t'.Accepted) :
    (∃ k k', t.key = .ok k ∧ t'.key = .ok k' ∧ k.toFeature = .ok t.toList ∧
      k'.toFeature = .ok t'.toList ∧ (k < k' ↔ t.toList < t'.toList)) ↔ t.Fits ∧ t'.Fits := by
  obtain ⟨k, hkey, hk⟩ := key_ok h
  obtain ⟨k', hkey', hk'⟩ := key_ok h'
  constructor
  · rintro ⟨a, a', ha, ha', hback, hback', -⟩
    obtain rfl := Except.ok.inj (hkey.symm.trans ha)
    obtain rfl := Except.ok.inj (hkey'.symm.trans ha')
    exact ⟨(toFeature_iff h hk).mp hback, (toFeature_iff h' hk').mp hback'⟩
  · rintro ⟨hfits, hfits'⟩
    exact ⟨k, k', hkey, hkey', (toFeature_iff h hk).mpr hfits,
      (toFeature_iff h' hk').mpr hfits', key_lt_iff h h' hfits hfits' hk hk'⟩

/-- Two orders of the warehouses 1 and 2. -/
theorem keys_faithful_two :
    (∃ k k', key ⟨1, 9, 5, 7⟩ = .ok k ∧ key ⟨2, 0, 5, 7⟩ = .ok k' ∧
      k.toFeature = .ok [1, 9, 5, 7] ∧ k'.toFeature = .ok [2, 0, 5, 7] ∧
      (k < k' ↔ [1, 9, 5, 7] < [2, 0, 5, 7])) ↔ Fits ⟨1, 9, 5, 7⟩ ∧ Fits ⟨2, 0, 5, 7⟩ :=
  have h : Accepted ⟨1, 9, 5, 7⟩ := ⟨by decide, by decide, by decide, by decide, by decide⟩
  have h' : Accepted ⟨2, 0, 5, 7⟩ := ⟨by decide, by decide, by decide, by decide, by decide⟩
  keys_faithful_iff h h'

/-- The constructor takes warehouse 2148, but what comes back is warehouse 0, and the key is
smaller than one of warehouse 1. -/
theorem warehouse_wraps :
    Accepted ⟨2148, 0, 0, 0⟩ ∧ Accepted ⟨1, 0, 0, 0⟩ ∧
    (do
      let k ← key ⟨2148, 0, 0, 0⟩
      let k' ← key ⟨1, 0, 0, 0⟩
      let back ← k.toFeature
      pure (back, decide (k < k')) : Res (List ℕ × Bool)) = .ok ([0, 5, 32704, 0], true) :=
  ⟨⟨by decide, by decide, by decide, by decide, by decide⟩,
    ⟨by decide, by decide, by decide, by decide, by decide⟩, by decide⟩

end OrderLine
end XStore.DataDist
