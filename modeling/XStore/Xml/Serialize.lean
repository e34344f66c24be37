import XStore.Xml.SubModel
import XStore.Xutils.Marshal

/-! Models as bytes (marshal.hh, lr/mod.hh, xmodel.hh). -/
namespace XStore.Xml
open XStore.Lib XStore.Xutils
variable {M : Type}

def marshalDeserialize (w : ℕ) (buf : List Byte) (size : ℕ) : Res ℕ := do
  ensure (decide (w ≤ size)) .marshalSize
  pure (ofBytes (buf.take w))

def serializeI32 (x : ℤ) : List Byte := toBytes 4 (x % 2 ^ 32).toNat

def deserializeI32 (buf : List Byte) (size : ℕ) : Res ℤ := do
  let x ← marshalDeserialize 4 buf size
  pure (toInt32 x)

/-- The methods of a model that turn it into bytes and back. -/
class MlSerialize (M : Type) extends Inhabited M where
  serialize : M → List Byte
  fromSerialize : List Byte → Res M

/-- Bytes give back the model they were made of, and a default model has as many. -/
class LawfulSerialize (M : Type) [MlSerialize M] : Prop where
  round_trip : ∀ m : M, MlSerialize.fromSerialize (MlSerialize.serialize m) = .ok m
  length_eq : ∀ m : M, (MlSerialize.serialize m).length =
    (MlSerialize.serialize (default : M)).length

/-- The bit pattern of a double. -/
abbrev Double := Fin (2 ^ 64)

/-- A linear model: its two parameters. -/
structure LR where
  w : Double
  b : Double
  deriving DecidableEq, Repr

namespace LR

/-- `MarshalT<LR>::serialize`: the size of the struct comes first. -/
def serialize (m : LR) : List Byte := toBytes 8 16 ++ (toBytes 8 m.w ++ toBytes 8 m.b)

/-- `MarshalT<LR>::deserialize(data).value()`: the size is there but nobody looks at it. -/
def fromSerialize (data : List Byte) : Res LR :=
  if data.length < 24 then .error .emptyOption
  else pure {
    w := Fin.ofNat (2 ^ 64) (ofBytes ((data.drop 8).take 8))
    b := Fin.ofNat (2 ^ 64) (ofBytes ((data.drop 16).take 8)) }

instance : MlSerialize LR where
  default := { w := 0, b := 0 }
  serialize := serialize
  fromSerialize := fromSerialize

@[simp] theorem length_serialize (m : LR) : (MlSerialize.serialize m).length = 24 := by
  simp [MlSerialize.serialize, serialize]

theorem serialize_ne (m : LR) : MlSerialize.serialize m ≠ [] := by
  intro hnil
  have hlen := length_serialize m
  rw [hnil] at hlen
  cases hlen

theorem ofNat_ofBytes (x : Double) : Fin.ofNat (2 ^ 64) (ofBytes (toBytes 8 x)) = x := by
  have h : (x : ℕ) < 256 ^ 8 := lt_of_lt_of_le x.isLt (by decide)
  rw [ofBytes_toBytes_of_lt h]
  exact Fin.ofNat_val_eq_self x

instance : LawfulSerialize LR where
  round_trip m := by
    have hw : ((serialize m).drop 8).take 8 = toBytes 8 m.w := by
      rw [serialize, List.drop_left' (by simp), List.take_left' (by simp)]
    have hb : ((serialize m).drop 16).take 8 = toBytes 8 m.b := by
      rw [serialize, ← List.append_assoc, List.drop_left' (by simp),
        List.take_of_length_le (by simp)]
    have hlen : ¬ (serialize m).length < 24 := by simp [serialize]
    simp only [MlSerialize.serialize, MlSerialize.fromSerialize, fromSerialize, hlen, if_false,
      hw, hb, ofNat_ofBytes, pure_eq_ok]
  length_eq m := by simp

instance : Plain LR where
  size := 16
  toBytes m := toBytes 8 m.w ++ toBytes 8 m.b
  ofBytes bs := {
    w := Fin.ofNat (2 ^ 64) (ofBytes (bs.take 8))
    b := Fin.ofNat (2 ^ 64) (ofBytes (bs.drop 8)) }
  length_toBytes m := by simp
  ofBytes_toBytes m := by
    rw [List.take_left' (by simp), List.drop_left' (by simp), ofNat_ofBytes, ofNat_ofBytes]

instance : AllBytes LR where
  toBytes_ofBytes bs hlen := by
    have hbytes : bs.length = 16 := hlen
    have hback : ∀ xs : List Byte, xs.length = 8 →
        toBytes 8 (Fin.ofNat (2 ^ 64) (ofBytes xs)) = xs := by
      intro xs hxs
      have h := toBytes_ofBytes xs
      rw [hxs] at h
      rw [Fin.val_ofNat]
      exact (toBytes_mod 8 (ofBytes xs)).trans h
    change toBytes 8 (Fin.ofNat (2 ^ 64) (ofBytes (bs.take 8))) ++
      toBytes 8 (Fin.ofNat (2 ^ 64) (ofBytes (bs.drop 8))) = bs
    rw [hback _ (by rw [List.length_take]; omega), hback _ (by rw [List.length_drop]; omega),
      List.take_append_drop]

theorem serialize_eq_marshal (m : LR) : MarshalT.serialize () m = .ok m.serialize := by
  rw [MarshalT.serialize_eq]
  rfl

theorem fromSerialize_eq_marshal (data : List Byte) :
    fromSerialize data = need (MarshalT.deserialize LR data) .emptyOption := by
  rw [MarshalT.deserialize_eq, fromSerialize]
  change (if data.length < 24 then _ else _) = need (if data.length < 24 then _ else _) _
  split
  · rfl
  · have hw : ((data.drop 8).take 16).take 8 = (data.drop 8).take 8 := by
      rw [List.take_take, Nat.min_eq_left (by omega)]
    have hb : ((data.drop 8).take 16).drop 8 = (data.drop 16).take 8 := by
      rw [List.drop_take, List.drop_drop]
    rw [need_some, ← hw, ← hb]
    rfl

theorem checked_marshal (data : List Byte) :
    MarshalT.Checked LR data ↔ data.length < 24 ∨ data.take 8 = toBytes 8 16 :=
  MarshalT.checked_header_iff data

end LR

namespace XSubModel
variable [MlSerialize M]

def serialize (s : XSubModel M) : List Byte :=
  serializeI32 s.errMax ++ (serializeI32 s.errMin ++ (serializeI32 s.max ++
    MlSerialize.serialize s.ml))

def blank : XSubModel M where
  ml := default
  errMin := 0
  errMax := 0
  max := 0

def ofView (d : List Byte) : Res (XSubModel M) := do
  ensure (d.length == (blank : XSubModel M).serialize.length) .submodelSize
  let errMax ← deserializeI32 d d.length
  let errMin ← deserializeI32 (d.drop 4) d.length
  let max ← deserializeI32 (d.drop 8) d.length
  let ml ← MlSerialize.fromSerialize (d.drop 12)
  pure { ml := ml, errMin := errMin, errMax := errMax, max := max }

def Fits (s : XSubModel M) : Prop :=
  ∀ x ∈ [s.errMin, s.errMax, s.max], -2 ^ 31 ≤ x ∧ x < 2 ^ 31

instance (s : XSubModel M) : Decidable s.Fits := inferInstanceAs (Decidable (∀ x ∈ _, _))

end XSubModel

@[simp] theorem length_serializeI32 (x : ℤ) : (serializeI32 x).length = 4 := by
  simp [serializeI32]

theorem marshalDeserialize_toBytes {w x size : ℕ} (hx : x < 256 ^ w) (hw : w ≤ size)
    (rest : List Byte) : marshalDeserialize w (toBytes w x ++ rest) size = .ok x := by
  rw [marshalDeserialize, List.take_left' (by simp), ofBytes_toBytes_of_lt hx]
  simp [hw]

theorem deserializeI32_serializeI32 {x : ℤ} {size : ℕ} (hlo : -2 ^ 31 ≤ x) (hhi : x < 2 ^ 31)
    (hsize : 4 ≤ size) (rest : List Byte) :
    deserializeI32 (serializeI32 x ++ rest) size = .ok x := by
  have hlt : (x % 2 ^ 32).toNat < 256 ^ 4 := by
    have := Int.emod_nonneg x (by decide : (2 ^ 32 : ℤ) ≠ 0)
    have := Int.emod_lt_of_pos x (by decide : (0 : ℤ) < 2 ^ 32)
    omega
  have hx : toInt32 ((x % 2 ^ 32).toNat : ℤ) = x := by
    rw [Int.toNat_of_nonneg (Int.emod_nonneg x (by decide))]
    unfold toInt32
    rw [Int.bmod_def]
    split <;> omega
  rw [deserializeI32, serializeI32, marshalDeserialize_toBytes hlt hsize, ok_bind, hx, pure_eq_ok]

namespace XSubModel
variable [MlSerialize M] [LawfulSerialize M]

@[simp] theorem length_serialize (s : XSubModel M) :
    s.serialize.length = (blank : XSubModel M).serialize.length := by
  simp only [serialize, List.length_append, length_serializeI32, blank]
  rw [LawfulSerialize.length_eq]

theorem ofView_serialize {s : XSubModel M} (h : s.Fits) : ofView s.serialize = .ok s := by
  have hmin := h s.errMin (by simp)
  have hmax := h s.errMax (by simp)
  have hm := h s.max (by simp)
  have hlen : 4 ≤ s.serialize.length := by
    rw [serialize, List.length_append, length_serializeI32]
    omega
  have hdrop : s.serialize.drop 4 =
      serializeI32 s.errMin ++ (serializeI32 s.max ++ MlSerialize.serialize s.ml) := by
    rw [serialize, List.drop_left' (by simp)]
  have hdrop₂ : s.serialize.drop 8 = serializeI32 s.max ++ MlSerialize.serialize s.ml := by
    rw [show 8 = 4 + 4 from rfl, ← List.drop_drop, hdrop, List.drop_left' (by simp)]
  have hdrop₃ : s.serialize.drop 12 = MlSerialize.serialize s.ml := by
    rw [show 12 = 8 + 4 from rfl, ← List.drop_drop, hdrop₂, List.drop_left' (by simp)]
  have hfirst : deserializeI32 s.serialize s.serialize.length = .ok s.errMax := by
    rw [serialize] at hlen ⊢
    exact deserializeI32_serializeI32 hmax.1 hmax.2 hlen _
  unfold ofView
  rw [hfirst, hdrop, hdrop₂, hdrop₃,
    deserializeI32_serializeI32 hmin.1 hmin.2 hlen, deserializeI32_serializeI32 hm.1 hm.2 hlen,
    LawfulSerialize.round_trip, length_serialize, beq_self_eq_true]
  rfl

end XSubModel
end XStore.Xml
