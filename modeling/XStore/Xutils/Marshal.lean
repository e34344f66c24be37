import XStore.Base
import XStore.Lib.Bytes

/-! Objects as strings of bytes (marshal.hh): `Marshal` copies an object, `MarshalT` writes its
size in front of it. -/
namespace XStore.Xutils
open XStore.Lib
variable {T : Type} [Copyable T]

namespace Marshal

def serializeInto (p : Copyable.Padding T) (t : T) (s : List Byte) : Res (List Byte) := do
  ensure (decide (s.length ≥ Copyable.size T)) .marshalSize
  pure (Copyable.toBytes p t ++ s.drop (Copyable.size T))

def serializeTo (p : Copyable.Padding T) (t : T) : Res (List Byte) :=
  serializeInto p t (List.replicate (Copyable.size T) 0)

/-- `size` is what the caller says about the buffer. -/
def deserializeOpt (T : Type) [Copyable T] (buf : List Byte) (size : ℕ) : Option T :=
  if size < Copyable.size T then none
  else some (Copyable.ofBytes (buf.take (Copyable.size T)))

theorem serializeTo_eq (p : Copyable.Padding T) (t : T) :
    serializeTo p t = .ok (Copyable.toBytes p t) := by
  simp [serializeTo, serializeInto]

end Marshal

/-- `_WrapperT`, a packed struct. -/
structure WrapperT (T : Type) where
  sz : Fin (2 ^ 64)
  payload : T

instance : Copyable (WrapperT T) where
  Padding := Copyable.Padding T
  nonempty := Copyable.nonempty
  size := 8 + Copyable.size T
  toBytes p w := toBytes 8 w.sz ++ Copyable.toBytes p w.payload
  ofBytes bs := ⟨Fin.ofNat _ (ofBytes (bs.take 8)), Copyable.ofBytes (bs.drop 8)⟩
  length_toBytes p w := by simp
  ofBytes_toBytes p w := by
    rw [List.take_left' (by simp), List.drop_left' (by simp), Copyable.ofBytes_toBytes,
      ofBytes_toBytes_of_lt (by exact w.sz.isLt)]
    congr
    exact Fin.ofNat_val_eq_self w.sz

namespace MarshalT

def serialize (p : Copyable.Padding T) (t : T) : Res (List Byte) :=
  let temp : WrapperT T := ⟨Fin.ofNat _ (Copyable.size T), t⟩
  Marshal.serializeTo (T := WrapperT T) p temp

/-- The result is the payload, whatever the size in front of it says. -/
def deserialize (T : Type) [Copyable T] (d : List Byte) : Option T :=
  (Marshal.deserializeOpt (WrapperT T) d d.length).map WrapperT.payload

def header (T : Type) [Copyable T] : List Byte := toBytes 8 (Copyable.size T)

@[simp] theorem length_header : (header T).length = 8 := length_toBytes 8 _

theorem serialize_eq (p : Copyable.Padding T) (t : T) :
    serialize p t = .ok (header T ++ Copyable.toBytes p t) := by
  have hsz : toBytes 8 (Fin.ofNat (2 ^ 64) (Copyable.size T)) = toBytes 8 (Copyable.size T) := by
    rw [Fin.val_ofNat]
    exact toBytes_mod 8 (Copyable.size T)
  have hto : serialize p t = .ok (toBytes 8 (Fin.ofNat (2 ^ 64) (Copyable.size T)) ++
      Copyable.toBytes p t) := Marshal.serializeTo_eq (T := WrapperT T) p ⟨_, t⟩
  rw [hto, hsz, header]

theorem deserialize_eq (d : List Byte) : deserialize T d =
    if d.length < 8 + Copyable.size T then none
    else some (Copyable.ofBytes ((d.drop 8).take (Copyable.size T))) := by
  unfold deserialize Marshal.deserializeOpt
  change Option.map _ (if d.length < 8 + Copyable.size T then none else _) = _
  split
  · rfl
  · change some (Copyable.ofBytes ((d.take (8 + Copyable.size T)).drop 8)) = _
    rw [List.drop_take, Nat.add_sub_cancel_left]

theorem deserialize_serialize (p : Copyable.Padding T) (t : T) :
    ∃ d, serialize p t = .ok d ∧ deserialize T d = some t := by
  refine ⟨_, serialize_eq p t, ?_⟩
  rw [deserialize_eq, if_neg (by simp), List.drop_left' length_header,
    List.take_of_length_le (by simp), Copyable.ofBytes_toBytes]

/-- A value is only read behind the size of its type, and it gives the bytes back. -/
def Checked (T : Type) [Copyable T] (d : List Byte) : Prop :=
  ∀ t : T, deserialize T d = some t →
    d.take 8 = header T ∧ ∀ p, serialize p t = .ok (d.take (8 + Copyable.size T))

theorem checked_bytes_iff (d : List Byte) :
    Checked T d ↔ d.length < 8 + Copyable.size T ∨ d.take 8 = header T ∧
      ∃ t : T, ∀ p, Copyable.toBytes p t = (d.drop 8).take (Copyable.size T) := by
  unfold Checked
  simp only [deserialize_eq, serialize_eq]
  by_cases hshort : d.length < 8 + Copyable.size T
  · simp [hshort]
  · simp only [hshort, if_false, false_or, Option.some.injEq]
    constructor
    · intro h
      obtain ⟨hhead, hback⟩ := h _ rfl
      refine ⟨hhead, Copyable.ofBytes ((d.drop 8).take (Copyable.size T)), fun p => ?_⟩
      have hp := Except.ok.inj (hback p)
      rw [List.take_add, hhead] at hp
      exact List.append_cancel_left hp
    · rintro ⟨hhead, t, ht⟩ t' ht'
      refine ⟨hhead, fun p => ?_⟩
      rw [← ht p, Copyable.ofBytes_toBytes] at ht'
      rw [List.take_add, hhead, ← ht p, ht']

/-- Reading is checked exactly if the string is too short, or happens to begin with the size and
with bytes that every object of some value has. -/
theorem checked_iff (d : List Byte) :
    (Checked T d ↔ d.length < 8 + Copyable.size T ∨ d.take 8 = header T ∧
      ∃ t : T, ∀ p, Copyable.toBytes p t = (d.drop 8).take (Copyable.size T)) ∧
    ∀ p (t : T), ∃ d', serialize p t = .ok d' ∧ deserialize T d' = some t :=
  ⟨checked_bytes_iff d, deserialize_serialize⟩

/-- Where all bytes are values, only the size matters. -/
theorem checked_header_iff {T : Type} [Plain T] [AllBytes T] (d : List Byte) :
    Checked T d ↔ d.length < 8 + Plain.size T ∨ d.take 8 = header T := by
  rw [checked_bytes_iff]
  change d.length < 8 + Plain.size T ∨ _ ↔ _
  refine ⟨Or.imp_right And.left, fun h => ?_⟩
  by_cases hshort : d.length < 8 + Plain.size T
  · exact Or.inl hshort
  · have hlen : ((d.drop 8).take (Plain.size T)).length = Plain.size T := by
      rw [List.length_take, List.length_drop]
      omega
    exact Or.inr ⟨h.resolve_left hshort, _, fun _ => AllBytes.toBytes_ofBytes _ hlen⟩

end MarshalT

instance (s : ℕ) : Plain (Fin s → Byte) where
  size := s
  toBytes := List.ofFn
  ofBytes bs i := bs.getD i 0
  length_toBytes a := List.length_ofFn
  ofBytes_toBytes a := by
    funext i
    simp

instance (s : ℕ) : AllBytes (Fin s → Byte) where
  toBytes_ofBytes bs hlen := by
    have hs : s = bs.length := hlen.symm
    apply List.ext_getElem (by simpa [Plain.toBytes] using hs)
    intro i h₁ h₂
    simp [Plain.toBytes, Plain.ofBytes, h₂]

/-- A struct of 16 bytes is read as one of 8. -/
theorem MarshalT.reads_foreign :
    ¬ Checked (Fin 8 → Byte) (header (Fin 16 → Byte) ++ List.replicate 16 0) := by
  intro h
  have hhead := (h _ (deserialize_eq _)).1
  exact absurd hhead (by decide)

end XStore.Xutils
