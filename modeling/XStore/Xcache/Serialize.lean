import XStore.Lib.Delimited
import XStore.Xcache.Rmi
import XStore.Xml.Serialize

/-! Dispatchers and translation tables as bytes (dispatcher.hh, translation_table.hh). -/
namespace XStore.Xcache
open XStore.Lib XStore.Xml
variable {M : Type}

namespace Dispatcher
variable [MlSerialize M]

def metaSerialize (d : Dispatcher M) : List Byte := toBytes 4 d.dispatchNum ++ toBytes 4 d.upBound

def serialize (d : Dispatcher M) : List Byte := d.metaSerialize ++ MlSerialize.serialize d.model

def ofView (d : List Byte) : Res (Dispatcher M) := do
  let dispatchNum ← marshalDeserialize 4 d d.length
  let upBound ← marshalDeserialize 4 (d.drop 4) d.length
  ensure (decide (d.length > 8)) .dispatcherLonger
  let self : Dispatcher M := { model := default, dispatchNum := dispatchNum, upBound := upBound }
  ensure (d.length == self.serialize.length) .dispatcherSize
  let model ← MlSerialize.fromSerialize (d.drop 8)
  pure { self with model := model }

omit [MlSerialize M] in
theorem length_metaSerialize (d : Dispatcher M) : d.metaSerialize.length = 8 := by
  simp [metaSerialize]

theorem ofView_serialize [LawfulSerialize M] {d : Dispatcher M}
    (hnum : d.dispatchNum < 2 ^ 32) (hup : d.upBound < 2 ^ 32)
    (hmodel : MlSerialize.serialize d.model ≠ []) : ofView d.serialize = .ok d := by
  have hlen : d.serialize.length = 8 + (MlSerialize.serialize d.model).length := by
    rw [serialize, List.length_append, length_metaSerialize]
  have hpos := List.length_pos_of_ne_nil hmodel
  have hdrop : d.serialize.drop 4 = toBytes 4 d.upBound ++ MlSerialize.serialize d.model := by
    rw [serialize, metaSerialize, List.append_assoc, List.drop_left' (by simp)]
  have hdrop₂ : d.serialize.drop 8 = MlSerialize.serialize d.model := by
    rw [serialize, List.drop_left' d.length_metaSerialize]
  have hfirst : marshalDeserialize 4 d.serialize d.serialize.length = .ok d.dispatchNum := by
    rw [hlen, serialize, metaSerialize, List.append_assoc]
    exact marshalDeserialize_toBytes (lt_of_lt_of_le hnum (by decide)) (by omega) _
  have hsecond : marshalDeserialize 4 (d.serialize.drop 4) d.serialize.length =
      .ok d.upBound := by
    rw [hdrop, hlen]
    exact marshalDeserialize_toBytes (lt_of_lt_of_le hup (by decide)) (by omega) _
  have hsize : (d.serialize.length == (Dispatcher.mk (default : M) d.dispatchNum
      d.upBound).serialize.length) = true := by
    rw [beq_iff_eq, serialize, serialize, List.length_append, List.length_append,
      LawfulSerialize.length_eq, length_metaSerialize, length_metaSerialize]
  have hlonger : decide (d.serialize.length > 8) = true := by
    rw [hlen, decide_eq_true_eq]
    omega
  unfold ofView
  simp only [hfirst, hsecond, hsize, hlonger, hdrop₂, ok_bind, ensure_true,
    LawfulSerialize.round_trip, pure_eq_ok]

end Dispatcher

namespace TT

/-- The number of entries as a u32, then the entries as u64 values. -/
def serialize (t : TT) : List Byte := toBytes 4 t.size ++ t.entries.flatMap (toBytes 8)

def ttSz (t : TT) : ℕ := 4 + t.entries.length * 8

/-- The loop over the entries; `size` is the size of the whole view. -/
def readEntries (size : ℕ) : ℕ → List Byte → Res (List ℕ)
  | 0, _ => pure []
  | n + 1, buf => do
    let e ← marshalDeserialize 8 buf size
    let es ← readEntries size n (buf.drop 8)
    pure (e :: es)

def fromSerialize (d : List Byte) : Res TT := do
  ensure (decide (4 ≤ d.length)) .ttHeader
  let n ← marshalDeserialize 4 d d.length
  ensure (decide (4 + n * 8 ≤ d.length)) .ttEntries
  let entries ← readEntries d.length n (d.drop 4)
  pure { entries := entries }

def Fits (t : TT) : Prop := t.size < 2 ^ 32 ∧ ∀ e ∈ t.entries, e < 2 ^ 64

theorem length_entries (es : List ℕ) : (es.flatMap (toBytes 8)).length = es.length * 8 := by
  induction es with
  | nil => rfl
  | cons e es ih =>
    rw [List.flatMap_cons, List.length_append, ih, length_toBytes, List.length_cons]
    omega

@[simp] theorem length_serialize (t : TT) : t.serialize.length = t.ttSz := by
  rw [serialize, List.length_append, length_toBytes, length_entries, ttSz]

theorem delimited_entries : SelfDelimiting (fun e => e < 2 ^ 64) (toBytes 8) :=
  .of_length (length_toBytes 8) (fun _ _ ha hb =>
    toBytes_inj (lt_of_lt_of_le ha (by decide)) (lt_of_lt_of_le hb (by decide)))

/-- The count at its beginning tells where a table ends. -/
theorem delimited : SelfDelimiting Fits serialize := by
  intro s t xs ys hs ht h
  rw [serialize, serialize, List.append_assoc, List.append_assoc] at h
  obtain ⟨hcount, hentries⟩ := List.append_inj h (by simp)
  have hlen : s.entries.length = t.entries.length :=
    toBytes_inj (lt_of_lt_of_le hs.1 (by decide)) (lt_of_lt_of_le ht.1 (by decide)) hcount
  have heq := delimited_entries.flatMap_inj hlen hs.2 ht.2 hentries
  cases s
  cases t
  exact congrArg TT.mk heq

theorem readEntries_ok {size : ℕ} (hsize : 8 ≤ size) (n : ℕ) (buf : List Byte)
    (hlen : buf.length = n * 8) : ∃ es, readEntries size n buf = .ok es ∧ es.length = n ∧
      es.flatMap (toBytes 8) = buf ∧ ∀ e ∈ es, e < 2 ^ 64 := by
  induction n generalizing buf with
  | zero =>
    have hnil : buf = [] := List.eq_nil_of_length_eq_zero (by omega)
    exact ⟨[], rfl, rfl, hnil.symm, by simp⟩
  | succ n ih =>
    obtain ⟨es, hread, hes, hflat, hlt⟩ := ih (buf.drop 8) (by rw [List.length_drop]; omega)
    have htake : (buf.take 8).length = 8 := by
      rw [List.length_take]
      omega
    refine ⟨ofBytes (buf.take 8) :: es, ?_, by rw [List.length_cons, hes], ?_, ?_⟩
    · simp [readEntries, marshalDeserialize, hsize, hread]
    · have hback := toBytes_ofBytes (buf.take 8)
      rw [htake] at hback
      rw [List.flatMap_cons, hback, hflat, List.take_append_drop]
    · intro e he
      cases List.mem_cons.mp he with
      | inl h =>
        have hbound := ofBytes_lt (buf.take 8)
        rw [htake] at hbound
        rw [h]
        exact lt_of_lt_of_le hbound (by decide)
      | inr h => exact hlt e h

theorem fromSerialize_ok {d : List Byte} (hlen : d.length = 4 + ofBytes (d.take 4) * 8) :
    ∃ t, fromSerialize d = .ok t ∧ t.Fits ∧ t.serialize = d := by
  have htake : (d.take 4).length = 4 := by
    rw [List.length_take]
    omega
  have hcount := ofBytes_lt (d.take 4)
  rw [htake] at hcount
  have hhead : toBytes 4 (ofBytes (d.take 4)) = d.take 4 := by
    have hback := toBytes_ofBytes (d.take 4)
    rwa [htake] at hback
  have hread : ∃ es, readEntries d.length (ofBytes (d.take 4)) (d.drop 4) = .ok es ∧
      es.length = ofBytes (d.take 4) ∧ es.flatMap (toBytes 8) = d.drop 4 ∧
      ∀ e ∈ es, e < 2 ^ 64 := by
    cases hn : ofBytes (d.take 4) with
    | zero =>
      rw [hn] at hlen
      have hnil : d.drop 4 = [] := List.drop_eq_nil_of_le (by omega)
      exact ⟨[], rfl, rfl, hnil.symm, by simp⟩
    | succ n =>
      rw [hn] at hlen
      exact readEntries_ok (by omega) (n + 1) (d.drop 4) (by rw [List.length_drop]; omega)
  obtain ⟨es, hes, hcard, hflat, hlt⟩ := hread
  refine ⟨⟨es⟩, ?_, ⟨?_, hlt⟩, ?_⟩
  · have h₁ : decide (4 ≤ d.length) = true := by
      rw [decide_eq_true_eq]
      omega
    have h₂ : decide (4 + ofBytes (d.take 4) * 8 ≤ d.length) = true := by
      rw [decide_eq_true_eq]
      omega
    simp only [fromSerialize, marshalDeserialize, h₁, h₂, ensure_true, ok_bind, pure_eq_ok, hes]
  · rw [size, hcard]
    exact lt_of_lt_of_le hcount (by decide)
  · rw [serialize, size, hcard, hflat, hhead, List.take_append_drop]

end TT
end XStore.Xcache
