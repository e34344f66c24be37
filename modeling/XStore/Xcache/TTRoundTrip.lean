import XStore.Xcache.Serialize

/-! Translation tables over the network (translation_table.hh): `from_serialize` with its cursor,
and tables as `add_w_incar` builds them. -/
namespace XStore.Xcache
open XStore.Lib XStore.Xml

namespace TT

/-- `Marshal::deserialize(cur_ptr, d.size())`: the size is that of the whole string. A read
outside the string stops the run. -/
def marshalAt (w : ℕ) (d : List Byte) (cur : ℕ) : Res ℕ := do
  ensure (decide (w ≤ d.length)) .marshalSize
  if cur + w ≤ d.length then pure (ofBytes ((d.drop cur).take w)) else .error .outOfRange

def readEntriesAt (d : List Byte) : ℕ → ℕ → Res (List ℕ × ℕ)
  | 0, cur => pure ([], cur)
  | n + 1, cur => do
    let e ← marshalAt 8 d cur
    let rest ← readEntriesAt d n (cur + 8)
    pure (e :: rest.1, rest.2)

def fromSerializeAt (d : List Byte) : Res (TT × ℕ) := do
  ensure (decide (4 ≤ d.length)) .ttHeader
  let n ← marshalAt 4 d 0
  ensure (decide (4 + n * 8 ≤ d.length)) .ttEntries
  let rest ← readEntriesAt d n 4
  pure (⟨rest.1⟩, rest.2)

section Cursor
variable {d : List Byte} {w n cur : ℕ}

theorem marshalAt_inside (h : cur + w ≤ d.length) :
    marshalAt w d cur = marshalDeserialize w (d.drop cur) d.length := by
  have hw : decide (w ≤ d.length) = true := decide_eq_true (by omega)
  simp only [marshalAt, marshalDeserialize, hw, ensure_true, ok_bind, if_pos h]

theorem readEntriesAt_eq (h : cur + n * 8 ≤ d.length) : readEntriesAt d n cur =
    (readEntries d.length n (d.drop cur)).map (fun es => (es, cur + n * 8)) := by
  induction n generalizing cur with
  | zero => rfl
  | succ n ih =>
    have hplace : cur + 8 + n * 8 = cur + (n + 1) * 8 := by omega
    rw [readEntriesAt, readEntries, marshalAt_inside (by omega), ih (by omega), List.drop_drop,
      hplace]
    cases marshalDeserialize 8 (d.drop cur) d.length with
    | error e => rfl
    | ok e =>
      rw [ok_bind, ok_bind]
      cases readEntries d.length n (d.drop (cur + 8)) <;> rfl

theorem length_readEntries {size : ℕ} {buf : List Byte} {es : List ℕ}
    (h : readEntries size n buf = .ok es) : es.length = n := by
  induction n generalizing buf es with
  | zero =>
    obtain rfl := Except.ok.inj h
    rfl
  | succ n ih =>
    obtain ⟨e, -, h⟩ := bind_eq_ok.mp h
    obtain ⟨es', hes', h⟩ := bind_eq_ok.mp h
    obtain rfl := Except.ok.inj h
    rw [List.length_cons, ih hes']

theorem readEntries_total (n : ℕ) {size : ℕ} (hsize : n = 0 ∨ 8 ≤ size) (buf : List Byte) :
    ∃ es, readEntries size n buf = .ok es := by
  induction n generalizing buf with
  | zero => exact ⟨[], rfl⟩
  | succ n ih =>
    have hle : 8 ≤ size := by omega
    obtain ⟨es, hes⟩ := ih (Or.inr hle) (buf.drop 8)
    exact ⟨ofBytes (buf.take 8) :: es, by simp [readEntries, marshalDeserialize, hle, hes]⟩

/-- The cursor changes nothing: it consumes as many bytes as `tt_sz` says. -/
theorem fromSerializeAt_eq (d : List Byte) :
    fromSerializeAt d = (fromSerialize d).map (fun t => (t, t.ttSz)) := by
  unfold fromSerializeAt fromSerialize
  by_cases hhead : 4 ≤ d.length
  · have hread : marshalAt 4 d 0 = marshalDeserialize 4 d d.length := by
      rw [marshalAt_inside (by omega), List.drop_zero]
    rw [decide_eq_true hhead, ensure_true, ok_bind, ok_bind, hread]
    cases marshalDeserialize 4 d d.length with
    | error e => rfl
    | ok n =>
      rw [ok_bind, ok_bind]
      by_cases hlen : 4 + n * 8 ≤ d.length
      · rw [decide_eq_true hlen, ensure_true, ok_bind, ok_bind, readEntriesAt_eq hlen]
        cases hes : readEntries d.length n (d.drop 4) with
        | error e => rfl
        | ok es =>
          have hcount := length_readEntries hes
          simp only [Except.map, ok_bind, pure_eq_ok, ttSz, hcount]
      · rw [decide_eq_false hlen]
        rfl
  · rw [decide_eq_false hhead]
    rfl

/-- A string is read inside, or fails one of the ASSERTs on its length. -/
def ReadsInside (d : List Byte) : Prop :=
  (∃ t used, fromSerializeAt d = .ok (t, used) ∧ used ≤ d.length) ∨
    fromSerializeAt d = .error (.assert .ttHeader) ∨
    fromSerializeAt d = .error (.assert .ttEntries)

theorem readsInside (d : List Byte) : ReadsInside d := by
  unfold ReadsInside
  rw [fromSerializeAt_eq]
  unfold fromSerialize
  by_cases hhead : 4 ≤ d.length
  · have hcount : marshalDeserialize 4 d d.length = .ok (ofBytes (d.take 4)) := by
      simp [marshalDeserialize, hhead]
    rw [decide_eq_true hhead, ensure_true, ok_bind, hcount, ok_bind]
    by_cases hlen : 4 + ofBytes (d.take 4) * 8 ≤ d.length
    · have hsize : ofBytes (d.take 4) = 0 ∨ 8 ≤ d.length := by omega
      obtain ⟨es, hes⟩ := readEntries_total _ hsize (d.drop 4)
      have hn := length_readEntries hes
      left
      refine ⟨⟨es⟩, ttSz ⟨es⟩, ?_, ?_⟩
      · rw [decide_eq_true hlen, ensure_true, ok_bind, hes]
        rfl
      · rw [ttSz, hn]
        exact hlen
    · right
      right
      rw [decide_eq_false hlen]
      rfl
  · right
    left
    rw [decide_eq_false hhead]
    rfl

end Cursor

def build (adds : List (ℕ × ℕ)) : Res TT :=
  adds.foldlM (fun t a => t.addWIncar a.1 a.2) .empty

def ttSzIn (w : ℕ) (t : TT) : ℕ := t.ttSz % 2 ^ w

/-- The table is read back, whatever follows it: the entries and their addresses and
incarnations, and `tt_sz` is what was consumed. -/
def Survives (w : ℕ) (adds : List (ℕ × ℕ)) : Prop :=
  ∃ t, build adds = .ok t ∧ ∀ rest, ∃ t' used,
    fromSerializeAt (t.serialize ++ rest) = .ok (t', used) ∧ t'.entries = t.entries ∧
    used = t.serialize.length ∧ t'.ttSzIn w = used ∧
    ∀ (i : ℕ) a, adds[i]? = some a → t'.getWoIncar i = .ok a.1 ∧
      ∃ e, t'.entries[i]? = some e ∧ e % 2 ^ kIncarBit = a.2 % 2 ^ kIncarBit

section RoundTrip
variable {adds : List (ℕ × ℕ)}

theorem build_eq (hadds : ∀ a ∈ adds, a.1 < 2 ^ 56) :
    build adds = .ok ⟨adds.map (fun a => entry a.1 a.2)⟩ := by
  have hall : ∀ (xs : List (ℕ × ℕ)) (t : TT), (∀ a ∈ xs, a.1 < 2 ^ 56) →
      xs.foldlM (fun t a => t.addWIncar a.1 a.2) t =
        .ok ⟨t.entries ++ xs.map (fun a => entry a.1 a.2)⟩ := by
    intro xs
    induction xs with
    | nil => intro t _; simp
    | cons x xs ih =>
      intro t hxs
      rw [List.foldlM_cons, addWIncar_ok (hxs x (by simp)), ok_bind,
        ih _ (fun a ha => hxs a (List.mem_cons_of_mem x ha))]
      simp
  exact hall adds .empty hadds

theorem entry_lt {e : ℕ} (h : e < 2 ^ 56) (incar : ℕ) : entry e incar < 2 ^ 64 := by
  rw [entry_eq h]
  have hlow : incar % 2 ^ kIncarBit < 2 ^ kIncarBit := Nat.mod_lt _ (by decide)
  simp only [kIncarBit] at hlow ⊢
  omega

theorem readEntries_flatMap {size : ℕ} {es : List ℕ} (hsize : es = [] ∨ 8 ≤ size)
    (hes : ∀ e ∈ es, e < 2 ^ 64) (rest : List Byte) :
    readEntries size es.length (es.flatMap (toBytes 8) ++ rest) = .ok es := by
  induction es with
  | nil => rfl
  | cons e es ih =>
    have hle : 8 ≤ size := hsize.resolve_left (by simp)
    have he : e < 256 ^ 8 := lt_of_lt_of_le (hes e (by simp)) (by decide)
    have hrest := ih (Or.inr hle) (fun e' he' => hes e' (List.mem_cons_of_mem e he'))
    rw [List.length_cons, readEntries, List.flatMap_cons, List.append_assoc,
      marshalDeserialize_toBytes he hle, ok_bind, List.drop_left' (length_toBytes 8 e), hrest]
    rfl

theorem fromSerialize_append {t : TT} (ht : t.Fits) (rest : List Byte) :
    fromSerialize (t.serialize ++ rest) = .ok t := by
  have hlen : (t.serialize ++ rest).length = 4 + t.entries.length * 8 + rest.length := by
    rw [List.length_append, length_serialize, ttSz]
  have hcount : marshalDeserialize 4 (t.serialize ++ rest) (t.serialize ++ rest).length =
      .ok t.size := by
    rw [hlen, serialize, List.append_assoc]
    exact marshalDeserialize_toBytes (lt_of_lt_of_le ht.1 (by decide)) (by omega) _
  have hdrop : (t.serialize ++ rest).drop 4 = t.entries.flatMap (toBytes 8) ++ rest := by
    rw [serialize, List.append_assoc, List.drop_left' (length_toBytes 4 _)]
  have hsize : t.entries = [] ∨ 8 ≤ (t.serialize ++ rest).length := by
    cases hes : t.entries with
    | nil => exact Or.inl rfl
    | cons e es =>
      rw [hes, List.length_cons] at hlen
      exact Or.inr (by omega)
  have hhead : decide (4 ≤ (t.serialize ++ rest).length) = true := decide_eq_true (by omega)
  have hentries : decide (4 + t.size * 8 ≤ (t.serialize ++ rest).length) = true :=
    decide_eq_true (by rw [hlen, size]; omega)
  rw [fromSerialize, hhead, ensure_true, ok_bind, hcount, ok_bind, hentries, ensure_true, ok_bind,
    hdrop, size, readEntries_flatMap hsize ht.2]
  rfl

/-- What a table that survives must be. -/
theorem Survives.bounds {w : ℕ} (hadds : ∀ a ∈ adds, a.1 < 2 ^ 56) (hlen : adds.length < 2 ^ 32)
    (h : Survives w adds) : adds.length ≤ 2 ^ 31 ∧ 4 + adds.length * 8 < 2 ^ w := by
  obtain ⟨t, ht, hback⟩ := h
  obtain rfl := Except.ok.inj ((build_eq hadds).symm.trans ht)
  obtain ⟨t', used, -, hsame, hused, hsz, hget⟩ := hback []
  have hsize : t'.ttSz = 4 + adds.length * 8 := by rw [ttSz, hsame, List.length_map]
  constructor
  · by_contra hmore
    obtain ⟨i, hi⟩ : ∃ i, i = 2 ^ 31 := ⟨_, rfl⟩
    have hlt : i < adds.length := by omega
    obtain ⟨hok, -⟩ := hget i _ (List.getElem?_eq_getElem hlt)
    rw [getWoIncar_raises (by omega) (by omega)] at hok
    cases hok
  · rw [length_serialize, ttSz, List.length_map] at hused
    rw [ttSzIn, hsize, hused] at hsz
    rw [← hsz]
    exact Nat.mod_lt _ (Nat.two_pow_pos w)

theorem survives_of_bounds {w : ℕ} (hadds : ∀ a ∈ adds, a.1 < 2 ^ 56)
    (hlen : adds.length ≤ 2 ^ 31) (hw : 4 + adds.length * 8 < 2 ^ w) : Survives w adds := by
  have hfits : Fits ⟨adds.map (fun a => entry a.1 a.2)⟩ := by
    constructor
    · rw [size, List.length_map]
      omega
    · intro e he
      obtain ⟨a, ha, rfl⟩ := List.mem_map.mp he
      exact entry_lt (hadds a ha) a.2
  refine ⟨_, build_eq hadds, fun rest => ⟨_, _, ?_, rfl, (length_serialize _).symm, ?_, ?_⟩⟩
  · rw [fromSerializeAt_eq, fromSerialize_append hfits]
    rfl
  · rw [ttSzIn, ttSz, List.length_map, Nat.mod_eq_of_lt hw]
  · intro i a ha
    obtain ⟨hlt, -⟩ := List.getElem?_eq_some_iff.mp ha
    have hentry : (adds.map (fun a => entry a.1 a.2))[i]? = some (entry a.1 a.2) := by
      rw [List.getElem?_map, ha, Option.map_some]
    obtain ⟨haddr, hincar⟩ := entry_spec (hadds a (List.mem_of_getElem? ha)) a.2
    refine ⟨?_, _, hentry, hincar⟩
    rw [getWoIncar_eq (by omega) hentry, haddr]

end RoundTrip

/-- A table of fewer than 2^32 entries survives exactly if its indices fit an int and its size
fits a usize; and no string is read outside. -/
theorem survives_iff (w : ℕ) (adds : List (ℕ × ℕ)) (hadds : ∀ a ∈ adds, a.1 < 2 ^ 56)
    (hlen : adds.length < 2 ^ 32) :
    (Survives w adds ↔ adds.length ≤ 2 ^ 31 ∧ 4 + adds.length * 8 < 2 ^ w) ∧
      ∀ d, ReadsInside d := by
  refine ⟨⟨fun h => h.bounds hadds hlen, fun h => ?_⟩, readsInside⟩
  exact survives_of_bounds hadds h.1 h.2

theorem survives_two : Survives 32 [(5, 3), (7, 300)] ∧ ReadsInside [1, 0, 0, 0] := by
  have h := survives_iff 32 [(5, 3), (7, 300)] (by decide) (by decide)
  exact ⟨h.1.mpr (by decide), h.2 _⟩

theorem not_survives : ¬ Survives 64 (List.replicate (2 ^ 31 + 1) (0, 0)) := by
  intro h
  have hadds : ∀ a ∈ List.replicate (2 ^ 31 + 1) ((0 : ℕ), (0 : ℕ)), a.1 < 2 ^ 56 := by
    intro a ha
    rw [List.eq_of_mem_replicate ha]
    decide
  have hle := (h.bounds hadds (by rw [List.length_replicate]; omega)).1
  rw [List.length_replicate] at hle
  omega

end TT
end XStore.Xcache
