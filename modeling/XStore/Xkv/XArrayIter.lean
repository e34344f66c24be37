import XStore.Xcache.DispatchTrain
import XStore.Xkv.XArrayRun
import XStore.Xkv.XArraySpace

/-! The iterator over a sorted array (xarray_iter.hh), and the array as a sorted map over all
sequences of inserts. -/
namespace XStore.Xkv
open XStore.Lib XStore.Xcache
variable {K V : Type}

structure ArrayIter (K V : Type) [Plain V] where
  curIdx : ℕ
  kv : XArray K V

namespace ArrayIter
variable [Plain V]

def ofArray (kv : XArray K V) : ArrayIter K V := ⟨0, kv⟩

def begin (it : ArrayIter K V) : ArrayIter K V := { it with curIdx := 0 }

def next (it : ArrayIter K V) : ArrayIter K V := { it with curIdx := it.curIdx + 1 }

def hasNext (it : ArrayIter K V) : Bool := decide (it.curIdx < it.kv.size)

def curKey (it : ArrayIter K V) : Res K := need (it.kv.keysAt (toInt32 it.curIdx)) .emptyOption

def opaqueVal (it : ArrayIter K V) : ℕ := it.curIdx

/-- The array is that of the iterator, whatever is passed. -/
def seek [KeyType K] (k : K) (_ : XArray K V) (it : ArrayIter K V) : ArrayIter K V :=
  match it.kv.pos k with
  | some p => { it with curIdx := p }
  -- the size is assigned to the local `pos`, the iterator stays where it is
  | none => it

instance [KeyType K] : KeyIterTrait (ArrayIter K V) (XArray K V) K where
  hasNext := hasNext
  curKey := curKey
  opaqueVal it := .ok it.opaqueVal
  seek k kv it := .ok (it.seek k kv)
  next _ it := .ok it.next

end ArrayIter

section View
variable [Plain V]

def XArray.view (a : XArray K V) : Xcache.XArray K where
  keyPtr := (List.range a.size).map a.keyPtr

theorem XArray.keysAt_view (a : XArray K V) (idx : ℤ) : a.view.keysAt idx = a.keysAt idx := by
  simp only [Xcache.XArray.keysAt, Xcache.XArray.size, view, keysAt, List.length_map,
    List.length_range]
  split
  · next hin =>
    have hlt : idx.toNat < a.size := by omega
    rw [List.getElem?_map, List.getElem?_range hlt, Option.map_some]
  · rfl

theorem XArray.enumerates_view [KeyType K] {a : XArray K V} {i : ℕ} {xs : List (K × ℕ)}
    (h : Yields a (⟨i, a⟩ : ArrayIter K V) xs) :
    Enumerates a.view (⟨i, a.view⟩ : Xcache.ArrayIter K) (xs.map Prod.fst) := by
  have hsize : a.view.size = a.size := by simp [Xcache.XArray.size, view]
  generalize hit : (⟨i, a⟩ : ArrayIter K V) = it at h
  induction h generalizing i with
  | done hnone =>
    subst hit
    refine .done ?_
    rw [← hnone]
    simp only [KeyIterPos.hasNext, ArrayIter.hasNext, hsize]
  | @next it it' k l xs hsome hkey hval hnext hrest ih =>
    subst hit
    have hplace : (⟨i + 1, a⟩ : ArrayIter K V) = it' := Except.ok.inj hnext
    refine .next ?_ ?_ rfl (ih hplace)
    · rw [← hsome]
      simp only [KeyIterPos.hasNext, ArrayIter.hasNext, hsize]
    · rw [← hkey]
      simp only [KeyIterPos.curKey, ArrayIter.curKey, keysAt_view]

end View

variable [LinearOrder K] [BoundedOrder K] [Plain V] {a : XArray K V} {s : Ascending K V} {i : ℕ}

namespace XArray.Holds

theorem yields (h : Holds a s) (hlen : s.length ≤ 2 ^ 31) (i : ℕ) :
    Yields a (⟨i, a⟩ : ArrayIter K V) (s.keys.zipIdx.drop i) := by
  by_cases hi : i < s.keys.length
  · have hlt : i < s.length := by rwa [Ascending.length_keys] at hi
    have hcons : s.keys.zipIdx.drop i = (s.keys[i], i) :: s.keys.zipIdx.drop (i + 1) := by
      rw [List.drop_eq_getElem_cons (by simpa using hi), List.getElem_zipIdx, Nat.zero_add]
    have hnext : ArrayIter.hasNext ⟨i, a⟩ = true := decide_eq_true (by rw [h.size]; exact hlt)
    have hkey : ArrayIter.curKey ⟨i, a⟩ = .ok s.keys[i] := by
      have hint : toInt32 i = i := toInt32_eq (by omega) (by omega)
      simp only [ArrayIter.curKey, need_eq_ok, hint, h.keysAt]
      exact List.getElem?_eq_getElem hi
    rw [hcons]
    exact .next hnext hkey rfl rfl (yields h hlen (i + 1))
  · have hdone : ArrayIter.hasNext ⟨i, a⟩ = false := by
      rw [Ascending.length_keys] at hi
      exact decide_eq_false (by rw [h.size]; exact hi)
    rw [List.drop_eq_nil_iff.mpr (by simpa using hi)]
    exact .done hdone
termination_by s.keys.length - i

/-- With 2^31 + 1 entries the iterator comes to a place that it cannot read. -/
theorem not_yields (h : Holds a s) (hlen : s.length = 2 ^ 31 + 1) (hi : i ≤ 2 ^ 31)
    (xs : List (K × ℕ)) : ¬ Yields a (⟨i, a⟩ : ArrayIter K V) xs := by
  have hsize : a.size = s.length := h.size
  intro hy
  generalize hit : (⟨i, a⟩ : ArrayIter K V) = it at hy
  induction hy generalizing i with
  | done hnone =>
    subst hit
    have hge : ¬ i < a.size := of_decide_eq_false hnone
    omega
  | @next it it' k l xs hsome hkey hval hnext hrest ih =>
    subst hit
    have hplace : (⟨i + 1, a⟩ : ArrayIter K V) = it' := Except.ok.inj hnext
    have hread : ArrayIter.curKey (⟨i, a⟩ : ArrayIter K V) = .ok k := hkey
    simp only [ArrayIter.curKey, need_eq_ok] at hread
    by_cases hlast : i = 2 ^ 31
    · have hneg : toInt32 i < 0 := toInt32_neg (by omega) (by omega)
      have hnone : a.keysAt (toInt32 i) = none := if_neg (fun hin => absurd hin.1 (not_le.mpr hneg))
      rw [hnone] at hread
      cases hread
    · exact ih (by omega) hplace

end XArray.Holds

abbrev Logged (K V : Type) [Plain V] := XArray K V × List (K × V)

namespace Logged

def step (σ : Logged K V) (e : K × V) : Option (Logged K V) :=
  (σ.1.insert e.1 e.2).toOption.map (fun ar => (ar.1, if ar.2 then σ.2 ++ [e] else σ.2))

/-- The insert is accepted exactly if the key is larger than the last one and both blocks have
room, and else changes nothing. -/
def InsertOk [Plain K] (σ : Logged K V) (e : K × V) : Prop :=
  ∃ a' r, σ.1.insert e.1 e.2 = .ok (a', r) ∧
    (r = true ↔ (σ.1.size = 0 ∨ σ.1.keyPtr (σ.1.size - 1) < e.1) ∧
      σ.1.KeyFits ∧ σ.1.ValFits) ∧
    (r = false → a' = σ.1)

/-- The array is the sorted map of the accepted inserts. -/
structure SortedMap (σ : Logged K V) : Prop where
  ascending : σ.1.storedKeys.Pairwise (· < ·)
  get : ∀ k v, σ.1.get k = some v ↔ (k, v) ∈ σ.2
  iter : Yields σ.1 (ArrayIter.ofArray σ.1) (σ.2.map Prod.fst).zipIdx

/-- The log is what the array holds, in blocks of these sizes. -/
structure Inv (keyArraySz valArraySz : ℕ) (s : Ascending K V) (σ : Logged K V) : Prop where
  holds : σ.1.Holds s
  log : σ.2 = s.entries
  keyArraySz : σ.1.keyArraySz = keyArraySz
  valArraySz : σ.1.valArraySz = valArraySz

omit [BoundedOrder K] in
theorem Inv.ofBlocks (keyArraySz valArraySz : ℕ) (keyPtr : ℕ → K)
    (valPtr : ℕ → Xcomm.WrappedType (Plain.size V)) : Inv keyArraySz valArraySz .empty
      (XArray.ofBlocks keyArraySz valArraySz keyPtr valPtr, ([] : List (K × V))) where
  holds := .ofBlocks keyArraySz valArraySz keyPtr valPtr
  log := rfl
  keyArraySz := rfl
  valArraySz := rfl

variable {σ σ' : Logged K V} {keyArraySz valArraySz : ℕ} {e : K × V}

namespace Inv

omit [BoundedOrder K] in
theorem room_iff [Plain K] (hs : Plain.size K = 8) (h : Inv keyArraySz valArraySz s σ) :
    s.length < XArray.room keyArraySz valArraySz V ↔ σ.1.KeyFits ∧ σ.1.ValFits := by
  unfold XArray.KeyFits XArray.ValFits
  rw [hs, ← XArray.memRefusal_none_iff, h.holds.memRefusal_none_iff, h.keyArraySz, h.valArraySz]

theorem next (h : Inv keyArraySz valArraySz s σ) (hlen : s.length ≤ 2 ^ 31) (e : K × V) :
    ∃ σ', Logged.step σ e = some σ' ∧
      Inv keyArraySz valArraySz (s.take (XArray.room keyArraySz valArraySz V) e) σ' := by
  obtain ⟨a', r, hins, hholds, hr, -, hkeySz, hvalSz⟩ := h.holds.insert (k := e.1) hlen e.2
  rw [h.keyArraySz, h.valArraySz] at hholds hr
  refine ⟨(a', if r then σ.2 ++ [e] else σ.2), by simp [Logged.step, hins], hholds, ?_,
    hkeySz.trans h.keyArraySz, hvalSz.trans h.valArraySz⟩
  by_cases htaken : s.Above e.1 ∧ s.length < XArray.room keyArraySz valArraySz V
  · rw [Ascending.take_of_taken htaken, if_pos (hr.mpr htaken), h.log]
    rfl
  · rw [Ascending.take_of_dropped htaken, if_neg (fun htrue => htaken (hr.mp htrue)), h.log]

theorem insertOk [Plain K] (hs : Plain.size K = 8) (h : Inv keyArraySz valArraySz s σ)
    (hlen : s.length ≤ 2 ^ 31) (e : K × V) : InsertOk σ e := by
  obtain ⟨a', r, hins, -, hr, hsame, -, -⟩ := h.holds.insert (k := e.1) hlen e.2
  rw [h.keyArraySz, h.valArraySz, h.holds.above_iff, h.room_iff hs] at hr
  exact ⟨a', r, hins, hr, hsame⟩

theorem reached {es : List (K × V)} (hrun : run Logged.step es σ = some σ')
    (h : Inv keyArraySz valArraySz s σ) (hlen : s.length ≤ 2 ^ 31 + 1) :
    ∃ s', Inv keyArraySz valArraySz s' σ' ∧ s'.length ≤ 2 ^ 31 + 1 := by
  refine run_invariant
    (fun σ : Logged K V => ∃ s, Inv keyArraySz valArraySz s σ ∧ s.length ≤ 2 ^ 31 + 1)
    ?_ hrun ⟨s, h, hlen⟩
  intro σ e σ' hstep hinv
  obtain ⟨s, h, hlen⟩ := hinv
  by_cases hle : s.length ≤ 2 ^ 31
  · obtain ⟨σ₁, hstep₁, hinv⟩ := h.next hle e
    obtain rfl := Option.some.inj (hstep₁.symm.trans hstep)
    have hgrow := s.length_take_ge (XArray.room keyArraySz valArraySz V) e
    exact ⟨_, hinv, by omega⟩
  · rw [Logged.step, h.holds.insert_raises (by omega)] at hstep
    cases hstep

/-- At 2^31 entries at most, the array is a sorted map. -/
theorem sortedMap (h : Inv keyArraySz valArraySz s σ) (hlen : s.length ≤ 2 ^ 31) :
    SortedMap σ where
  ascending := by
    rw [h.holds.storedKeys]
    exact Ascending.keys_ascending
  get k v := by rw [h.log, h.holds.get_eq_some_iff hlen]
  iter := by
    have hy := h.holds.yields hlen 0
    rw [List.drop_zero] at hy
    rw [h.log]
    exact hy

/-- With one entry more its last one is not found. -/
theorem not_sortedMap (h : Inv keyArraySz valArraySz s σ) (hlen : s.length = 2 ^ 31 + 1) :
    ¬ SortedMap σ := by
  intro hmap
  obtain ⟨x, hx, hnone⟩ := h.holds.get_last hlen
  have hsome : σ.1.get x.1 = some x.2 := by
    rw [hmap.get, h.log]
    exact hx
  rw [hnone] at hsome
  cases hsome

theorem run_iff [Plain K] (hs : Plain.size K = 8) (h : Inv keyArraySz valArraySz s σ)
    (hlen : s.length ≤ 2 ^ 31) (es : List (K × V)) :
    AllSteps Logged.step InsertOk es σ ∧ AllStates Logged.step SortedMap es σ ↔
      (s.takeAll (XArray.room keyArraySz valArraySz V) es).length ≤ 2 ^ 31 := by
  induction es generalizing s σ with
  | nil => exact iff_of_true ⟨trivial, h.sortedMap hlen⟩ hlen
  | cons e es ih =>
    have hok := h.insertOk hs hlen e
    obtain ⟨σ', hstep, hinv⟩ := h.next hlen e
    rw [AllSteps.cons_iff hstep, AllStates.cons_iff hstep]
    have hmap := h.sortedMap hlen
    have hgrow := s.length_take_ge (XArray.room keyArraySz valArraySz V) e
    by_cases hlen' : (s.take (XArray.room keyArraySz valArraySz V) e).length ≤ 2 ^ 31
    · have hrest := ih hinv hlen'
      constructor
      · intro hall
        exact hrest.mp ⟨hall.1.2, hall.2.2⟩
      · intro hle
        obtain ⟨hsteps, hstates⟩ := hrest.mpr hle
        exact ⟨⟨hok, hsteps⟩, hmap, hstates⟩
    · constructor
      · intro hall
        exact absurd hall.2.2.head (hinv.not_sortedMap (by omega))
      · intro hle
        apply absurd _ hlen'
        exact Nat.le_trans (Ascending.length_takeAll_le _ _ es) hle

end Inv
end Logged

/-- Every sequence of inserts over two blocks makes a sorted map of its accepted entries, in
every state on the way, exactly if these are at most 2^31. -/
theorem XArray.sorted_map_iff [Plain K] (hs : Plain.size K = 8) (keyArraySz valArraySz : ℕ)
    (keyPtr : ℕ → K) (valPtr : ℕ → Xcomm.WrappedType (Plain.size V)) (es : List (K × V)) :
    AllSteps Logged.step Logged.InsertOk es (ofBlocks keyArraySz valArraySz keyPtr valPtr, []) ∧
      AllStates Logged.step Logged.SortedMap es
        (ofBlocks keyArraySz valArraySz keyPtr valPtr, []) ↔
    (Ascending.empty.takeAll (room keyArraySz valArraySz V) es).length ≤ 2 ^ 31 :=
  (Logged.Inv.ofBlocks keyArraySz valArraySz keyPtr valPtr).run_iff hs (Nat.zero_le _) es

/-- Four of these six inserts are accepted. -/
theorem XArray.sorted_map_four :
    AllSteps Logged.step Logged.InsertOk
        [((3 : XKey), (30 : XKey)), (5, 50), (5, 51), (7, 70), (4, 40), (9, 90)]
        (ofBlocks 32 256 (fun _ => 0) (fun _ => .init (fun _ => 0)), []) ∧
      AllStates Logged.step Logged.SortedMap
        [((3 : XKey), (30 : XKey)), (5, 50), (5, 51), (7, 70), (4, 40), (9, 90)]
        (ofBlocks 32 256 (fun _ => 0) (fun _ => .init (fun _ => 0)), []) :=
  (sorted_map_iff rfl 32 256 _ _ _).mpr (by decide)

/-- More than 2^31 keys in blocks of a terabyte each: they are all accepted, and the array is
no sorted map any more. -/
theorem firstKeys_not_sorted {n : ℕ} (hlo : 2 ^ 31 < n) (hhi : n ≤ 2 ^ 34) (keyPtr : ℕ → XKey)
    (valPtr : ℕ → Xcomm.WrappedType (Plain.size XKey)) :
    ¬ (AllSteps Logged.step Logged.InsertOk (firstKeys n)
        (XArray.ofBlocks (2 ^ 40) (2 ^ 40) keyPtr valPtr, []) ∧
      AllStates Logged.step Logged.SortedMap (firstKeys n)
        (XArray.ofBlocks (2 ^ 40) (2 ^ 40) keyPtr valPtr, [])) := by
  have hroom : XArray.room (2 ^ 40) (2 ^ 40) XKey = 2 ^ 34 := by decide
  have hlen : (firstKeys n).length = n := by rw [firstKeys, List.length_map, List.length_range]
  have hall : (Ascending.empty.takeAll (2 ^ 34) (firstKeys n)).entries = [] ++ firstKeys n :=
    Ascending.takeAll_entries (firstKeys_ascending (by omega)) (by
      rw [Ascending.length_empty, hlen]
      omega)
  intro hrun
  have hle := ((Logged.Inv.ofBlocks (2 ^ 40) (2 ^ 40) keyPtr valPtr).run_iff rfl
    (Nat.zero_le _) (firstKeys n)).mp hrun
  rw [hroom, Ascending.length, hall, List.nil_append, hlen] at hle
  omega

theorem XArray.not_sorted_map :
    ¬ (AllSteps Logged.step Logged.InsertOk (firstKeys (2 ^ 31 + 1))
        (ofBlocks (2 ^ 40) (2 ^ 40) (fun _ => 0) (fun _ => .init (fun _ => 0)), []) ∧
      AllStates Logged.step Logged.SortedMap (firstKeys (2 ^ 31 + 1))
        (ofBlocks (2 ^ 40) (2 ^ 40) (fun _ => 0) (fun _ => .init (fun _ => 0)), [])) :=
  firstKeys_not_sorted (by omega) (by omega) _ _

end XStore.Xkv
