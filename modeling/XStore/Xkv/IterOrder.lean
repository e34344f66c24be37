import XStore.Xkv.Chain
import XStore.Xkv.Walk
import Mathlib.Data.Finset.Max

/-! What the iterators yield: every key of the chain once, leaf by leaf, and in ascending
order for the sorted one. -/
namespace XStore.Xkv
open XStore.Lib
variable {N : ℕ} {K V : Type} [LinearOrder K] [BoundedOrder K]

structure Arranges (load : Load N K) : Prop where
  loads : LoadsKeys load
  perm : ∀ ks : XNodeKeys N K, (List.ofFn (load none ks).keys).Perm (List.ofFn ks.keys)

omit [LinearOrder K] [BoundedOrder K] in
theorem XTreeIter.arranges : Arranges (XTreeIter.load : Load N K) :=
  ⟨fun _ _ => rfl, fun _ => List.Perm.refl _⟩

theorem XTreeSIter.ofFn_load [StdSort] (ks : XNodeKeys N K) :
    List.ofFn (XTreeSIter.load none ks).keys =
      StdSort.sort (fun a b => KeyType.lt a b) (List.ofFn ks.keys) := by
  refine List.ext_getElem ?_ ?_
  · rw [List.length_ofFn, StdSort.length_sort, List.length_ofFn]
  · intro i hi hi'
    simp [XTreeSIter.load]

theorem XTreeSIter.arranges [StdSort] : Arranges (XTreeSIter.load : Load N K) :=
  ⟨fun _ _ => rfl, fun ks => by rw [XTreeSIter.ofFn_load]; exact StdSort.perm _ _⟩

theorem XTreeSIter.sorted [StdSort] (ks : XNodeKeys N K) :
    (List.ofFn (XTreeSIter.load none ks).keys).Pairwise (fun a b => a ≤ b) := by
  rw [XTreeSIter.ofFn_load]
  exact StdSort.sorted_key (fun a : K => a) _

section Places
variable {load : Load N K} {m : Mem N K V} {p : Ptr} {ps : List Ptr}

theorem placesFrom_keys (keys : Fin N → K) :
    (placesFrom keys p 0).map (fun x => x.2.2) =
      (List.ofFn keys).filter (fun k => decide (k ≠ ⊤)) := by
  rw [List.ofFn_eq_map, List.filter_map, placesFrom, List.drop_zero, List.map_map]
  rfl

theorem entries_keys (n : XNode N K V) : n.entries.map Prod.fst =
    ↑((List.ofFn n.keys.keys).filter (fun k => decide (k ≠ ⊤))) := by
  rw [List.ofFn_eq_map, List.filter_map, ← Multiset.map_coe, XNode.entries, Multiset.map_map]
  rfl

/-- The places of a leaf hold its keys, each once. -/
theorem places_keys (hload : Arranges load) :
    ↑((places load m p).map (fun x => x.2.2)) = (m p).entries.map Prod.fst := by
  rw [places, placesFrom_keys, entries_keys]
  exact Multiset.coe_eq_coe.mpr ((hload.perm _).filter _)

theorem length_places (hload : Arranges load) :
    (places load m p).length = (m p).entries.card := by
  have hkeys := congrArg Multiset.card (places_keys (m := m) (p := p) hload)
  simpa using hkeys

theorem places_ne_nil (hload : Arranges load) (h : 1 ≤ (m p).entries.card) :
    places load m p ≠ [] := by
  rw [← length_places hload] at h
  exact List.ne_nil_of_length_pos h

theorem mem_places {x : Place K} (hx : x ∈ places load m p) :
    x.1 = p ∧ x.2.1 < N ∧ x.2.2 ≠ ⊤ := by
  obtain ⟨i, hi, rfl⟩ := (mem_placesFrom _ _ _).mp hx
  exact ⟨rfl, i.2, hi⟩

theorem mem_places_entry (hload : Arranges load) {x : Place K} (hx : x ∈ places load m p) :
    ∃ e ∈ (m p).entries, e.1 = x.2.2 := by
  have hmem : x.2.2 ∈ (m p).entries.map Prod.fst := by
    rw [← places_keys hload]
    exact Multiset.mem_coe.mpr (List.mem_map_of_mem hx)
  exact Multiset.mem_map.mp hmem

theorem chain_keys (hload : Arranges load) (m : Mem N K V) (ps : List Ptr) :
    ↑((ps.flatMap (places load m)).map (fun x => x.2.2)) = (entriesOf m ps).map Prod.fst := by
  induction ps with
  | nil => rfl
  | cons p ps ih =>
    rw [List.flatMap_cons, List.map_append, ← Multiset.coe_add, ih, places_keys hload,
      entriesOf_cons, Multiset.map_add]

theorem chain_length (hload : Arranges load) :
    (ps.flatMap (places load m)).length = (entriesOf m ps).card := by
  have h := congrArg Multiset.card (chain_keys hload m ps)
  simpa using h

theorem Chain.places_ordered (hload : Arranges load) (h : Chain m ps) :
    (ps.flatMap (places load m)).Pairwise (fun x y => x.1 = y.1 ∨ x.2.2 < y.2.2) := by
  refine List.pairwise_flatMap.mpr ⟨fun p _ => ?_, h.ordered.imp ?_⟩
  · refine List.pairwise_of_forall_mem_list (fun x hx y hy => ?_)
    exact Or.inl ((mem_places hx).1.trans (mem_places hy).1.symm)
  · intro p q hlt x hx y hy
    obtain ⟨e, he, hex⟩ := mem_places_entry hload hx
    obtain ⟨f, hf, hfy⟩ := mem_places_entry hload hy
    rw [← hex, ← hfy]
    exact Or.inr (hlt e he f hf)

theorem Chain.places_sorted [StdSort] (h : Chain m ps) :
    ((ps.flatMap (places XTreeSIter.load m)).map (fun x => x.2.2)).Pairwise (fun a b => a < b) := by
  rw [List.pairwise_map]
  refine List.pairwise_flatMap.mpr ⟨fun p hp => ?_, h.ordered.imp ?_⟩
  · rw [← List.pairwise_map (f := fun x : Place K => x.2.2) (R := fun a b => a < b)]
    have hle : ((places XTreeSIter.load m p).map (fun x => x.2.2)).Pairwise
        (fun a b => a ≤ b) := by
      rw [places, placesFrom_keys]
      exact (XTreeSIter.sorted _).filter _
    have hnd : ((places XTreeSIter.load m p).map (fun x => x.2.2)).Nodup := by
      rw [← Multiset.coe_nodup, places_keys XTreeSIter.arranges]
      exact h.distinct p hp
    exact (hle.and hnd).imp (fun h => lt_of_le_of_ne h.1 h.2)
  · intro p q hlt x hx y hy
    obtain ⟨e, he, hex⟩ := mem_places_entry XTreeSIter.arranges hx
    obtain ⟨f, hf, hfy⟩ := mem_places_entry XTreeSIter.arranges hy
    rw [← hex, ← hfy]
    exact hlt e he f hf

end Places

section Iterate
variable {load : Load N K} {m : Mem N K V} {p : Ptr} {ps : List Ptr} {t : XTree K} {k : K}

def NodeIter.readCounted (it : NodeIter N K) : Res (K × ℕ) := do
  let k ← it.curKey
  pure (k, it.opaqueVal)

def NodeIter.readLeaf (it : NodeIter N K) : Res (K × Option Ptr) := do
  let k ← it.curKey
  pure (k, it.curNodePtr)

theorem Chain.seek (hload : Arranges load) (h : Chain m (p :: ps))
    (hfind : t.findLeaf k = .ok (some p)) (it : NodeIter N K) :
    ∃ it', it.seek load m t k = .ok it' ∧ it'.counter = 0 ∧
      Walk load m it' ((p :: ps).flatMap (places load m)) :=
  Walk.of_seek hload.loads hfind h.linked
    (fun q hq => places_ne_nil hload (h.occupied q hq))

theorem Walk.take_all (hload : Arranges load) {it : NodeIter N K} {xs : List (Place K)}
    (h : Walk load m it xs) (hc : it.counter = 0) {α : Type} {read : NodeIter N K → Res α}
    {f : ℕ → Place K → α}
    (hread : ∀ it x xs, Walk load m it (x :: xs) → read it = .ok (f it.counter x)) :
    ∃ it', it.take load m read xs.length = .ok (xs.mapIdx f, it') ∧ it'.hasNext = false := by
  rw [← List.append_nil xs] at h
  obtain ⟨it', htake, hdone⟩ := Walk.take hload.loads hread xs h
  refine ⟨it', ?_, by simp [NodeIter.hasNext, hdone.nil]⟩
  simpa [hc] using htake

theorem Walk.readCounted {it : NodeIter N K} {x : Place K} {xs : List (Place K)}
    (h : Walk load m it (x :: xs)) : it.readCounted = .ok (x.2.2, it.counter) := by
  obtain ⟨p, i, k⟩ := x
  obtain ⟨-, -, -, -, hkey⟩ := h.head
  simp [NodeIter.readCounted, hkey, NodeIter.opaqueVal]

theorem Walk.readLeaf {it : NodeIter N K} {x : Place K} {xs : List (Place K)}
    (h : Walk load m it (x :: xs)) : it.readLeaf = .ok (x.2.2, some x.1) := by
  obtain ⟨p, i, k⟩ := x
  obtain ⟨-, hptr, -, -, hkey⟩ := h.head
  simp [NodeIter.readLeaf, hkey, hptr]

/-- Sorted iteration over a chain: its keys in ascending order, counted from 0. -/
theorem Chain.sorted_iter [StdSort] (h : Chain m (p :: ps))
    (hfind : t.findLeaf k = .ok (some p)) (it : NodeIter N K) :
    ∃ it₁ l it₂, XTreeSIter.seek m t k it = .ok it₁ ∧
      it₁.take XTreeSIter.load m NodeIter.readCounted (entriesOf m (p :: ps)).card = .ok (l, it₂) ∧
      it₂.hasNext = false ∧ (l.map Prod.fst).Pairwise (fun a b => a < b) ∧
      ↑(l.map Prod.fst) = (entriesOf m (p :: ps)).map Prod.fst ∧
      l.map Prod.snd = List.range l.length := by
  obtain ⟨it₁, hseek, hc, hwalk⟩ := h.seek XTreeSIter.arranges hfind it
  obtain ⟨it₂, htake, hend⟩ := hwalk.take_all XTreeSIter.arranges hc
    (f := fun j x => (x.2.2, j)) (fun it x xs hw => hw.readCounted)
  rw [chain_length XTreeSIter.arranges] at htake
  set xs := (p :: ps).flatMap (places XTreeSIter.load m) with hxs
  have hkeys : (xs.mapIdx (fun j x => (x.2.2, j))).map Prod.fst = xs.map (fun x => x.2.2) :=
    List.ext_getElem (by simp) (by simp)
  refine ⟨it₁, _, it₂, hseek, htake, hend, ?_, ?_, ?_⟩
  · rw [hkeys]
    exact h.places_sorted
  · rw [hkeys]
    exact chain_keys XTreeSIter.arranges _ _
  · exact List.ext_getElem (by simp) (by simp)

/-- Unsorted iteration over a chain: the same keys, leaf after leaf. -/
theorem Chain.leaf_iter (h : Chain m (p :: ps)) (hfind : t.findLeaf k = .ok (some p))
    (it : NodeIter N K) :
    ∃ it₁ l it₂, XTreeIter.seek m t k it = .ok it₁ ∧
      it₁.take XTreeIter.load m NodeIter.readLeaf (entriesOf m (p :: ps)).card = .ok (l, it₂) ∧
      it₂.hasNext = false ∧ ↑(l.map Prod.fst) = (entriesOf m (p :: ps)).map Prod.fst ∧
      (∀ x ∈ l, ∃ q ∈ p :: ps, x.2 = some q ∧ x.1 ∈ (m q).entries.map Prod.fst) ∧
      l.Pairwise (fun x y => x.2 = y.2 ∨ x.1 < y.1) := by
  obtain ⟨it₁, hseek, hc, hwalk⟩ := h.seek XTreeIter.arranges hfind it
  obtain ⟨it₂, htake, hend⟩ := hwalk.take_all XTreeIter.arranges hc
    (f := fun _ x => (x.2.2, some x.1)) (fun it x xs hw => hw.readLeaf)
  rw [chain_length XTreeIter.arranges] at htake
  set xs := (p :: ps).flatMap (places XTreeIter.load m) with hxs
  have hmap : xs.mapIdx (fun _ x => (x.2.2, some x.1)) = xs.map (fun x => (x.2.2, some x.1)) :=
    List.ext_getElem (by simp) (by simp)
  rw [hmap] at htake
  refine ⟨it₁, _, it₂, hseek, htake, hend, ?_, ?_, ?_⟩
  · rw [List.map_map]
    exact chain_keys XTreeIter.arranges _ _
  · intro x hx
    obtain ⟨y, hy, rfl⟩ := List.mem_map.mp hx
    obtain ⟨q, hq, hy⟩ := List.mem_flatMap.mp hy
    obtain ⟨e, he, hey⟩ := mem_places_entry XTreeIter.arranges hy
    exact ⟨q, hq, by rw [(mem_places hy).1], hey ▸ Multiset.mem_map_of_mem Prod.fst he⟩
  · rw [List.pairwise_map]
    refine (h.places_ordered XTreeIter.arranges).imp (fun hxy => ?_)
    cases hxy with
    | inl heq => exact Or.inl (by rw [heq])
    | inr hlt => exact Or.inr hlt

end Iterate

theorem Built.walk [StdSort] [Inhabited V] (hN : 2 ≤ N) {w : World N K V TrivalAlloc}
    {ops : List (K × V)} (hw : Built w ops) :
    ∃ it xs, XTreeIter.ofTree w.mem w.tree = .ok it ∧ Walk XTreeIter.load w.mem it xs ∧
      (xs.map (fun x => x.2.2)).Perm (ops.map Prod.fst) := by
  obtain ⟨root, h⟩ := hw.inv hN
  obtain ⟨p, after, hfind, -, hchain, hentries⟩ := h.enter_bot hN
  obtain ⟨it, hseek, -, hwalk⟩ := hchain.seek XTreeIter.arranges hfind .init
  refine ⟨it, _, hseek, hwalk, ?_⟩
  rw [← Multiset.coe_eq_coe, chain_keys XTreeIter.arranges, hentries, Multiset.map_coe]

theorem XNode.mem_keys (n : XNode N K V) (x : K) :
    x ∈ n.entries.map Prod.fst ↔ ∃ slot, n.getKey slot = x ∧ x ≠ ⊤ := by
  simp only [Multiset.mem_map, n.mem_entries]
  constructor
  · rintro ⟨e, ⟨i, hi, rfl⟩, rfl⟩
    exact ⟨i, rfl, hi⟩
  · rintro ⟨i, rfl, hi⟩
    exact ⟨_, ⟨i, hi, rfl⟩, rfl⟩

theorem XNode.exists_least (n : XNode N K V) (h : 1 ≤ n.entries.card) :
    ∃ s, IsLeast {x | ∃ slot, n.getKey slot = x ∧ x ≠ ⊤} s := by
  obtain ⟨e, he⟩ := Multiset.card_pos_iff_exists_mem.mp h
  have hne : (n.entries.map Prod.fst).toFinset.Nonempty :=
    ⟨e.1, Multiset.mem_toFinset.mpr (Multiset.mem_map_of_mem Prod.fst he)⟩
  obtain ⟨s, hs, hle⟩ := (n.entries.map Prod.fst).toFinset.exists_min_image id hne
  refine ⟨s, (n.mem_keys s).mp (Multiset.mem_toFinset.mp hs), fun x hx => ?_⟩
  exact hle x (Multiset.mem_toFinset.mpr ((n.mem_keys x).mpr hx))

/-- Where a chain is cut, the keys behind the cut are those from the least one of the first
leaf there on. -/
theorem Chain.keys_from {m : Mem N K V} {before after : List Ptr} {p : Ptr} {s : K}
    (h : Chain m (before ++ p :: after))
    (hs : IsLeast {x | ∃ slot, (m p).getKey slot = x ∧ x ≠ ⊤} s) (x : K) :
    x ∈ (entriesOf m (p :: after)).map Prod.fst ↔
      x ∈ (entriesOf m (before ++ p :: after)).map Prod.fst ∧ s ≤ x := by
  have hp := h.of_append before
  obtain ⟨e₀, he₀, rfl⟩ := Multiset.mem_map.mp (((m p).mem_keys s).mpr hs.1)
  rw [entriesOf_append, Multiset.map_add, Multiset.mem_add]
  constructor
  · intro hx
    refine ⟨Or.inr hx, ?_⟩
    obtain ⟨e, he, rfl⟩ := Multiset.mem_map.mp hx
    rw [entriesOf_cons, Multiset.mem_add] at he
    cases he with
    | inl he => exact hs.2 (((m p).mem_keys _).mp (Multiset.mem_map_of_mem Prod.fst he))
    | inr he =>
      obtain ⟨q, hq, he⟩ := (mem_entriesOf e).mp he
      exact ((List.pairwise_cons.mp hp.ordered).1 q hq e₀ he₀ e he).le
  · rintro ⟨hx | hx, hle⟩
    · obtain ⟨e, he, rfl⟩ := Multiset.mem_map.mp hx
      obtain ⟨q, hq, he⟩ := (mem_entriesOf e).mp he
      have hlt := (List.pairwise_append.mp h.ordered).2.2 q hq p (by simp) e he e₀ he₀
      exact absurd hle (not_le.mpr hlt)
    · exact hx

end XStore.Xkv
