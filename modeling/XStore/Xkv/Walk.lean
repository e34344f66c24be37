import XStore.Lib.Linked
import XStore.Xkv.Iter
import XStore.Xkv.XKeys

/-! Where an iterator stands and what it still has to yield. A place is a leaf, a slot of its
loaded keys, and the key there. -/
namespace XStore.Xkv
open XStore.Lib
variable {N : ℕ} {K V : Type} [LinearOrder K] [BoundedOrder K]

abbrev Place (K : Type) := Ptr × ℕ × K

def placesFrom (keys : Fin N → K) (p : Ptr) (idx : ℕ) : List (Place K) :=
  (((List.finRange N).drop idx).filter (fun i => decide (keys i ≠ ⊤))).map
    (fun i => (p, i.val, keys i))

def places (load : Load N K) (m : Mem N K V) (p : Ptr) : List (Place K) :=
  placesFrom (load none (m p).keys).keys p 0

/-- What the keys look like does not depend on what `cur_node` held before. -/
def LoadsKeys (load : Load N K) : Prop := ∀ cur ks, (load cur ks).keys = (load none ks).keys

/-- The iterator stands at the head of the list, the rest of which is still to come. -/
def Walk (load : Load N K) (m : Mem N K V) (it : NodeIter N K) (xs : List (Place K)) : Prop :=
  (∃ ks p rest, ∃ h : it.idx < N, it.curNode = some ks ∧ it.curNodePtr = some p ∧
    it.nextPtr = rest.head? ∧ Linked (fun q => (m q).next) rest ∧
    ks.keys = (load none (m p).keys).keys ∧ ks.keys ⟨it.idx, h⟩ ≠ ⊤ ∧
    (∀ q ∈ rest, places load m q ≠ []) ∧
    xs = placesFrom ks.keys p it.idx ++ rest.flatMap (places load m)) ∨
  it.curNode = none ∧ N ≤ it.idx ∧ xs = []

section Places
variable (keys : Fin N → K) (p : Ptr) (idx : ℕ)

theorem placesFrom_end (h : N ≤ idx) : placesFrom keys p idx = [] := by
  simp [placesFrom, List.drop_eq_nil_of_le, h]

theorem placesFrom_drop (h : idx < N) : (List.finRange N).drop idx =
    ⟨idx, h⟩ :: (List.finRange N).drop (idx + 1) := by
  rw [List.drop_eq_getElem_cons (by simpa using h)]
  simp

theorem placesFrom_skip (h : idx < N) (hk : keys ⟨idx, h⟩ = ⊤) :
    placesFrom keys p idx = placesFrom keys p (idx + 1) := by
  simp [placesFrom, placesFrom_drop idx h, hk]

theorem placesFrom_cons (h : idx < N) (hk : keys ⟨idx, h⟩ ≠ ⊤) :
    placesFrom keys p idx = (p, idx, keys ⟨idx, h⟩) :: placesFrom keys p (idx + 1) := by
  simp [placesFrom, placesFrom_drop idx h, hk]

theorem mem_placesFrom (x : Place K) : x ∈ placesFrom keys p 0 ↔
    ∃ i, keys i ≠ ⊤ ∧ x = (p, i.val, keys i) := by
  simp only [placesFrom, List.drop_zero, List.mem_map, List.mem_filter, List.mem_finRange,
    decide_eq_true_eq, true_and]
  exact exists_congr (fun i => and_congr_right (fun _ => eq_comm))

end Places

/-- The loop of `seek_idx` stops at the next occupied slot, or at `N`. -/
theorem skipHoles_spec (node : XNodeKeys N K) (p : Ptr) (n idx : ℕ) (hn : N ≤ idx + n)
    (hidx : idx ≤ N) :
    idx ≤ NodeIter.skipHoles node n idx ∧ NodeIter.skipHoles node n idx ≤ N ∧
      placesFrom node.keys p (NodeIter.skipHoles node n idx) = placesFrom node.keys p idx ∧
      ∀ h : NodeIter.skipHoles node n idx < N,
        node.keys ⟨NodeIter.skipHoles node n idx, h⟩ ≠ ⊤ := by
  induction n generalizing idx with
  | zero => exact ⟨le_rfl, hidx, rfl, fun h => absurd h (by simp [NodeIter.skipHoles]; omega)⟩
  | succ n ih =>
    by_cases h : idx < N
    · by_cases hk : node.keys ⟨idx, h⟩ = ⊤
      · have hstep : NodeIter.skipHoles node (n + 1) idx = NodeIter.skipHoles node n (idx + 1) := by
          simp [NodeIter.skipHoles, h, XNodeKeys.getKey, hk]
        rw [hstep, placesFrom_skip _ _ _ h hk]
        obtain ⟨hle, hrest⟩ := ih (idx + 1) (by omega) (by omega)
        exact ⟨by omega, hrest⟩
      · have hstop : NodeIter.skipHoles node (n + 1) idx = idx := by
          simp [NodeIter.skipHoles, XNodeKeys.getKey, hk]
        rw [hstop]
        exact ⟨le_rfl, hidx, rfl, fun _ => hk⟩
    · have hstop : NodeIter.skipHoles node (n + 1) idx = idx := by
        simp [NodeIter.skipHoles, h]
      rw [hstop]
      exact ⟨le_rfl, hidx, rfl, fun h' => absurd h' h⟩

theorem seekIdx_spec (it : NodeIter N K) {ks : XNodeKeys N K} (hnode : it.curNode = some ks)
    (hidx : it.idx ≤ N) (p : Ptr) :
    ∃ j, it.seekIdx = .ok { it with idx := j } ∧ j ≤ N ∧
      placesFrom ks.keys p j = placesFrom ks.keys p it.idx ∧
      ∀ h : j < N, ks.keys ⟨j, h⟩ ≠ ⊤ := by
  by_cases h : it.idx < N
  · obtain ⟨-, hN, hp, hne⟩ := skipHoles_spec ks p N it.idx (by omega) hidx
    exact ⟨_, by simp [NodeIter.seekIdx, h, hnode], hN, hp, hne⟩
  · exact ⟨it.idx, by simp [NodeIter.seekIdx, h], hidx, rfl, fun h' => absurd h' h⟩

namespace Walk
variable {load : Load N K} {m : Mem N K V} {it : NodeIter N K} {xs : List (Place K)}
  {p : Ptr} {i : ℕ} {k : K}

theorem nil (h : Walk load m it []) : it.curNode = none := by
  rcases h with ⟨ks, p, rest, hlt, -, -, -, -, -, hk, -, hxs⟩ | ⟨hnone, -, -⟩
  · rw [placesFrom_cons _ _ _ hlt hk] at hxs
    cases hxs
  · exact hnone

theorem head (h : Walk load m it ((p, i, k) :: xs)) :
    it.hasNext = true ∧ it.curNodePtr = some p ∧ it.idx = i ∧ i < N ∧ it.curKey = .ok k := by
  rcases h with ⟨ks, q, rest, hlt, hnode, hptr, -, -, -, hk, -, hxs⟩ | ⟨-, -, hxs⟩
  · rw [placesFrom_cons _ _ _ hlt hk, List.cons_append, List.cons.injEq, Prod.mk.injEq,
      Prod.mk.injEq] at hxs
    obtain ⟨⟨rfl, rfl, rfl⟩, -⟩ := hxs
    refine ⟨by simp [NodeIter.hasNext, hnode], hptr, rfl, hlt, ?_⟩
    simp [NodeIter.curKey, hnode, hlt, XNodeKeys.getKey]
  · cases hxs

theorem of_read (hload : LoadsKeys load) (it : NodeIter N K) {ps : List Ptr}
    (hl : Linked (fun q => (m q).next) (p :: ps)) (hne : ∀ q ∈ p :: ps, places load m q ≠ [])
    (c : ℕ) :
    ∃ it', ({ it.readFrom load m (some p) with idx := 0, counter := c }).seekIdx = .ok it' ∧
      it'.idx ≠ N ∧ it'.counter = c ∧ it'.curNode ≠ none ∧
      ∀ c', Walk load m { it' with counter := c' } ((p :: ps).flatMap (places load m)) := by
  have hkeys := hload it.curNode (m p).keys
  obtain ⟨j, hseek, hjN, hplaces, hk⟩ := seekIdx_spec
    { it.readFrom load m (some p) with idx := 0, counter := c } rfl (Nat.zero_le N) p
  have hj : j < N := by
    refine lt_of_le_of_ne hjN (fun hj => hne p (by simp) ?_)
    rw [places, ← hkeys, ← hplaces, placesFrom_end _ _ _ hj.ge]
  refine ⟨_, hseek, hj.ne, rfl, by simp [NodeIter.readFrom], fun c' =>
    Or.inl ⟨_, p, ps, hj, rfl, rfl, hl.1, hl.2, hkeys, hk hj,
      fun q hq => hne q (List.mem_cons_of_mem p hq), ?_⟩⟩
  rw [hplaces, List.flatMap_cons, places, hkeys]

theorem next (hload : LoadsKeys load) {x : Place K} (h : Walk load m it (x :: xs)) :
    ∃ it', it.next load m = .ok it' ∧ Walk load m it' xs ∧
      (xs ≠ [] → it'.counter = it.counter + 1) := by
  rcases h with ⟨ks, q, rest, hlt, hnode, hptr, hnext, hlink, hkeys, hk, hne, hxs⟩ | ⟨-, -, hxs⟩
  · rw [placesFrom_cons _ _ _ hlt hk, List.cons_append, List.cons.injEq] at hxs
    obtain ⟨-, rfl⟩ := hxs
    obtain ⟨j, hseek, hjN, hplaces, hkj⟩ := seekIdx_spec
      { it with idx := it.idx + 1 } hnode hlt q
    simp only at hplaces
    unfold NodeIter.next
    simp only [hseek, ok_bind]
    rcases hjN.lt_or_eq with hj | rfl
    · -- another key of the same leaf
      rw [if_pos hj.ne]
      refine ⟨_, rfl, Or.inl ⟨ks, q, rest, hj, hnode, hptr, hnext, hlink, hkeys, hkj hj, hne, ?_⟩,
        fun _ => rfl⟩
      rw [hplaces]
    · rw [if_neg (by simp), ← hplaces, placesFrom_end _ _ _ le_rfl, List.nil_append]
      cases rest with
      | nil =>
        -- the last leaf is done
        simp only [hnext, List.head?_nil, NodeIter.readFrom, NodeIter.hasNext,
          Option.isSome_none, Bool.false_eq_true, if_false, pure_eq_ok, Except.ok.injEq]
        exact ⟨_, rfl, Or.inr ⟨rfl, le_rfl, rfl⟩, by simp⟩
      | cons p ps =>
        -- on to the next leaf
        obtain ⟨it', hseek', -, hc, -, hwalk⟩ := of_read hload { it with idx := j }
          hlink hne it.counter
        simp only [hnext, List.head?_cons, NodeIter.readFrom, NodeIter.hasNext,
          Option.isSome_some, if_true] at hseek' ⊢
        rw [hseek']
        exact ⟨_, rfl, hwalk _, fun _ => by rw [hc]⟩
  · cases hxs

theorem next_nil (h : Walk load m it []) :
    ∃ it', it.next load m = .ok it' ∧ Walk load m it' [] := by
  have hnone := h.nil
  rcases h with ⟨ks, -, -, -, hnode, -⟩ | ⟨-, hidx, -⟩
  · rw [hnone] at hnode
    cases hnode
  · have hlt : ¬ it.idx + 1 < N := by omega
    have hne : it.idx + 1 ≠ N := by omega
    refine ⟨{ it with idx := it.idx + 1, counter := it.counter + 1 }, ?_,
      Or.inr ⟨hnone, by simp only; omega, rfl⟩⟩
    simp [NodeIter.next, NodeIter.seekIdx, hlt, hne]

theorem of_seek (hload : LoadsKeys load) {t : XTree K} {ps : List Ptr}
    (hfind : t.findLeaf k = .ok (some p)) (hl : Linked (fun q => (m q).next) (p :: ps))
    (hne : ∀ q ∈ p :: ps, places load m q ≠ []) :
    ∃ it', it.seek load m t k = .ok it' ∧ it'.counter = 0 ∧
      Walk load m it' ((p :: ps).flatMap (places load m)) := by
  obtain ⟨it', hseek, hN, hc, -, hwalk⟩ := of_read hload it hl hne 0
  refine ⟨it', ?_, hc, by simpa using hwalk it'.counter⟩
  simp only [NodeIter.seek, hfind, ok_bind] at hseek ⊢
  rw [hseek]
  simp [hN]

/-- Reading and stepping on as often as there are places yields them in order. -/
theorem take (hload : LoadsKeys load) {α : Type} {read : NodeIter N K → Res α}
    {f : ℕ → Place K → α}
    (hread : ∀ it x xs, Walk load m it (x :: xs) → read it = .ok (f it.counter x))
    (ys : List (Place K)) (h : Walk load m it (ys ++ xs)) :
    ∃ it', it.take load m read ys.length =
        .ok (ys.mapIdx (fun j x => f (it.counter + j) x), it') ∧ Walk load m it' xs := by
  induction ys generalizing it with
  | nil => exact ⟨it, rfl, h⟩
  | cons y ys ih =>
    obtain ⟨it₁, hnext, hwalk, hc⟩ := h.next hload
    obtain ⟨it', htake, hwalk'⟩ := ih hwalk
    refine ⟨it', ?_, hwalk'⟩
    rw [List.length_cons, NodeIter.take, hread it y (ys ++ xs) h, ok_bind, hnext, ok_bind, htake]
    simp only [ok_bind, pure_eq_ok, List.mapIdx_cons, Nat.add_zero]
    cases ys with
    | nil => rfl
    | cons z zs =>
      rw [hc (by simp)]
      congr 4
      funext j x
      congr 1
      omega

end Walk
end XStore.Xkv
