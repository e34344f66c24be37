import XStore.Lib.Runs
import XStore.Xkv.IterOrder
import XStore.Xkv.Stale

/-! An iterator that stays in use while its program inserts into the tree. The calls of the iterator
and the inserts come one after the other, in any order, and none of them is interrupted. The
iterator holds a copy of a leaf, and the link that the leaf had then. -/
namespace XStore.Xkv
open XStore.Lib
variable {N : ℕ} {K V : Type} [LinearOrder K] [BoundedOrder K]

/-- A loop over an iterator, with the keys and the positions that it read so far. Between its rounds
the program inserts. -/
structure LiveScan (N : ℕ) (K V : Type) where
  world : World N K V TrivalAlloc
  iter : NodeIter N K
  yielded : List (K × ℕ)

inductive ScanEvent (K V : Type) where
  | insert (k : K) (v : V)
  | next

def ScanEvent.op : ScanEvent K V → Option (K × V)
  | .insert k v => some (k, v)
  | .next => none

namespace LiveScan
variable [StdSort] [Inhabited V]

/-- One call, from its beginning to its end; without `has_next` the loop is over. -/
def exec (load : Load N K) (s : LiveScan N K V) : ScanEvent K V → Option (Res (LiveScan N K V))
  | .insert k v => some do
    let w ← s.world.insert k v
    pure { s with world := w }
  | .next =>
    if s.iter.hasNext then some do
      let k ← s.iter.curKey
      let it ← s.iter.next load s.world.mem
      pure { s with iter := it, yielded := s.yielded ++ [(k, s.iter.opaqueVal)] }
    else none

/-- A fault ends the run. -/
def step (load : Load N K) (s : LiveScan N K V) (e : ScanEvent K V) : Option (LiveScan N K V) :=
  (s.exec load e).bind Except.toOption

end LiveScan

def Sorts (load : Load N K) : Prop :=
  ∀ ks : XNodeKeys N K, (List.ofFn (load none ks).keys).Pairwise (fun a b => a ≤ b)

def keysOf (xs : List (Place K)) : List K := xs.map (fun x => x.2.2)

/-- The searches for keys below `b` end in the leaves of `before`, the others in those of
`after`. -/
structure Cut (d : ℕ) (root : RawPtr K) (b : K) (before after : List Ptr) : Prop where
  leaves : root.leaves d = before ++ after
  routed : ∀ x, x ≠ ⊤ → ∃ p, XTree.findLeafFrom x d root = .ok p ∧ (x < b → p ∈ before) ∧
    (b ≤ x → p ∈ after)

/-- The iterator holds a copy of the leaf `p`, has the places `rest` of it still to yield, and goes
on to `next`. -/
def Holding (it : NodeIter N K) (p : Ptr) (next : Option Ptr) (rest : List (Place K)) : Prop :=
  (∃ ks, ∃ h : it.idx < N, it.curNode = some ks ∧ it.curNodePtr = some p ∧ it.nextPtr = next ∧
    ks.keys ⟨it.idx, h⟩ ≠ ⊤ ∧ rest = placesFrom ks.keys p it.idx) ∨
  it.curNode = none ∧ next = none ∧ rest = []

/-- `keys` is what there was in the leaves that the scan copied, up to the leaf `p`. `base` is what
the tree held when it began, and `after` are the leaves that it has not copied. -/
structure Covers (load : Load N K) (base ops : Multiset (K × V)) (k : K) (d : ℕ) (root : RawPtr K)
    (keys : List K) (p : Ptr) (b : K) (after : List Ptr) : Prop where
  cut : ∃ before, p ∈ before ∧ Cut d root b before after
  below : ∀ x ∈ keys, x < b
  nodup : keys.Nodup
  sorted : Sorts load → keys.Pairwise (fun a b => a < b)
  known : ∀ x ∈ keys, x ∈ ops.map Prod.fst
  all : ∀ x ∈ base.map Prod.fst, k ≤ x → x < b → x ∈ keys

/-- The scan has read `keys`, and has the places `rest` of its copy of `p` still to yield. -/
structure Reading (load : Load N K) (base ops : Multiset (K × V)) (k : K)
    (w : World N K V TrivalAlloc) (it : NodeIter N K) (keys : List K) (p : Ptr)
    (rest : List (Place K)) : Prop where
  covers : ∃ root b after, WorldInv (fun a b => a < b) w root ops ∧ Holding it p after.head? rest ∧
    Covers load base ops k w.tree.depth root (keys ++ keysOf rest) p b after
  counter : rest ≠ [] → it.counter = keys.length
  base_le : base ≤ ops

section Cuts
variable {m₀ m : Mem N K V} {d₀ d n : ℕ} {root₀ root : RawPtr K} {ops : Multiset (K × V)} {b : K}
  {before after : List Ptr} {p : Ptr} {off : Ptr → List Ptr} {splits : Ptr → ℕ}

omit [LinearOrder K] [BoundedOrder K] in
theorem middle_cases {α : Type} {l₁ l₂ l₁' l₂' : List α} {p q : α}
    (h : l₁ ++ p :: l₂ = l₁' ++ q :: l₂') :
    p = q ∨ (q ∈ l₂ ∧ p ∈ l₁') ∨ (q ∈ l₁ ∧ p ∈ l₂') := by
  rcases List.append_eq_append_iff.mp h with ⟨c, rfl, hc⟩ | ⟨c, rfl, hc⟩
  · cases c with
    | nil => exact Or.inl (List.cons.inj hc).1
    | cons x c =>
      obtain ⟨rfl, rfl⟩ := List.cons.inj hc
      exact Or.inr (Or.inl ⟨by simp, by simp⟩)
  · cases c with
    | nil => exact Or.inl (List.cons.inj hc).1.symm
    | cons x c =>
      obtain ⟨rfl, rfl⟩ := List.cons.inj hc
      exact Or.inr (Or.inr ⟨by simp, by simp⟩)

theorem TreeInv.cut (hN : 2 ≤ N) (h : TreeInv (fun a b => a < b) m d root ops)
    (hleaves : root.leaves d = before ++ p :: after) : ∃ b, Cut d root b (before ++ [p]) after := by
  have hp : p ∈ root.leaves d := by
    rw [hleaves]
    simp
  obtain ⟨e, he⟩ := Multiset.card_pos_iff_exists_mem.mp (h.occupied p hp)
  obtain ⟨R⟩ := h.shape.route hN Bound.lt (Cell.fences _) bot_le
    (lt_top_iff_ne_top.mpr ((m p).entries_ne_top he))
  obtain rfl : R.leaf = p := Except.ok.inj (R.found.symm.trans (h.found hN hp he))
  -- the fences of the leaf are marked, so that the route to another leaf knows them
  have hmark : Shape N (fun a b q => Cell (fun a b => a < b) m a b q ∧
      (q = R.leaf → a = R.a ∧ b = R.b)) 1 d ⊥ ⊤ root := by
    refine R.keep _ (fun a b q hq hcell => ⟨hcell, fun heq => ?_⟩) ⟨R.holds, fun _ => ⟨rfl, rfl⟩⟩
    exact absurd heq (ne_of_nodup_middle (R.leaves_eq ▸ h.nodup) q hq)
  refine ⟨R.b, by rw [hleaves]; simp, fun x hx => ?_⟩
  obtain ⟨S⟩ := hmark.route hN Bound.lt (fun _ _ _ hq => hq.1.1) bot_le
    (lt_top_iff_ne_top.mpr hx)
  have hab : R.a < R.b := R.holds.1
  refine ⟨S.leaf, S.found, fun hlt => ?_, fun hle => ?_⟩
  · rcases middle_cases (hleaves.symm.trans S.leaves_eq) with heq | ⟨-, hq⟩ | ⟨hq, -⟩
    · simp [← heq]
    · obtain ⟨a', b', ⟨-, hfences⟩, hb⟩ := S.before_le R.leaf hq
      rw [(hfences rfl).2] at hb
      exact absurd (hb.trans S.le) (not_le.mpr hlt)
    · simp [hq]
  · rcases middle_cases (hleaves.symm.trans S.leaves_eq) with heq | ⟨hq, -⟩ | ⟨-, hq⟩
    · have hb := S.lt
      rw [(S.holds.2 heq.symm).2] at hb
      exact absurd hle (not_le.mpr hb)
    · exact hq
    · obtain ⟨a', b', ⟨-, hfences⟩, ha⟩ := S.after_ge R.leaf hq
      rw [(hfences rfl).1] at ha
      exact absurd (hle.trans_lt (S.lt.trans_le ha)) (not_lt.mpr hab.le)

/-- Inserts never move a key across a cut. -/
theorem Cut.descends (h : Cut d₀ root₀ b before after)
    (hdesc : Descends m₀ d₀ root₀ m d root n off splits) :
    Cut d root b (before.flatMap (fun p => p :: off p)) (after.flatMap (fun p => p :: off p)) where
  leaves := by rw [hdesc.leaves, h.leaves, List.flatMap_append]
  routed x hx := by
    obtain ⟨p, -, q, hq, hfind, hfind'⟩ := hdesc.home x hx
    obtain ⟨p', hp', hlt, hle⟩ := h.routed x hx
    obtain rfl : p = p' := Except.ok.inj (hfind.symm.trans hp')
    exact ⟨q, hfind', fun hx => List.mem_flatMap.mpr ⟨p, hlt hx, hq⟩,
      fun hx => List.mem_flatMap.mpr ⟨p, hle hx, hq⟩⟩

theorem Cut.entries (hN : 2 ≤ N) (hcut : Cut d root b before after)
    (h : TreeInv (fun a b => a < b) m d root ops) (hp : p ∈ root.leaves d) {e : K × V}
    (he : e ∈ (m p).entries) : (e.1 < b ↔ p ∈ before) ∧ (b ≤ e.1 ↔ p ∈ after) := by
  obtain ⟨q, hfind, hlt, hle⟩ := hcut.routed e.1 ((m p).entries_ne_top he)
  obtain rfl : p = q := Except.ok.inj ((h.found hN hp he).symm.trans hfind)
  have hnd := h.nodup
  rw [hcut.leaves] at hnd
  have hdisj := List.disjoint_of_nodup_append hnd
  refine ⟨⟨hlt, fun hb => ?_⟩, hle, fun ha => ?_⟩
  · exact lt_of_not_ge (fun hge => hdisj hb (hle hge))
  · exact le_of_not_gt (fun hlt' => hdisj (hlt hlt') ha)

end Cuts
section Holds
variable {load : Load N K} {m : Mem N K V} {it : NodeIter N K} {next : Option Ptr} {x y : Place K}
  {rest : List (Place K)} {p : Ptr}

theorem Holding.hasNext_iff (h : Holding it p next rest) : it.hasNext = true ↔ rest ≠ [] := by
  rcases h with ⟨ks, hlt, hnode, -, -, hk, rfl⟩ | ⟨hnode, -, rfl⟩
  · simp [NodeIter.hasNext, hnode, placesFrom_cons _ _ _ hlt hk]
  · simp [NodeIter.hasNext, hnode]

theorem Holding.ended (h : Holding it p next []) : next = none := by
  rcases h with ⟨ks, hlt, -, -, -, hk, hrest⟩ | ⟨-, hnext, -⟩
  · rw [placesFrom_cons _ _ _ hlt hk] at hrest
    cases hrest
  · exact hnext

theorem Holding.head (h : Holding it p next (x :: rest)) : it.curNodePtr = some p ∧
    it.curKey = .ok x.2.2 ∧ it.idx = x.2.1 ∧ x.1 = p ∧ it.idx < N ∧
    ∀ y ∈ rest, it.idx < y.2.1 := by
  rcases h with ⟨ks, hlt, hnode, hptr, -, hk, hrest⟩ | ⟨-, -, hrest⟩
  · rw [placesFrom_cons _ _ _ hlt hk, List.cons.injEq] at hrest
    obtain ⟨rfl, rfl⟩ := hrest
    refine ⟨hptr, by simp [NodeIter.curKey, hnode, hlt, XNodeKeys.getKey], rfl, rfl, hlt, ?_⟩
    intro y hy
    simp only [placesFrom, List.mem_map, List.mem_filter] at hy
    obtain ⟨i, ⟨hi, -⟩, rfl⟩ := hy
    obtain ⟨j, hj, rfl⟩ := List.mem_iff_getElem.mp hi
    simp only [List.getElem_drop, List.getElem_finRange, Fin.val_cast]
    omega
  · cases hrest

theorem Holding.read (hload : LoadsKeys load) (it : NodeIter N K) (hne : places load m p ≠ [])
    (c : ℕ) : ∃ it', ({ it.readFrom load m (some p) with idx := 0, counter := c }).seekIdx =
      .ok it' ∧ it'.idx ≠ N ∧ it'.counter = c ∧
      ∀ c', Holding { it' with counter := c' } p (m p).next (places load m p) := by
  have hkeys := hload it.curNode (m p).keys
  obtain ⟨j, hseek, hjN, hplaces, hk⟩ := seekIdx_spec
    { it.readFrom load m (some p) with idx := 0, counter := c } rfl (Nat.zero_le N) p
  simp only [hkeys] at hplaces
  have hj : j < N := by
    refine lt_of_le_of_ne hjN (fun hj => hne ?_)
    rw [places, ← hplaces, placesFrom_end _ _ _ hj.ge]
  refine ⟨_, hseek, hj.ne, rfl, fun c' => Or.inl ⟨_, hj, rfl, rfl, rfl, hk hj, ?_⟩⟩
  rw [places, hkeys, hplaces]

theorem Holding.step (h : Holding it p next (x :: y :: rest)) (load : Load N K) (m : Mem N K V) :
    ∃ it', it.next load m = .ok it' ∧ Holding it' p next (y :: rest) ∧
      it'.counter = it.counter + 1 := by
  rcases h with ⟨ks, hlt, hnode, hptr, hnext, hk, hrest⟩ | ⟨-, -, hrest⟩
  · rw [placesFrom_cons _ _ _ hlt hk, List.cons.injEq] at hrest
    obtain ⟨-, hrest⟩ := hrest
    obtain ⟨j, hseek, hjN, hplaces, hkj⟩ := seekIdx_spec
      { it with idx := it.idx + 1 } hnode hlt p
    have hj : j < N := by
      refine lt_of_le_of_ne hjN (fun hj => ?_)
      rw [← hplaces, placesFrom_end _ _ _ hj.ge] at hrest
      cases hrest
    refine ⟨{ it with idx := j, counter := it.counter + 1 }, ?_,
      Or.inl ⟨ks, hj, hnode, hptr, hnext, hkj hj, hrest.trans hplaces.symm⟩, rfl⟩
    simp [NodeIter.next, hseek, hj.ne]
  · cases hrest

theorem Holding.turn (hload : LoadsKeys load) (h : Holding it p next [x])
    (hne : ∀ q, next = some q → places load m q ≠ []) :
    ∃ it', it.next load m = .ok it' ∧ (next = none → Holding it' p none []) ∧
      ∀ q, next = some q → Holding it' q (m q).next (places load m q) ∧
        it'.counter = it.counter + 1 := by
  rcases h with ⟨ks, hlt, hnode, -, rfl, hk, hrest⟩ | ⟨-, -, hrest⟩
  · rw [placesFrom_cons _ _ _ hlt hk, List.cons.injEq] at hrest
    obtain ⟨-, hrest⟩ := hrest
    obtain ⟨j, hseek, hjN, hplaces, hkj⟩ := seekIdx_spec
      { it with idx := it.idx + 1 } hnode hlt p
    have hj : j = N := by
      refine le_antisymm hjN (le_of_not_gt (fun hlt => ?_))
      simp only at hplaces
      rw [← hplaces, placesFrom_cons _ _ _ hlt (hkj hlt)] at hrest
      cases hrest
    subst hj
    simp only [NodeIter.next, hseek, ok_bind, ne_eq, not_true_eq_false, if_false]
    cases hnext : it.nextPtr with
    | none =>
      simp only [NodeIter.readFrom, NodeIter.hasNext, Option.isSome_none, Bool.false_eq_true,
        if_false, pure_eq_ok, Except.ok.injEq, exists_eq_left']
      exact ⟨fun _ => Or.inr ⟨rfl, rfl, rfl⟩, fun q hq => absurd hq (Option.some_ne_none q).symm⟩
    | some q =>
      obtain ⟨it', hread, -, hc, hhold⟩ :=
        Holding.read hload { it with idx := j } (hne q hnext) it.counter
      simp only [NodeIter.readFrom, NodeIter.hasNext, Option.isSome_some, if_true] at hread ⊢
      rw [hread]
      refine ⟨_, rfl, fun hnone => absurd hnone (Option.some_ne_none q), fun q' hq' => ?_⟩
      obtain rfl := Option.some.inj hq'
      exact ⟨hhold _, congrArg (· + 1) hc⟩
  · cases hrest

end Holds
section Cover
variable {load : Load N K} {m m' : Mem N K V} {base ops ops' : Multiset (K × V)} {k b : K}
  {d d' n : ℕ} {root root' : RawPtr K} {keys : List K} {before after : List Ptr} {p q : Ptr}
  {off : Ptr → List Ptr} {splits : Ptr → ℕ}

theorem mem_keysOf (hload : Arranges load) {x : K} :
    x ∈ keysOf (places load m p) ↔ ∃ e ∈ (m p).entries, e.1 = x := by
  have hkeys := places_keys (m := m) (p := p) hload
  rw [keysOf, ← Multiset.mem_coe, hkeys, Multiset.mem_map]

theorem nodup_keysOf (hload : Arranges load) (h : TreeInv (fun a b => a < b) m d root ops)
    (hp : p ∈ root.leaves d) : (keysOf (places load m p)).Nodup := by
  rw [keysOf, ← Multiset.coe_nodup, places_keys hload]
  exact h.chain.distinct p hp

theorem keysOf_sorted (hload : Arranges load) (h : TreeInv (fun a b => a < b) m d root ops)
    (hp : p ∈ root.leaves d) (hsorts : Sorts load) :
    (keysOf (places load m p)).Pairwise (fun a b => a < b) := by
  have hle : (keysOf (places load m p)).Pairwise (fun a b => a ≤ b) := by
    rw [keysOf, places, placesFrom_keys]
    exact (hsorts _).filter _
  exact (hle.and (nodup_keysOf hload h hp)).imp (fun h => lt_of_le_of_ne h.1 h.2)

/-- The scan copies a leaf. All that it has read is below the keys there, and what was in the tree
when it began is read, or is not in the leaves before this one. -/
theorem Covers.enter (hN : 2 ≤ N) (hload : Arranges load) (hbase : base ≤ ops)
    (h : TreeInv (fun a b => a < b) m d root ops) (hleaves : root.leaves d = before ++ p :: after)
    (hnodup : keys.Nodup) (hsorted : Sorts load → keys.Pairwise (fun a b => a < b))
    (hknown : ∀ x ∈ keys, x ∈ ops.map Prod.fst)
    (hbelow : ∀ x ∈ keys, ∀ e ∈ (m p).entries, x < e.1)
    (hdone : ∀ x ∈ base.map Prod.fst, k ≤ x → x ∈ keys ∨
      ∀ l ∈ before, ∀ e ∈ (m l).entries, e.1 ≠ x) :
    ∃ b, Covers load base ops k d root (keys ++ keysOf (places load m p)) p b after := by
  have hp : p ∈ root.leaves d := by
    rw [hleaves]
    simp
  obtain ⟨b, hcut⟩ := h.cut hN hleaves
  have hnew : ∀ e ∈ (m p).entries, e.1 < b :=
    fun e he => (hcut.entries hN h hp he).1.mpr (by simp)
  refine ⟨b, ⟨_, by simp, hcut⟩, fun x hx => ?_, ?_, fun hsorts => ?_, fun x hx => ?_,
    fun x hx hkx hxb => ?_⟩
  · cases List.mem_append.mp hx with
    | inl hx =>
      obtain ⟨e, he⟩ := Multiset.card_pos_iff_exists_mem.mp (h.occupied p hp)
      exact (hbelow x hx e he).trans (hnew e he)
    | inr hx =>
      obtain ⟨e, he, rfl⟩ := (mem_keysOf hload).mp hx
      exact hnew e he
  · refine List.nodup_append.mpr ⟨hnodup, nodup_keysOf hload h hp, fun x hx y hy => ?_⟩
    obtain ⟨e, he, rfl⟩ := (mem_keysOf hload).mp hy
    exact (hbelow x hx e he).ne
  · refine List.pairwise_append.mpr ⟨hsorted hsorts, keysOf_sorted hload h hp hsorts, ?_⟩
    intro x hx y hy
    obtain ⟨e, he, rfl⟩ := (mem_keysOf hload).mp hy
    exact hbelow x hx e he
  · cases List.mem_append.mp hx with
    | inl hx => exact hknown x hx
    | inr hx =>
      obtain ⟨e, he, rfl⟩ := (mem_keysOf hload).mp hx
      exact Multiset.mem_map_of_mem Prod.fst (h.mem_entries hp he)
  · obtain ⟨e, he, rfl⟩ := Multiset.mem_map.mp hx
    have hop := Multiset.mem_of_le hbase he
    rw [← h.entries] at hop
    obtain ⟨q, hq, hqe⟩ := (mem_entriesOf e).mp hop
    have hmem := (hcut.entries hN h hq hqe).1.mp hxb
    cases hdone e.1 hx hkx with
    | inl hold => exact List.mem_append_left _ hold
    | inr hnot =>
      cases List.mem_append.mp hmem with
      | inl hbefore => exact absurd rfl (hnot q hbefore _ hqe)
      | inr hlast =>
        obtain rfl := List.mem_singleton.mp hlast
        exact List.mem_append_right _ ((mem_keysOf hload).mpr ⟨_, hqe, rfl⟩)

theorem Covers.leaf (hN : 2 ≤ N) (hload : Arranges load) (hbase : base ≤ ops)
    (h : TreeInv (fun a b => a < b) m d root ops)
    (hcovers : Covers load base ops k d root keys q b (p :: after)) :
    ∃ b', Covers load base ops k d root (keys ++ keysOf (places load m p)) p b' after := by
  obtain ⟨before, -, hcut⟩ := hcovers.cut
  have hmem : ∀ q ∈ before ++ p :: after, q ∈ root.leaves d := by
    intro q hq
    rwa [hcut.leaves]
  refine Covers.enter hN hload hbase h hcut.leaves hcovers.nodup hcovers.sorted hcovers.known
    (fun x hx e he => ?_) (fun x hx hkx => ?_)
  · have hge := (hcut.entries hN h (hmem p (by simp)) he).2.mpr List.mem_cons_self
    exact lt_of_lt_of_le (hcovers.below x hx) hge
  · by_cases hxb : x < b
    · exact Or.inl (hcovers.all x hx hkx hxb)
    · refine Or.inr (fun l hl e he heq => hxb ?_)
      rw [← heq]
      exact (hcut.entries hN h (hmem l (List.mem_append_left _ hl)) he).1.mpr hl

theorem Covers.descends (h : Covers load base ops k d root keys p b after)
    (hdesc : Descends m d root m' d' root' n off splits) (hops : ops ≤ ops') :
    Covers load base ops' k d' root' keys p b (after.flatMap (fun p => p :: off p)) where
  cut := by
    obtain ⟨before, hp, hcut⟩ := h.cut
    exact ⟨_, List.mem_flatMap.mpr ⟨p, hp, List.mem_cons_self⟩, hcut.descends hdesc⟩
  below := h.below
  nodup := h.nodup
  sorted := h.sorted
  known x hx := Multiset.mem_of_le (Multiset.map_le_map hops) (h.known x hx)
  all := h.all

end Cover

section Reads
variable {load : Load N K} {base ops : Multiset (K × V)} {k : K} {w w' : World N K V TrivalAlloc}
  {it : NodeIter N K} {keys : List K} {p : Ptr} {x y : Place K} {rest : List (Place K)}
  {root : RawPtr K}

theorem Reading.seek (hN : 2 ≤ N) (hload : Arranges load)
    (h : WorldInv (fun a b => a < b) w root ops) (k : K) (it₀ : NodeIter N K) :
    ∃ it p, it₀.seek load w.mem w.tree k = .ok it ∧ p ∈ root.leaves w.tree.depth ∧
      Reading load ops ops k w it [] p (places load w.mem p) := by
  obtain ⟨before, p, after, hfind, hleaves, hchain, -, hlt⟩ := h.enter hN k
  have hp : p ∈ root.leaves w.tree.depth := by
    rw [hleaves]
    simp
  obtain ⟨it, hread, hidx, hc, hhold⟩ :=
    Holding.read hload.loads it₀ (places_ne_nil hload (h.tree.occupied p hp)) 0
  have hdone : ∀ x ∈ ops.map Prod.fst, k ≤ x → x ∈ ([] : List K) ∨
      ∀ l ∈ before, ∀ e ∈ (w.mem l).entries, e.1 ≠ x := by
    refine fun x _ hkx => Or.inr (fun l hl e he heq => ?_)
    exact absurd hkx (not_le.mpr (heq ▸ hlt l hl e he))
  obtain ⟨b, hcovers⟩ := Covers.enter hN hload le_rfl h.tree hleaves List.nodup_nil
    (fun _ => List.Pairwise.nil) (fun x hx => absurd hx List.not_mem_nil)
    (fun x hx => absurd hx List.not_mem_nil) hdone
  refine ⟨it, p, ?_, hp, ⟨root, b, after, h, ?_, hcovers⟩, fun _ => hc, le_rfl⟩
  · simp only [NodeIter.seek, hfind, ok_bind] at hread ⊢
    rw [hread]
    simp [hidx]
  · have hlink : (w.mem p).next = after.head? := (hchain.linked.of_append before).1
    rw [← hlink]
    exact hhold it.counter

theorem Reading.step (h : Reading load base ops k w it keys p (x :: y :: rest)) :
    ∃ it', it.next load w.mem = .ok it' ∧
      Reading load base ops k w it' (keys ++ [x.2.2]) p (y :: rest) := by
  obtain ⟨root, b, after, hworld, hhold, hcovers⟩ := h.covers
  obtain ⟨it', hstep, hhold', hc⟩ := hhold.step load w.mem
  refine ⟨it', hstep, ⟨root, b, after, hworld, hhold', ?_⟩, fun _ => ?_, h.base_le⟩
  · simpa [keysOf] using hcovers
  · rw [hc, h.counter (List.cons_ne_nil _ _), List.length_append, List.length_singleton]

/-- The round behind the last place of the copy: the scan ends, or copies the leaf that the link
led to. -/
theorem Reading.turn (hN : 2 ≤ N) (hload : Arranges load)
    (h : Reading load base ops k w it keys p [x]) :
    ∃ it', it.next load w.mem = .ok it' ∧
      (Reading load base ops k w it' (keys ++ [x.2.2]) p [] ∨ ∃ q ∈ w.tree.leaves, q ≠ p ∧
        Reading load base ops k w it' (keys ++ [x.2.2]) q (places load w.mem q)) := by
  obtain ⟨root, b, after, hworld, hhold, hcovers⟩ := h.covers
  obtain ⟨before, hp, hcut⟩ := hcovers.cut
  have hafter : ∀ q ∈ after, q ∈ root.leaves w.tree.depth := by
    intro q hq
    rw [hcut.leaves]
    exact List.mem_append_right _ hq
  obtain ⟨it', hstep, hend, hleaf⟩ := hhold.turn hload.loads (fun q hq =>
    places_ne_nil hload (hworld.tree.occupied q (hafter q (List.mem_of_mem_head? hq))))
  refine ⟨it', hstep, ?_⟩
  cases after with
  | nil =>
    refine Or.inl ⟨⟨root, b, [], hworld, hend rfl, ?_⟩, fun hne => absurd rfl hne, h.base_le⟩
    simpa [keysOf] using hcovers
  | cons q after =>
    have hnodup := hworld.tree.nodup
    have hlinked := hworld.tree.linked
    rw [hcut.leaves] at hnodup hlinked
    have hlink : (w.mem q).next = after.head? := (hlinked.of_append before).1
    obtain ⟨hhold', hc⟩ := hleaf q rfl
    obtain ⟨b', hcovers'⟩ := hcovers.leaf hN hload h.base_le hworld.tree
    rw [hlink] at hhold'
    refine Or.inr ⟨q, ?_, ?_, ⟨root, b', after, hworld, hhold', ?_⟩, fun _ => ?_, h.base_le⟩
    · rw [XTree.leaves_of_root hworld.root_eq]
      exact hafter q List.mem_cons_self
    · rintro rfl
      exact List.disjoint_of_nodup_append hnodup hp List.mem_cons_self
    · simpa [keysOf] using hcovers'
    · rw [hc, h.counter (List.cons_ne_nil _ _), List.length_append, List.length_singleton]

theorem Reading.complete (h : Reading load base ops k w it keys p []) {x : K}
    (hx : x ∈ base.map Prod.fst) (htop : x ≠ ⊤) (hkx : k ≤ x) : x ∈ keys := by
  obtain ⟨root, b, after, hworld, hhold, hcovers⟩ := h.covers
  obtain rfl := List.head?_eq_none_iff.mp hhold.ended
  obtain ⟨before, -, hcut⟩ := hcovers.cut
  obtain ⟨l, -, -, hafter⟩ := hcut.routed x htop
  have hlt : x < b := lt_of_not_ge (fun hge => List.not_mem_nil (hafter hge))
  simpa [keysOf] using hcovers.all x hx hkx hlt

variable [StdSort] [Inhabited V]

/-- An insert of a new key goes through, and the scan does not notice. -/
theorem Reading.insert (hN : 2 ≤ N) (h : Reading load base ops k w it keys p rest) {key : K}
    (v : V) (hkey : key ≠ ⊤) (hnew : key ∉ ops.map Prod.fst) :
    ∃ w', w.insert key v = .ok w' ∧
      Reading load base ((key, v) ::ₘ ops) k w' it keys p rest := by
  obtain ⟨root, b, after, hworld, hhold, hcovers⟩ := h.covers
  have hcol : ¬ w.Collides key := by
    rintro ⟨root', hroot', hcol⟩
    obtain rfl := Option.some.inj (hworld.root_eq.symm.trans hroot')
    exact hworld.tree.not_collides hkey hcol
  obtain ⟨w', -, hins, -⟩ := (hworld.insert hN Bound.lt hkey (fun _ => hnew) v).2 hcol
  obtain ⟨root', off, splits, hworld', hdesc⟩ :=
    hworld.descends hN Bound.lt hkey (fun _ => hnew) hins
  have hhead : (after.flatMap (fun p => p :: off p)).head? = after.head? := by
    cases after <;> rfl
  refine ⟨w', hins, ⟨root', b, _, hworld', ?_, hcovers.descends hdesc (Multiset.le_cons_self _ _)⟩,
    h.counter, h.base_le.trans (Multiset.le_cons_self _ _)⟩
  rw [hhead]
  exact hhold

end Reads
/-- What each step with a new key keeps, a run keeps. `Inv` is about the entries of the tree and the
number of inserts so far. -/
theorem ScanEvent.run {σ : Type} {exec : σ → ScanEvent K V → Option (Res σ)}
    (Inv : Multiset (K × V) → ℕ → σ → Prop)
    (hexec : ∀ ops n s e r, Inv ops n s → (∀ op ∈ ScanEvent.op e, op.1 ≠ ⊤ ∧
      op.1 ∉ ops.map Prod.fst) → exec s e = some r →
        ∃ s', r = .ok s' ∧ Inv (↑e.op.toList + ops) (n + e.op.toList.length) s')
    {ops : Multiset (K × V)} {n : ℕ} {s s' : σ} {es : List (ScanEvent K V)} (h : Inv ops n s)
    (hrun : Lib.run (fun s e => (exec s e).bind Except.toOption) es s = some s')
    (hkeys : ∀ op ∈ es.filterMap ScanEvent.op, op.1 ≠ ⊤)
    (hd : ((↑(es.filterMap ScanEvent.op) + ops).map Prod.fst).Nodup) :
    Inv (↑(es.filterMap ScanEvent.op) + ops) (n + (es.filterMap ScanEvent.op).length) s' := by
  induction es generalizing s ops n with
  | nil =>
    obtain rfl := Option.some.inj hrun
    simpa using h
  | cons e es ih =>
    obtain ⟨s₁, hstep, hrest⟩ := Option.bind_eq_some_iff.mp hrun
    obtain ⟨r, hr, hok⟩ := Option.bind_eq_some_iff.mp hstep
    have hsplit : (↑((e :: es).filterMap ScanEvent.op) : Multiset (K × V)) + ops =
        ↑(es.filterMap ScanEvent.op) + (↑e.op.toList + ops) := by
      cases hop : e.op with
      | none => simp [hop]
      | some op => simp [hop, ← Multiset.cons_coe]
    have hlength : n + ((e :: es).filterMap ScanEvent.op).length =
        n + e.op.toList.length + (es.filterMap ScanEvent.op).length := by
      cases hop : e.op with
      | none => simp [hop]
      | some op =>
        simp [hop]
        omega
    rw [hsplit] at hd ⊢
    have hop : ∀ op ∈ e.op, op.1 ≠ ⊤ ∧ op.1 ∉ ops.map Prod.fst := by
      intro op hop
      have hfirst := Multiset.nodup_of_le (Multiset.map_le_map (Multiset.le_add_left _ _)) hd
      rw [Option.mem_def.mp hop, Option.toList_some, Multiset.coe_singleton,
        Multiset.singleton_add, Multiset.map_cons, Multiset.nodup_cons] at hfirst
      exact ⟨hkeys op (List.mem_filterMap.mpr ⟨e, List.mem_cons_self, hop⟩), hfirst.1⟩
    obtain ⟨s₂, rfl, h'⟩ := hexec ops n s e r h hop hr
    obtain rfl := Option.some.inj hok
    rw [hlength]
    refine ih h' hrest (fun op hmem => hkeys op ?_) hd
    obtain ⟨e', he', hop'⟩ := List.mem_filterMap.mp hmem
    exact List.mem_filterMap.mpr ⟨e', List.mem_cons_of_mem e he', hop'⟩

section Scan
variable [StdSort] [Inhabited V] {load : Load N K} {base ops : Multiset (K × V)} {k : K}
  {s s' : LiveScan N K V}

structure Scanning (load : Load N K) (base ops : Multiset (K × V)) (k : K)
    (s : LiveScan N K V) : Prop where
  reads : ∃ p rest, Reading load base ops k s.world s.iter (s.yielded.map Prod.fst) p rest
  labels : s.yielded.map Prod.snd = List.range s.yielded.length

theorem Scanning.exec (hN : 2 ≤ N) (hload : Arranges load) (h : Scanning load base ops k s)
    {e : ScanEvent K V} (hop : ∀ op ∈ e.op, op.1 ≠ ⊤ ∧ op.1 ∉ ops.map Prod.fst)
    {r : Res (LiveScan N K V)} (hexec : s.exec load e = some r) :
    ∃ s', r = .ok s' ∧ Scanning load base (↑e.op.toList + ops) k s' := by
  obtain ⟨p, rest, hreads⟩ := h.reads
  cases e with
  | insert key v =>
    obtain ⟨hkey, hnew⟩ := hop (key, v) rfl
    obtain ⟨w, hins, hreads'⟩ := hreads.insert hN v hkey hnew
    simp only [LiveScan.exec, hins, ok_bind, pure_eq_ok, Option.some.injEq] at hexec
    exact ⟨_, hexec.symm, ⟨p, rest, hreads'⟩, h.labels⟩
  | next =>
    simp only [LiveScan.exec, Option.ite_none_right_eq_some, Option.some.injEq] at hexec
    obtain ⟨hnext, hr⟩ := hexec
    obtain ⟨root, b, after, -, hhold, -⟩ := hreads.covers
    have hrest := hhold.hasNext_iff.mp hnext
    have hc := hreads.counter hrest
    have hlabels : ∀ x, (s.yielded ++ [(x, s.iter.opaqueVal)]).map Prod.snd =
        List.range (s.yielded ++ [(x, s.iter.opaqueVal)]).length := by
      intro x
      simp [h.labels, List.range_succ, NodeIter.opaqueVal, hc]
    cases rest with
    | nil => exact absurd rfl hrest
    | cons x rest =>
      obtain ⟨-, hkey, -⟩ := hhold.head
      obtain ⟨it, p', rest', hstep, hreads'⟩ : ∃ it p' rest',
          s.iter.next load s.world.mem = .ok it ∧ Reading load base ops k s.world it
            (s.yielded.map Prod.fst ++ [x.2.2]) p' rest' := by
        cases rest with
        | cons y rest =>
          obtain ⟨it, hstep, hreads'⟩ := hreads.step
          exact ⟨it, p, _, hstep, hreads'⟩
        | nil =>
          obtain ⟨it, hstep, hend | ⟨q, -, -, hreads'⟩⟩ := hreads.turn hN hload
          · exact ⟨it, p, [], hstep, hend⟩
          · exact ⟨it, q, _, hstep, hreads'⟩
      rw [hkey, ok_bind, hstep, ok_bind] at hr
      refine ⟨_, hr.symm, ⟨p', rest', ?_⟩, hlabels _⟩
      simpa [ScanEvent.op] using hreads'

end Scan
end XStore.Xkv
