import XStore.Xkv.Run
import Mathlib.Order.Fin.Basic

/-! Distinct keys: the tree that any run of inserts leaves is balanced and ordered, and a
lookup finds exactly what was inserted. -/
namespace XStore.Xkv
open XStore.Lib
variable {N : ℕ} {K V : Type}

/-- The second node is reached from the first by so many steps to a child. -/
inductive RawPtr.Below : RawPtr K → ℕ → RawPtr K → Prop
  | refl (t : RawPtr K) : Below t 0 t
  | child {n : TreeInner K (RawPtr K)} {c t : RawPtr K} {i : ℕ} :
      c ∈ n.childrens → Below c i t → Below (.inner n) (i + 1) t

variable [LinearOrder K] [BoundedOrder K]

/-- Every key stored under child `i` is at least separator `i - 1` and below separator `i`. -/
def TreeInner.Separates (m : Mem N K V) (n : TreeInner K (RawPtr K)) : Prop :=
  n.childrens.length = n.keys.length + 1 ∧
  ∀ i c, n.childrens[i]? = some c → ∀ j p, c.Below j (.leaf p) →
    ∀ slot, (m p).getKey slot ≠ ⊤ →
      (∀ s, 0 < i → n.keys[i-1]? = some s → s ≤ (m p).getKey slot) ∧
      ∀ s, n.keys[i]? = some s → (m p).getKey slot < s

namespace Shape
variable {Q : K → K → Ptr → Prop} {r : K → K → Prop} {lb d i : ℕ} {lo hi : K} {t : RawPtr K}

omit [LinearOrder K] [BoundedOrder K] in
theorem below_leaf {p : Ptr} (h : Shape N Q lb d lo hi t) (hb : t.Below i (.leaf p)) :
    i = d ∧ p ∈ t.leaves d := by
  induction d generalizing lb lo hi t i with
  | zero =>
    obtain ⟨q, rfl⟩ := h.eq_leaf
    cases hb
    exact ⟨rfl, by simp [RawPtr.leaves]⟩
  | succ d ih =>
    obtain ⟨n, rfl, -, -, hf⟩ := h.eq_inner
    cases hb with
    | child hc hb =>
      obtain ⟨i', hi'⟩ := List.getElem?_of_mem hc
      obtain ⟨a, b, hs, -⟩ := hf.getElem? hi'
      obtain ⟨rfl, hp⟩ := ih hs hb
      exact ⟨rfl, List.mem_flatMap.mpr ⟨_, hc, hp⟩⟩

omit [LinearOrder K] [BoundedOrder K] in
theorem below_inner {n : TreeInner K (RawPtr K)} (h : Shape N Q lb d lo hi t)
    (hb : t.Below i (.inner n)) : ∃ lb' d' lo' hi', Shape N Q lb' (d' + 1) lo' hi' (.inner n) := by
  induction d generalizing lb lo hi t i with
  | zero =>
    obtain ⟨q, rfl⟩ := h.eq_leaf
    cases hb
  | succ d ih =>
    obtain ⟨n', rfl, -⟩ := h.eq_inner
    cases hb with
    | refl => exact ⟨lb, d, lo, hi, h⟩
    | child hc hb =>
      obtain ⟨i', hi'⟩ := List.getElem?_of_mem hc
      obtain ⟨a, b, hs, -⟩ := h.2.2.getElem? hi'
      exact ih hs hb

end Shape

section Lookup
variable {m : Mem N K V} {d : ℕ} {root : RawPtr K} {ops : Multiset (K × V)}

theorem TreeInv.separates {n : TreeInner K (RawPtr K)} {i : ℕ}
    (h : TreeInv (fun a b => a < b) m d root ops) (hb : root.Below i (.inner n)) :
    n.keys.Pairwise (fun a b => a < b) ∧ n.Separates m := by
  obtain ⟨lb, d', lo, hi, -, -, hf⟩ := h.shape.below_inner hb
  have hfences : ∀ a b c, Shape N (Cell (fun a b => a < b) m) (halfKeys N) d' a b c → a < b :=
    fun a b c hs => hs.fences Bound.lt (Cell.fences _)
  refine ⟨(hf.chain _ hfences).2.1, hf.length, ?_⟩
  intro j c hc k p hp slot hslot
  obtain ⟨a, b, hs, ha, hb⟩ := hf.getElem? hc
  obtain ⟨-, hmem⟩ := hs.below_leaf hp
  obtain ⟨a', b', hcell, hle, hge⟩ := hs.leaf_of_mem Bound.lt (Cell.fences _) p hmem
  obtain ⟨hlow, hhigh⟩ := hcell.2 _ ((m p).mem_entries _ |>.mpr ⟨slot, hslot, rfl⟩)
  constructor
  · intro s hj hs'
    rw [ha s hj hs']
    exact hle.trans hlow
  · intro s hs'
    rw [← hb s hs']
    exact lt_of_lt_of_le hhigh hge

theorem TreeInv.find (hN : 2 ≤ N) (h : TreeInv (fun a b => a < b) m d root ops) {k : K}
    (hk : k ≠ ⊤) : ∃ p ∈ root.leaves d, XTree.findLeafFrom k d root = .ok p ∧
      ∀ v, (k, v) ∈ (m p).entries ↔ (k, v) ∈ ops := by
  obtain ⟨R⟩ := h.shape.route hN Bound.lt (Cell.fences _) bot_le (lt_top_iff_ne_top.mpr hk)
  refine ⟨R.leaf, R.mem_leaf, R.found, fun v => ⟨h.mem_entries R.mem_leaf, fun hv => ?_⟩⟩
  rw [← h.entries, R.leaves_eq, entriesOf_append, entriesOf_cons, Multiset.mem_add,
    Multiset.mem_add, mem_entriesOf, mem_entriesOf] at hv
  rcases hv with ⟨q, hq, hv⟩ | hv | ⟨q, hq, hv⟩
  · obtain ⟨a', b', hcell, hle⟩ := R.before_le q hq
    exact absurd (hle.trans R.le) (not_le.mpr (hcell.2 _ hv).2)
  · exact hv
  · obtain ⟨a', b', hcell, hge⟩ := R.after_ge q hq
    exact absurd (hge.trans (hcell.2 _ hv).1) (not_le.mpr R.lt)

theorem search_entries (n : XNode N K V) (k : K) (hk : k ≠ ⊤) :
    (∀ i, n.search k = some i → (k, n.values i) ∈ n.entries) ∧
    (n.search k = none → ∀ v, (k, v) ∉ n.entries) := by
  constructor
  · intro i hi
    have hkey := n.keys.search_some hi
    exact (n.mem_entries _).mpr ⟨i, by rw [hkey]; exact hk, by rw [hkey]⟩
  · intro hnone v hv
    obtain ⟨i, -, heq⟩ := (n.mem_entries _).mp hv
    exact (n.keys.search_none_iff k).mp hnone i (Prod.ext_iff.mp heq).1

/-- A lookup returns the value that was inserted with the key, if any. -/
theorem TreeInv.get (hN : 2 ≤ N) (h : TreeInv (fun a b => a < b) m d root ops) {k : K}
    (hk : k ≠ ⊤) : (∀ v, (k, v) ∈ ops → XTree.get m ⟨d, some root⟩ k = .ok (some v)) ∧
      (k ∉ ops.map Prod.fst → XTree.get m ⟨d, some root⟩ k = .ok none) := by
  obtain ⟨p, -, hfind, hent⟩ := h.find hN hk
  obtain ⟨hsome, hnone⟩ := search_entries (m p) k hk
  have hget : XTree.get m ⟨d, some root⟩ k =
      .ok (((m p).search k).map (m p).values) := by
    simp only [XTree.get, XTree.findLeaf, hfind, ok_bind, pure_eq_ok, need_some]
    cases (m p).search k <;> rfl
  rw [hget]
  cases hs : (m p).search k with
  | none =>
    refine ⟨fun v hv => absurd ((hent v).mpr hv) (hnone hs v), fun _ => rfl⟩
  | some i =>
    have hi := (hent _).mp (hsome i hs)
    constructor
    · intro v hv
      have heq := Multiset.inj_on_of_nodup_map (h.distinct lt_irrefl) _ hi _ hv rfl
      simp only [Prod.mk.injEq, true_and] at heq
      rw [Option.map_some, heq]
    · intro hnot
      exact absurd (Multiset.mem_map_of_mem Prod.fst hi) hnot

end Lookup

/-- Distinct keys: no ASSERT fails, and the tree is balanced, ordered and complete. -/
theorem insertAll_distinct [StdSort] [Inhabited V] (hN : 2 ≤ N) (m : Mem N K V) (ops : List (K × V))
    (hkeys : ∀ op ∈ ops, op.1 ≠ ⊤) (hd : (ops.map Prod.fst).Nodup) :
    ∃ w, (World.init m).insertAll ops = .ok w ∧ (ops ≠ [] → ∃ root, w.tree.root = some root ∧
      (∀ i p, root.Below i (.leaf p) → i = w.tree.depth) ∧
      (∀ i n, root.Below i (.inner n) →
        n.keys.Pairwise (fun a b => a < b) ∧ n.Separates w.mem) ∧
      ∀ k, k ≠ ⊤ → (∀ v, (k, v) ∈ ops → w.get k = .ok (some v)) ∧
        (k ∉ ops.map Prod.fst → w.get k = .ok none)) := by
  obtain ⟨w, hrun, hready⟩ := Ready.insertAll hN (Or.inl ⟨m, rfl, rfl⟩) ops hkeys
    (by simpa using hd)
  refine ⟨w, hrun, fun hne => ?_⟩
  rcases hready with ⟨m', -, hzero⟩ | ⟨root, h⟩
  · simp [hne] at hzero
  · have htree : w.tree = ⟨w.tree.depth, some root⟩ := by rw [← h.root_eq]
    refine ⟨root, h.root_eq, fun i p hp => (h.tree.shape.below_leaf hp).1,
      fun i n hn => h.tree.separates hn, fun k hk => ?_⟩
    have hget := h.tree.get hN hk
    rw [← htree] at hget
    simpa [World.get] using hget

theorem insertAll_distinct_three :
    letI := insertionStdSort
    ∃ w, (World.init (fun _ => XNode.new : Mem 2 XKey ℕ)).insertAll [(3, 30), (1, 10), (2, 20)] =
      .ok w ∧ w.get 1 = .ok (some 10) ∧ w.get 4 = .ok none := by
  let : StdSort := insertionStdSort
  obtain ⟨w, hrun, hall⟩ := insertAll_distinct (le_refl 2) (fun _ => XNode.new : Mem 2 XKey ℕ)
    [(3, 30), (1, 10), (2, 20)] (by decide) (by decide)
  obtain ⟨root, -, -, -, hget⟩ := hall (by simp)
  exact ⟨w, hrun, (hget 1 (by decide)).1 10 (by simp), (hget 4 (by decide)).2 (by decide)⟩

end XStore.Xkv
