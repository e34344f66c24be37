import XStore.Xkv.IterOrder

/-! Inserting a stored key again. Nothing looks for the old entry: the key takes a second
slot, and after a split the two copies can stand on both sides of a separator. -/
namespace XStore.Xkv
open XStore.Lib
variable {N : ℕ} {K V : Type} [LinearOrder K] [BoundedOrder K]

/-- The iterator reads a key at `n` positions, and `has_next` is false behind them. -/
def World.Yields (w : World N K V TrivalAlloc) (n : ℕ) : Prop :=
  ∃ it l it', XTreeIter.ofTree w.mem w.tree = .ok it ∧
    it.take XTreeIter.load w.mem NodeIter.curKey n = .ok (l, it') ∧ it'.hasNext = false

def World.Holds (w : World N K V TrivalAlloc) (k : K) (p : Ptr) (i : Fin N) : Prop :=
  ∃ root, w.tree.root = some root ∧ p ∈ root.leaves w.tree.depth ∧ (w.mem p).getKey i = k

/-- An update of the stored key `k` to `v'`, from `w`, which holds `ops`, to `w'`. -/
structure Updated (ops : List (K × V)) (k : K) (v' : V) (w w' : World N K V TrivalAlloc) :
    Prop where
  read : w'.get k = .ok (some v')
  kept : ∀ op ∈ ops, op.1 ≠ k → w'.get op.1 = .ok (some op.2)
  yields : ∀ n, w.Yields n → w'.Yields n
  once : ∀ op ∈ ops, ∃! s : Ptr × Fin N, w'.Holds op.1 s.1 s.2

/-- A leaf between fences that only the key `k` may reach. -/
def CellBut (k : K) (m : Mem N K V) (lo hi : K) (p : Ptr) : Prop :=
  lo < hi ∧ ∀ e ∈ (m p).entries, lo ≤ e.1 ∧ (e.1 < hi ∨ e.1 = k)

section Cells
variable {m m' : Mem N K V} {k lo hi : K} {p : Ptr}

theorem CellBut.fences (k : K) (m : Mem N K V) :
    ∀ a b p, CellBut k m a b p → a < b :=
  fun _ _ _ h => h.1

theorem CellBut.congr (h : m' p = m p) (hc : CellBut k m lo hi p) : CellBut k m' lo hi p :=
  ⟨hc.1, by rw [h]; exact hc.2⟩

theorem Cell.but (k : K) (h : Cell (fun a b => a < b) m lo hi p) : CellBut k m lo hi p :=
  ⟨h.1, fun e he => ⟨(h.2 e he).1, Or.inl (h.2 e he).2⟩⟩

end Cells

theorem Shape.find_bot {Q : K → K → Ptr → Prop} {lb d : ℕ} {lo hi : K} {t : RawPtr K}
    (hQ : ∀ a b p, Q a b p → a < b) (h : Shape N Q lb d lo hi t) :
    ∃ p after, XTree.findLeafFrom ⊥ d t = .ok p ∧ t.leaves d = p :: after := by
  induction d generalizing lb lo hi t with
  | zero =>
    obtain ⟨p, rfl⟩ := h.eq_leaf
    exact ⟨p, [], rfl, rfl⟩
  | succ d ih =>
    obtain ⟨⟨ks, cs, up⟩, rfl, -, -, hf⟩ := h.eq_inner
    obtain ⟨c, rest, rfl⟩ : ∃ c rest, cs = c :: rest := by
      cases cs with
      | nil => simpa using hf.length
      | cons c rest => exact ⟨c, rest, rfl⟩
    obtain ⟨a, b, hc, -, hb⟩ := hf.getElem? (i := 0) (c := c) rfl
    have hidx : ks.findIdx (fun s => decide (⊥ < s)) = 0 := by
      cases ks with
      | nil => rfl
      | cons s ks =>
        have hs : ⊥ < s := hb s rfl ▸ bot_le.trans_lt (hc.fences Bound.lt hQ)
        simp [List.findIdx_cons, hs]
    obtain ⟨p, after, hfind, hleaves⟩ := ih hc
    refine ⟨p, after ++ rest.flatMap (RawPtr.leaves d), ?_, ?_⟩
    · simp [XTree.findLeafFrom, RawPtr.asInner, TreeInner.findChildren,
        TreeInner.findChildrenIdx, hidx, hfind]
    · simp [RawPtr.leaves, hleaves]

section Split
variable [StdSort] {m m' : Mem N K V} {key pivot a b : K} {v : V} {p c : Ptr}

theorem XNode.exists_lt_medianKey (hN : 2 ≤ N) (n : XNode N K V) (hfull : n.keys.Full)
    (hinj : Function.Injective n.keys.keys) (hmed : n.medianKey = some pivot) :
    ∃ e ∈ n.entries, e.1 < pivot := by
  obtain ⟨i, hi, hlow, -⟩ := n.keys.findMedianKey_spec (by omega)
  obtain rfl : n.keys.keys i = pivot := by simpa [XNode.medianKey, hi] using hmed
  have htwo : 1 < (Finset.univ.filter (fun j => n.keys.keys j ≤ n.keys.keys i)).card := by omega
  obtain ⟨j, hj, hji⟩ := Finset.exists_mem_ne htwo i
  have hle := (Finset.mem_filter.mp hj).2
  exact ⟨_, (n.mem_entries _).mpr ⟨j, hfull j, rfl⟩,
    lt_of_le_of_ne hle (fun he => hji (hinj he))⟩

/-- The two halves of a leaf of distinct keys that split for one of them again. -/
theorem SplitInto.cells_but {cand : XNode N K V} (hN : 2 ≤ N)
    (h : SplitInto key v c (m p) (m' p) cand (m' c) pivot)
    (hcell : Cell (fun a b => a < b) m a b p) (ha : a ≤ key) (hb : key < b)
    (hfull : (m p).keys.Full) (hd : ((m p).entries.map Prod.fst).Nodup) :
    CellBut key m' a pivot p ∧ CellBut key m' pivot b c := by
  have hall : ∀ e ∈ (m' p).entries + (m' c).entries, a ≤ e.1 ∧ e.1 < b := by
    intro e he
    rw [h.entries] at he
    rcases Multiset.mem_cons.mp he with rfl | he
    · exact ⟨ha, hb⟩
    · exact hcell.2 e he
  obtain ⟨w, hw⟩ := h.pivot_mem
  have hpivot := hall (pivot, w) (Multiset.mem_add.mpr (Or.inr hw))
  -- the pivot went over to the candidate, so a copy of it that stayed is the new key
  have hstay : ∀ e ∈ (m' p).entries, e.1 = pivot → e.1 = key := by
    intro e he heq
    by_contra hne
    have hcount := congrArg (fun s => (s.map Prod.fst).count pivot) h.entries
    simp only [Multiset.map_add, Multiset.count_add, Multiset.map_cons] at hcount
    rw [Multiset.count_cons_of_ne (by rwa [← heq])] at hcount
    have hone := Multiset.nodup_iff_count_le_one.mp hd pivot
    have hleft := Multiset.one_le_count_iff_mem.mpr (heq ▸ Multiset.mem_map_of_mem Prod.fst he)
    have hright := Multiset.one_le_count_iff_mem.mpr (Multiset.mem_map_of_mem Prod.fst hw)
    simp only at hright
    omega
  obtain ⟨e₀, he₀, hlt⟩ :=
    (m p).exists_lt_medianKey hN hfull (keys_injective _ hfull hd) h.median
  refine ⟨⟨(hcell.2 e₀ he₀).1.trans_lt hlt, ?_⟩, ⟨hpivot.2, ?_⟩⟩
  · intro e he
    refine ⟨(hall e (Multiset.mem_add.mpr (Or.inl he))).1, ?_⟩
    cases (h.left_le e he).lt_or_eq with
    | inl hlt => exact Or.inl hlt
    | inr heq => exact Or.inr (hstay e he heq)
  · exact fun e he => ⟨h.right_ge e he, Or.inl (hall e (Multiset.mem_add.mpr (Or.inr he))).2⟩

end Split

section Core
variable {m : Mem N K V} {d : ℕ} {root : RawPtr K} {ops : Multiset (K × V)} {key : K} {v : V}
  {c : Ptr}

theorem TreeInv.weaken (h : TreeInv (fun a b => a < b) m d root ops) :
    TreeInv (fun a b => a ≤ b ∧ a ≠ ⊤) m d root ops where
  shape := h.shape.imp (fun _ _ _ _ hc => ⟨Bound.le_ne_top.of_lt hc.1, fun e he =>
    ⟨(hc.2 e he).1, Bound.le_ne_top.of_lt (hc.2 e he).2⟩⟩)
  nodup := h.nodup
  linked := h.linked
  entries := h.entries
  occupied := h.occupied
  distinct _ := h.distinct lt_irrefl
  half _ := h.half lt_irrefl

/-- A search for any other key still ends in the leaf that holds all its entries. -/
theorem Shape.find_but (hN : 2 ≤ N) (h : Shape N (CellBut key m) 1 d ⊥ ⊤ root)
    (hent : entriesOf m (root.leaves d) = ops) {x : K} (hx : x ≠ ⊤) (hne : x ≠ key) :
    ∃ p, XTree.findLeafFrom x d root = .ok p ∧ ∀ u, (x, u) ∈ (m p).entries ↔ (x, u) ∈ ops := by
  obtain ⟨R⟩ := h.route hN Bound.lt (CellBut.fences key m) bot_le
    (lt_top_iff_ne_top.mpr hx)
  refine ⟨R.leaf, R.found, fun u => ?_⟩
  rw [← hent, mem_entriesOf]
  constructor
  · exact fun hu => ⟨R.leaf, R.mem_leaf, hu⟩
  · rintro ⟨q, hq, hu⟩
    rw [R.leaves_eq, List.mem_append, List.mem_cons] at hq
    rcases hq with hq | rfl | hq
    · obtain ⟨a', b', hcell, hle⟩ := R.before_le q hq
      cases (hcell.2 _ hu).2 with
      | inl hlt => exact absurd (hle.trans R.le) (not_le.mpr hlt)
      | inr heq => exact absurd heq hne
    · exact hu
    · obtain ⟨a', b', hcell, hge⟩ := R.after_ge q hq
      exact absurd (hge.trans (hcell.2 _ hu).1) (not_le.mpr R.lt)

variable [StdSort]

/-- `insert_core` with a stored key: the key goes in a second time. -/
theorem TreeInv.insertCore_again (hN : 2 ≤ N) (h : TreeInv (fun a b => a < b) m d root ops)
    (hkey : key ≠ ⊤) (hcol : ¬ Collides N (leafUp m) key d root) (hc : c ∉ root.leaves d)
    (hfresh : ∀ i, (m c).keys.keys i = ⊤) (v : V) :
    ∃ res, XTree.insertCore m ⟨d, some root⟩ key v (some c) = .ok res ∧
      Step (fun a b => a ≤ b ∧ a ≠ ⊤) m d root ((key, v) ::ₘ ops) c res ∧
      ∀ root', res.2.1.root = some root' →
        Shape N (CellBut key res.1) 1 res.2.1.depth ⊥ ⊤ root' := by
  have hirr : ¬ ∀ a : K, ¬ (a ≤ a ∧ a ≠ ⊤) := fun hall => hall key ⟨le_rfl, hkey⟩
  obtain ⟨res, hres, hstep⟩ := (h.weaken.insertCore hN Bound.le_ne_top hkey
    (fun hall => absurd hall hirr) hc hfresh v).2 hcol
  refine ⟨res, hres, hstep, ?_⟩
  obtain ⟨R⟩ := h.shape.route hN Bound.lt (Cell.fences _) bot_le (lt_top_iff_ne_top.mpr hkey)
  cases (m R.leaf).card_entries_le.lt_or_eq with
  | inl hroom =>
    obtain ⟨n', hadd, hroom'⟩ := R.room hkey hroom v c
    obtain rfl := Except.ok.inj (hroom'.symm.trans hres)
    rintro root' hroot'
    obtain rfl := Option.some.inj hroot'
    have hother := ne_of_nodup_middle (R.leaves_eq ▸ h.nodup)
    have hbut := R.holds.but key
    refine R.keep _ (fun a b q hq hcell => (hcell.but key).congr ?_) ⟨hbut.1, ?_⟩
    · exact Function.update_of_ne (hother q hq) _ _
    · simp only [Function.update_self, hadd.entries]
      intro e he
      rcases Multiset.mem_cons.mp he with rfl | he
      · exact ⟨R.le, Or.inr rfl⟩
      · exact hbut.2 e he
  | inr hfull =>
    obtain ⟨pivot, hs, -, hnew⟩ := R.split_ok hN Bound.lt hkey hc hfresh hfull hres
    obtain ⟨hleft, hright⟩ := hs.halves.cells_but hN R.holds R.le R.lt
      ((m R.leaf).full_iff.mpr hfull) (h.chain.distinct _ R.mem_leaf)
    obtain ⟨root₁, hroot₁, hshape, -⟩ := hnew (CellBut key res.1) (CellBut.fences key res.1)
      (fun a b q hq hcell => (hcell.but key).congr (R.frame h.nodup hc hs q hq)) hleft hright
    intro root' hroot'
    obtain rfl := Option.some.inj (hroot₁.symm.trans hroot')
    exact hshape

end Core

section Reinsert
variable [StdSort] [Inhabited V] {w w' : World N K V TrivalAlloc} {ops : List (K × V)} {k : K}

/-- The world after a stored key went in again: one more entry, and the other keys between
their fences. -/
structure WorldBut (k : K) (w : World N K V TrivalAlloc) (root : RawPtr K)
    (ops : Multiset (K × V)) : Prop where
  root_eq : w.tree.root = some root
  tree : TreeInv (fun a b => a ≤ b ∧ a ≠ ⊤) w.mem w.tree.depth root ops
  shape : Shape N (CellBut k w.mem) 1 w.tree.depth ⊥ ⊤ root

theorem WorldInv.insert_again (hN : 2 ≤ N) {root : RawPtr K} {ops : Multiset (K × V)}
    (h : WorldInv (fun a b => a < b) w root ops) (hk : k ≠ ⊤) (v : V) :
    ∃ w' root', w.insert k v = .ok w' ∧ WorldBut k w' root' ((k, v) ::ₘ ops) := by
  obtain ⟨c, hpre, hclt, hc, hfresh⟩ := h.spare
  have htree : w.tree = ⟨w.tree.depth, some root⟩ := by rw [← h.root_eq]
  have hcol : ¬ Collides N (leafUp w.mem) k w.tree.depth root := fun hcol =>
    Ready.not_collides (Or.inr ⟨root, h⟩) hk ⟨root, h.root_eq, hcol⟩
  obtain ⟨⟨m', t', ret⟩, heq, ⟨⟨root', hroot', hinv, hsub⟩, -, -⟩, hbut⟩ :=
    h.tree.insertCore_again hN hk hcol hc hfresh v
  have hshape := hbut root' hroot'
  have hlt : ∀ p ∈ root'.leaves t'.depth, p < w.alloc.allocated := by
    intro p hp
    rcases hsub p hp with hp | ⟨-, rfl⟩
    · exact h.allocated p hp
    · exact hclt
  rw [← htree] at heq
  rw [insert_eq hpre, heq]
  cases ret with
  | false => exact ⟨_, root', rfl, hroot', hinv, hshape⟩
  | true =>
    have hsame : ∀ p ∈ root'.leaves t'.depth,
        Function.update m' w.alloc.allocated XNode.new p = m' p :=
      fun p hp => Function.update_of_ne (hlt p hp).ne _ _
    exact ⟨_, root', rfl, hroot', hinv.congr hsame,
      hshape.imp (fun a b p hp hcell => hcell.congr (hsame p hp))⟩

omit [StdSort] [Inhabited V] in
theorem WorldBut.get (hN : 2 ≤ N) {root : RawPtr K} {v : V} (hd : (ops.map Prod.fst).Nodup)
    (h : WorldBut k w root ((k, v) ::ₘ ↑ops)) {op : K × V} (hop : op ∈ ops) (htop : op.1 ≠ ⊤)
    (hne : op.1 ≠ k) : w.get op.1 = .ok (some op.2) := by
  obtain ⟨p, hfind, hent⟩ := h.shape.find_but hN h.tree.entries htop hne
  obtain ⟨hsome, hnone⟩ := search_entries (w.mem p) op.1 htop
  have hin : (op.1, op.2) ∈ (w.mem p).entries :=
    (hent op.2).mpr (Multiset.mem_cons_of_mem (Multiset.mem_coe.mpr hop))
  have hleaf := XTree.findLeaf_of_root h.root_eq hfind
  cases hs : (w.mem p).search op.1 with
  | none => exact absurd hin (hnone hs op.2)
  | some i =>
    have hi := (hent _).mp (hsome i hs)
    rw [Multiset.mem_cons, Multiset.mem_coe] at hi
    have hmem : (op.1, (w.mem p).values i) ∈ ops := by
      refine hi.resolve_left (fun heq => hne ?_)
      exact congrArg Prod.fst heq
    have heq := List.inj_on_of_nodup_map hd hmem hop rfl
    simp only [World.get, XTree.get, hleaf, ok_bind, need_some, hs, XNode.getValueRaw, pure_eq_ok]
    exact congrArg (fun e => Except.ok (some e.2)) heq

omit [StdSort] [Inhabited V] in
theorem WorldBut.walk {root : RawPtr K} {ops : Multiset (K × V)} (h : WorldBut k w root ops) :
    ∃ it xs, XTreeIter.ofTree w.mem w.tree = .ok it ∧ Walk XTreeIter.load w.mem it xs ∧
      ↑(xs.map (fun x => x.2.2)) = ops.map Prod.fst := by
  obtain ⟨p, after, hfind, hleaves⟩ := h.shape.find_bot (CellBut.fences k w.mem)
  have hseek : ∃ it, XTreeIter.ofTree w.mem w.tree = .ok it ∧ it.counter = 0 ∧
      Walk XTreeIter.load w.mem it ((p :: after).flatMap (places XTreeIter.load w.mem)) :=
    Walk.of_seek XTreeIter.arranges.loads
      (XTree.findLeaf_of_root h.root_eq hfind) (hleaves ▸ h.tree.linked)
      (fun q hq => places_ne_nil XTreeIter.arranges (h.tree.occupied q (hleaves ▸ hq)))
  obtain ⟨it, hof, -, hwalk⟩ := hseek
  refine ⟨it, _, hof, hwalk, ?_⟩
  rw [chain_keys XTreeIter.arranges, ← hleaves, h.tree.entries]

omit [StdSort] [Inhabited V] in
theorem Walk.curKey {load : Load N K} {m : Mem N K V} {it : NodeIter N K} {x : Place K}
    {xs : List (Place K)} (h : Walk load m it (x :: xs)) : it.curKey = .ok x.2.2 := by
  obtain ⟨p, i, k⟩ := x
  exact h.head.2.2.2.2

omit [StdSort] [Inhabited V] in
theorem Walk.yields_iff {it : NodeIter N K} {xs : List (Place K)}
    (hof : XTreeIter.ofTree w.mem w.tree = .ok it) (h : Walk XTreeIter.load w.mem it xs)
    (n : ℕ) (hn : n ≤ xs.length) : w.Yields n ↔ n = xs.length := by
  have hsplit := h
  rw [← List.take_append_drop n xs] at hsplit
  obtain ⟨it', htake, hwalk⟩ := Walk.take XTreeIter.arranges.loads
    (f := fun _ x => x.2.2) (fun it x xs hw => hw.curKey) _ hsplit
  rw [List.length_take, min_eq_left hn] at htake
  constructor
  · rintro ⟨it₁, l, it₂, hof₁, htake₁, hend⟩
    obtain rfl := Except.ok.inj (hof.symm.trans hof₁)
    obtain ⟨-, rfl⟩ := Prod.mk.inj (Except.ok.inj (htake.symm.trans htake₁))
    by_contra hne
    have hlen : 0 < (xs.drop n).length := by
      rw [List.length_drop]
      omega
    cases hxs : xs.drop n with
    | nil => simp [hxs] at hlen
    | cons x rest =>
      rw [hxs] at hwalk
      obtain ⟨p, i, k⟩ := x
      rw [hwalk.head.1] at hend
      cases hend
  · intro heq
    rw [heq, List.drop_length] at hwalk
    exact ⟨it, _, it', hof, htake, by simp [NodeIter.hasNext, hwalk.nil]⟩

theorem Built.yields (hN : 2 ≤ N) (hw : Built w ops) : w.Yields ops.length := by
  obtain ⟨it, xs, hof, hwalk, hperm⟩ := hw.walk hN
  have hlen : xs.length = ops.length := by simpa using hperm.length_eq
  exact (hwalk.yields_iff hof _ hlen.ge).mpr hlen.symm

/-- What inserting a stored key again does: no ASSERT fails, every other key keeps its value,
and the iterator yields one key more, the stored key twice. -/
theorem Built.reinsert (hN : 2 ≤ N) (hw : Built w ops) (hk : k ∈ ops.map Prod.fst) (v : V) :
    ∃ w', w.insert k v = .ok w' ∧
      (∀ op ∈ ops, op.1 ≠ k → w'.get op.1 = .ok (some op.2)) ∧
      w'.Yields (ops.length + 1) ∧ ¬ w'.Yields ops.length := by
  obtain ⟨root, h⟩ := hw.inv hN
  obtain ⟨op, hop, rfl⟩ := List.mem_map.mp hk
  obtain ⟨w', root', hins, hbut⟩ := h.insert_again hN (hw.keys op hop) v
  obtain ⟨it, xs, hof, hwalk, hkeys⟩ := hbut.walk
  have hlen : xs.length = ops.length + 1 := by simpa using congrArg Multiset.card hkeys
  refine ⟨w', hins, fun op' hop' hne => hbut.get hN hw.distinct hop' (hw.keys op' hop') hne,
    (hwalk.yields_iff hof _ hlen.ge).mpr hlen.symm, fun hy => ?_⟩
  have hno := (hwalk.yields_iff hof _ (by omega)).mp hy
  omega

/-- No insert of a stored key is an update. -/
theorem insert_never_updates (hN : 2 ≤ N) (hw : Built w ops) (hk : k ∈ ops.map Prod.fst)
    (v : V) : ¬ ∃ w', w.insert k v = .ok w' ∧ Updated ops k v w w' := by
  rintro ⟨w₁, hins₁, hup⟩
  obtain ⟨w', hins, -, -, hno⟩ := hw.reinsert hN hk v
  obtain rfl := Except.ok.inj (hins.symm.trans hins₁)
  exact hno (hup.yields _ (hw.yields hN))

end Reinsert

theorem insert_never_updates_three :
    letI := insertionStdSort
    ∃ w : World 2 XKey ℕ TrivalAlloc, Built w [(3, 30), (1, 10)] ∧
      ¬ ∃ w', w.insert 3 31 = .ok w' ∧ Updated [(3, 30), (1, 10)] 3 31 w w' := by
  let : StdSort := insertionStdSort
  obtain ⟨w, hw⟩ := Built.exists (le_refl 2) (fun _ => XNode.new : Mem 2 XKey ℕ)
    [(3, 30), (1, 10)] (by simp) (by decide) (by decide)
  exact ⟨w, hw, insert_never_updates (le_refl 2) hw (by decide) 31⟩

/-- The lookup finds the old copy, which stands in the first slot. -/
theorem reinsert_reads_old :
    letI := insertionStdSort
    ¬ ∀ (w : World 2 XKey ℕ TrivalAlloc) (ops : List (XKey × ℕ)) (k : XKey) (v : ℕ),
      Built w ops → k ∈ ops.map Prod.fst → ∃ w', w.insert k v = .ok w' ∧ Updated ops k v w w' := by
  let : StdSort := insertionStdSort
  intro hall
  obtain ⟨w, hrun, -⟩ := Ready.insertAll (le_refl 2) (K := XKey) (V := ℕ)
    (Or.inl ⟨fun _ => XNode.new, rfl, rfl⟩) [(3, 30)] (by decide) (by decide)
  obtain ⟨w', hins, hup⟩ := hall w [(3, 30)] 3 31 ⟨⟨_, hrun⟩, by simp, by decide, by decide⟩
    (by decide)
  have hold : ((World.init (fun _ => XNode.new : Mem 2 XKey ℕ)).insertAll [(3, 30)]
      >>= fun w => w.insert 3 31 >>= fun w => w.get 3) = .ok (some 30) := by decide +kernel
  rw [hrun, ok_bind, hins, ok_bind, hup.read] at hold
  cases hold

end XStore.Xkv
