import XStore.Xkv.Lookup

/-! A tree of distinct keys seen from below: a chain of ordered leaves, and the place in it
where a search enters. -/
namespace XStore.Xkv
open XStore.Lib
variable {N : ℕ} {K V : Type} [LinearOrder K] [BoundedOrder K]

/-- Linked leaves that hold distinct keys, every key of a leaf below every key of a later
one. -/
structure Chain (m : Mem N K V) (ps : List Ptr) : Prop where
  linked : Linked (fun p => (m p).next) ps
  nodup : ps.Nodup
  occupied : ∀ p ∈ ps, 1 ≤ (m p).entries.card
  distinct : ∀ p ∈ ps, ((m p).entries.map Prod.fst).Nodup
  ordered : ps.Pairwise (fun p q => ∀ e ∈ (m p).entries, ∀ f ∈ (m q).entries, e.1 < f.1)

theorem Chain.of_append {m : Mem N K V} (ps : List Ptr) {qs : List Ptr}
    (h : Chain m (ps ++ qs)) : Chain m qs where
  linked := h.linked.of_append ps
  nodup := (List.nodup_append.mp h.nodup).2.1
  occupied p hp := h.occupied p (List.mem_append_right _ hp)
  distinct p hp := h.distinct p (List.mem_append_right _ hp)
  ordered := (List.pairwise_append.mp h.ordered).2.1

namespace Shape
variable {Q : K → K → Ptr → Prop} {r : K → K → Prop} {lb d : ℕ} {lo hi : K} {t : RawPtr K}

theorem leaves_pairwise (hr : Bound r) (hQ : ∀ a b p, Q a b p → r a b)
    (h : Shape N Q lb d lo hi t) :
    (t.leaves d).Pairwise (fun p q => ∃ a b a' b', Q a b p ∧ Q a' b' q ∧ b ≤ a') := by
  induction d generalizing lb lo hi t with
  | zero =>
    obtain ⟨p, rfl⟩ := h.eq_leaf
    exact List.pairwise_singleton _ _
  | succ d ih =>
    obtain ⟨n, rfl, -, -, hf⟩ := h.eq_inner
    refine List.pairwise_flatMap.mpr ⟨fun c hc => ?_, ?_⟩
    · obtain ⟨a, b, hs, -⟩ := hf.within (fun _ _ _ => fences_le hr hQ) c hc
      exact ih hs
    · refine (hf.pairwise (fun _ _ _ => fences_le hr hQ)).imp ?_
      rintro c e ⟨a, b, a', b', hc, he, hle⟩ p hp q hq
      obtain ⟨a₁, b₁, hp, -, hb⟩ := hc.leaf_of_mem hr hQ p hp
      obtain ⟨a₂, b₂, hq, ha, -⟩ := he.leaf_of_mem hr hQ q hq
      exact ⟨a₁, b₁, a₂, b₂, hp, hq, (hb.trans hle).trans ha⟩

theorem find_top (h : Shape N Q lb d lo hi t) :
    ∃ before p, XTree.findLeafFrom ⊤ d t = .ok p ∧ t.leaves d = before ++ [p] := by
  induction d generalizing lb lo hi t with
  | zero =>
    obtain ⟨p, rfl⟩ := h.eq_leaf
    exact ⟨[], p, rfl, rfl⟩
  | succ d ih =>
    obtain ⟨n, rfl, -, -, hf⟩ := h.eq_inner
    have hidx : n.findChildrenIdx ⊤ = n.keys.length := by
      simp [TreeInner.findChildrenIdx, List.findIdx_eq_length]
    obtain ⟨cs, c, hcs⟩ : ∃ cs c, n.childrens = cs ++ [c] := by
      refine ⟨n.childrens.dropLast, n.childrens.getLast ?_, ?_⟩
      · rintro hnil
        simpa [hnil] using hf.length
      · rw [List.dropLast_append_getLast]
    have hlen : cs.length = n.keys.length := by
      have h := hf.length
      rw [hcs, List.length_append, List.length_singleton] at h
      omega
    have hc : n.childrens[n.findChildrenIdx ⊤]? = some c := by
      rw [hidx, hcs, ← hlen]
      simp
    obtain ⟨a, b, hs, -⟩ := hf.getElem? hc
    obtain ⟨before, p, hfind, hleaves⟩ := ih hs
    refine ⟨cs.flatMap (RawPtr.leaves d) ++ before, p, ?_, ?_⟩
    · simp [XTree.findLeafFrom, RawPtr.asInner, TreeInner.findChildren, hc, hfind]
    · change n.childrens.flatMap (RawPtr.leaves d) = _
      rw [hcs]
      simp [hleaves]

end Shape

namespace TreeInv
variable {m : Mem N K V} {d : ℕ} {root : RawPtr K} {ops : Multiset (K × V)}

theorem chain (h : TreeInv (fun a b => a < b) m d root ops) : Chain m (root.leaves d) where
  linked := h.linked
  nodup := h.nodup
  occupied := h.occupied
  distinct p hp := by
    refine Multiset.nodup_of_le (Multiset.map_le_map ?_) (h.distinct lt_irrefl)
    rw [← h.entries]
    exact le_entriesOf hp
  ordered := by
    refine (h.shape.leaves_pairwise Bound.lt (Cell.fences _)).imp ?_
    rintro p q ⟨a, b, a', b', hp, hq, hle⟩ e he f hf
    exact lt_of_lt_of_le (hp.2 e he).2 (hle.trans (hq.2 f hf).1)

/-- A search enters the chain behind all leaves whose keys are smaller. -/
theorem enter (hN : 2 ≤ N) (h : TreeInv (fun a b => a < b) m d root ops) (k : K) :
    ∃ before p after, XTree.findLeafFrom k d root = .ok p ∧
      root.leaves d = before ++ p :: after ∧ ∀ q ∈ before, ∀ e ∈ (m q).entries, e.1 < k := by
  by_cases hk : k = ⊤
  · obtain ⟨before, p, hfind, hleaves⟩ := h.shape.find_top
    refine ⟨before, p, [], by rw [hk]; exact hfind, hleaves, fun q _ e he => ?_⟩
    rw [hk]
    exact lt_top_iff_ne_top.mpr ((m q).entries_ne_top he)
  · obtain ⟨R⟩ := h.shape.route hN Bound.lt (Cell.fences _) bot_le (lt_top_iff_ne_top.mpr hk)
    refine ⟨R.before, R.leaf, R.after, R.found, R.leaves_eq, fun q hq e he => ?_⟩
    obtain ⟨a', b', hcell, hle⟩ := R.before_le q hq
    exact lt_of_lt_of_le (hcell.2 e he).2 (hle.trans R.le)

end TreeInv

theorem TreeInv.enter_bot (hN : 2 ≤ N) {m : Mem N K V} {d : ℕ} {root : RawPtr K}
    {ops : Multiset (K × V)} (h : TreeInv (fun a b => a < b) m d root ops) :
    ∃ p after, XTree.findLeafFrom ⊥ d root = .ok p ∧ root.leaves d = p :: after := by
  obtain ⟨before, p, after, hfind, hleaves, hlt⟩ := h.enter hN ⊥
  cases before with
  | nil => exact ⟨p, after, hfind, hleaves⟩
  | cons q before =>
    have hcard := h.occupied q (by rw [hleaves]; simp)
    obtain ⟨e, he⟩ := Multiset.card_pos_iff_exists_mem.mp hcard
    exact absurd (hlt q (by simp) e he) (not_lt.mpr bot_le)

theorem TreeInv.half_of_two {m : Mem N K V} {d : ℕ} {root : RawPtr K} {ops : Multiset (K × V)}
    (h : TreeInv (fun a b => a < b) m d root ops) (hlen : 1 < (root.leaves d).length) :
    ∀ p ∈ root.leaves d, N / 2 ≤ (m p).entries.card := by
  refine h.half lt_irrefl ?_
  cases d with
  | zero =>
    match root, h.shape with
    | .leaf p, _ => simp [RawPtr.leaves] at hlen
  | succ d => omega

/-- A search for a key that a leaf stores ends in that leaf. -/
theorem TreeInv.found (hN : 2 ≤ N) {m : Mem N K V} {d : ℕ} {root : RawPtr K}
    {ops : Multiset (K × V)} (h : TreeInv (fun a b => a < b) m d root ops) {p : Ptr}
    (hp : p ∈ root.leaves d) {e : K × V} (he : e ∈ (m p).entries) :
    XTree.findLeafFrom e.1 d root = .ok p := by
  obtain ⟨q, hq, hfind, hent⟩ := h.find hN ((m p).entries_ne_top he)
  have heq : (e.1, e.2) ∈ (m q).entries := (hent e.2).mpr (h.mem_entries hp he)
  have hapart := List.Pairwise.forall_of_forall_of_flip
    (R := fun a b => ∀ x ∈ (m a).entries, ∀ y ∈ (m b).entries, x.1 = y.1 → a = b)
    (fun _ _ _ _ _ _ _ => rfl)
    (h.chain.ordered.imp (fun hab x hx y hy hxy => absurd hxy (hab x hx y hy).ne))
    (h.chain.ordered.imp (fun hab x hx y hy hxy => absurd hxy.symm (hab y hy x hx).ne))
  rw [hfind, hapart hp hq e he _ heq rfl]

/-- The world that inserting `ops` leaves: distinct keys, and at least one. -/
structure Built [StdSort] [Inhabited V] (w : World N K V TrivalAlloc) (ops : List (K × V)) :
    Prop where
  run : ∃ m, (World.init m).insertAll ops = .ok w
  ne : ops ≠ []
  keys : ∀ op ∈ ops, op.1 ≠ ⊤
  distinct : (ops.map Prod.fst).Nodup

theorem Built.inv [StdSort] [Inhabited V] {w : World N K V TrivalAlloc} {ops : List (K × V)}
    (hN : 2 ≤ N) (h : Built w ops) : ∃ root, WorldInv (fun a b => a < b) w root ↑ops := by
  obtain ⟨m, hrun⟩ := h.run
  obtain ⟨w', hrun', hready⟩ := Ready.insertAll hN (Or.inl ⟨m, rfl, rfl⟩) ops h.keys
    (by simpa using h.distinct)
  obtain rfl : w = w' := Except.ok.inj (hrun.symm.trans hrun')
  rcases hready with ⟨m', -, hzero⟩ | ⟨root, hinv⟩
  · have hne := h.ne
    simp [hne] at hzero
  · exact ⟨root, by simpa using hinv⟩

theorem Built.exists [StdSort] [Inhabited V] (hN : 2 ≤ N) (m : Mem N K V)
    (ops : List (K × V)) (hne : ops ≠ []) (hkeys : ∀ op ∈ ops, op.1 ≠ ⊤)
    (hd : (ops.map Prod.fst).Nodup) :
    ∃ w : World N K V TrivalAlloc, Built w ops := by
  obtain ⟨w, hrun, -⟩ := Ready.insertAll hN (Or.inl ⟨m, rfl, rfl⟩) ops hkeys (by simpa using hd)
  exact ⟨w, ⟨m, hrun⟩, hne, hkeys, hd⟩

theorem XTree.findLeaf_of_root {t : XTree K} {root : RawPtr K} {k : K} {p : Ptr}
    (hroot : t.root = some root) (h : XTree.findLeafFrom k t.depth root = .ok p) :
    t.findLeaf k = .ok (some p) := by
  simp [XTree.findLeaf, hroot, h]

section Enter
variable {w : World N K V TrivalAlloc} {root : RawPtr K} {ops : Multiset (K × V)}

/-- `find_leaf` cuts the chain: the keys of the leaves before the cut are smaller. -/
theorem WorldInv.enter (hN : 2 ≤ N) (h : WorldInv (fun a b => a < b) w root ops) (k : K) :
    ∃ before p after, w.tree.findLeaf k = .ok (some p) ∧
      root.leaves w.tree.depth = before ++ p :: after ∧ Chain w.mem (before ++ p :: after) ∧
      entriesOf w.mem (before ++ p :: after) = ops ∧
      ∀ q ∈ before, ∀ e ∈ (w.mem q).entries, e.1 < k := by
  obtain ⟨before, p, after, hfind, hleaves, hlt⟩ := h.tree.enter hN k
  exact ⟨before, p, after, XTree.findLeaf_of_root h.root_eq hfind, hleaves,
    hleaves ▸ h.tree.chain, hleaves ▸ h.tree.entries, hlt⟩

theorem WorldInv.enter_bot (hN : 2 ≤ N) (h : WorldInv (fun a b => a < b) w root ops) :
    ∃ p after, w.tree.findLeaf ⊥ = .ok (some p) ∧ root.leaves w.tree.depth = p :: after ∧
      Chain w.mem (p :: after) ∧ entriesOf w.mem (p :: after) = ops := by
  obtain ⟨p, after, hfind, hleaves⟩ := h.tree.enter_bot hN
  exact ⟨p, after, XTree.findLeaf_of_root h.root_eq hfind, hleaves, hleaves ▸ h.tree.chain,
    hleaves ▸ h.tree.entries⟩

end Enter
end XStore.Xkv
