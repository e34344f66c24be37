import XStore.Xkv.Invariant

/-! One insert into a tree that stands: it keeps the invariant or stops at the ASSERT on the
split threshold, and it stops exactly where the key collides. -/
namespace XStore.Xkv
open XStore.Lib
variable {N : ℕ} {K V : Type} [LinearOrder K] [BoundedOrder K] [StdSort]
variable {r : K → K → Prop} {m : Mem N K V} {d : ℕ} {root : RawPtr K}
  {ops : Multiset (K × V)} {key : K} {v : V} {c : Ptr}

/-- What `insert_core` returned: the new tree, and whether the new leaf hangs in it. -/
structure Step (r : K → K → Prop) (m : Mem N K V) (d : ℕ) (root : RawPtr K)
    (ops : Multiset (K × V)) (c : Ptr) (res : Mem N K V × XTree K × Bool) : Prop where
  inv : ∃ root', res.2.1.root = some root' ∧ TreeInv r res.1 res.2.1.depth root' ops ∧
    ∀ p ∈ root'.leaves res.2.1.depth, p ∈ root.leaves d ∨ res.2.2 = true ∧ p = c
  spare : res.2.2 = false → res.1 c = m c
  grows : d ≤ res.2.1.depth

/-- The memory after the split of the leaf `p`: its two halves, and all other leaves as they
were. -/
structure SplitMem (key : K) (v : V) (p c : Ptr) (m m' : Mem N K V) (pivot : K) : Prop where
  halves : SplitInto key v c (m p) (m' p) (m c) (m' c) pivot
  frame : ∀ q, q ≠ p → q ≠ c → m' q = m q

omit [StdSort] in
theorem Cell.fences (r : K → K → Prop) : ∀ a b p, Cell r m a b p → r a b :=
  fun _ _ _ h => h.1

theorem Route.room {Q : K → K → Ptr → Prop} (R : Route N r Q 1 d ⊥ ⊤ root key) (hkey : key ≠ ⊤)
    (hroom : (m R.leaf).entries.card < N) (v : V) (c : Ptr) :
    ∃ n', Added (m R.leaf) n' key v ∧ XTree.insertCore m ⟨d, some root⟩ key v (some c) =
      .ok (Function.update m R.leaf n', ⟨d, some root⟩, false) := by
  obtain ⟨n', hraw, hadd⟩ := rawInsert_room m R.leaf key v (some c) hroom hkey
  exact ⟨n', hadd, insertCore_room R.found hraw⟩

/-- The new entry goes into a hole of the leaf that the key leads to. -/
theorem TreeInv.step_room (hr : Bound r) (h : TreeInv r m d root ops) (hkey : key ≠ ⊤)
    (hnew : (∀ a, ¬ r a a) → key ∉ ops.map Prod.fst)
    (R : Route N r (Cell r m) 1 d ⊥ ⊤ root key) (hc : c ∉ root.leaves d)
    (hroom : (m R.leaf).entries.card < N) :
    ∃ res, XTree.insertCore m ⟨d, some root⟩ key v (some c) = .ok res ∧
      Step r m d root ((key, v) ::ₘ ops) c res := by
  obtain ⟨n', hadd, hres⟩ := R.room hkey hroom v c
  refine ⟨_, hres, ⟨root, rfl, ?_, fun p hp => Or.inl hp⟩, ?_, le_rfl⟩
  · have hother := ne_of_nodup_middle (R.leaves_eq ▸ h.nodup)
    have hupd : ∀ q ∈ R.before ++ R.after, Function.update m R.leaf n' q = m q :=
      fun q hq => Function.update_of_ne (hother q hq) _ _
    have hself : Function.update m R.leaf n' R.leaf = n' := Function.update_self _ _ _
    change TreeInv r (Function.update m R.leaf n') d root _
    refine ⟨?_, h.nodup, ?_, ?_, ?_, ?_, ?_⟩
    · refine R.keep _ (fun a b q hq hcell => hcell.congr (hupd q hq)) ⟨R.holds.1, ?_⟩
      rw [hself, hadd.entries]
      intro e he
      rcases Multiset.mem_cons.mp he with rfl | he
      · exact ⟨R.le, hr.of_lt R.lt⟩
      · exact R.holds.2 e he
    · refine h.linked.congr (fun p _ => ?_)
      by_cases hp : p = R.leaf
      · simp only [hp, hself, hadd.next]
      · simp only [Function.update_of_ne hp]
    · rw [← h.entries, R.leaves_eq]
      have hb := entriesOf_congr (fun q hq => hupd q (List.mem_append_left _ hq))
      have ha := entriesOf_congr (fun q hq => hupd q (List.mem_append_right _ hq))
      rw [entriesOf_append, entriesOf_cons, entriesOf_append, entriesOf_cons, hb, ha, hself,
        hadd.entries, Multiset.cons_add, Multiset.add_cons]
    · intro p hp
      by_cases hpl : p = R.leaf
      · rw [hpl, hself, hadd.entries, Multiset.card_cons]
        omega
      · rw [Function.update_of_ne hpl]
        exact h.occupied p hp
    · intro hirr
      rw [Multiset.map_cons, Multiset.nodup_cons]
      exact ⟨hnew hirr, h.distinct hirr⟩
    · intro hirr hd p hp
      have hhalf := h.half hirr hd p hp
      by_cases hpl : p = R.leaf
      · rw [hpl] at hhalf
        rw [hpl, hself, hadd.entries, Multiset.card_cons]
        omega
      · rw [Function.update_of_ne hpl]
        exact hhalf
  · intro _
    have hcl : c ≠ R.leaf := fun he => hc (he ▸ R.mem_leaf)
    exact Function.update_of_ne hcl _ _

omit [StdSort] in
theorem SplitInto.cells [StdSort] (hN : 2 ≤ N) (hr : Bound r) {m m' : Mem N K V} {a b pivot : K}
    {p : Ptr} {cand : XNode N K V} (h : SplitInto key v c (m p) (m' p) cand (m' c) pivot)
    (hcell : Cell r m a b p) (ha : a ≤ key) (hb : key < b)
    (hd : (∀ a, ¬ r a a) → (((key, v) ::ₘ (m p).entries).map Prod.fst).Nodup) :
    Cell r m' a pivot p ∧ Cell r m' pivot b c := by
  have hall : ∀ e ∈ (m' p).entries + (m' c).entries, a ≤ e.1 ∧ r e.1 b := by
    intro e he
    rw [h.entries] at he
    rcases Multiset.mem_cons.mp he with rfl | he
    · exact ⟨ha, hr.of_lt hb⟩
    · exact hcell.2 e he
  obtain ⟨w, hw⟩ := h.pivot_mem
  have hlow : ∀ e ∈ (m' p).entries, r e.1 pivot := by
    intro e he
    refine hr.of_le (h.left_le e he) ((m' p).entries_ne_top he) (fun hirr heq => ?_)
    have hnd := hd hirr
    rw [← h.entries, Multiset.map_add, Multiset.nodup_add] at hnd
    exact Multiset.disjoint_left.mp hnd.2.2 (Multiset.mem_map_of_mem Prod.fst he)
      (heq ▸ Multiset.mem_map_of_mem Prod.fst hw)
  have hpos : 0 < (m' p).entries.card := by
    have := h.left_count
    omega
  obtain ⟨e, he⟩ := Multiset.card_pos_iff_exists_mem.mp hpos
  refine ⟨⟨?_, ?_⟩, ?_, ?_⟩
  · exact hr.trans_le (hall e (Multiset.mem_add.mpr (Or.inl he))).1 (hlow e he)
  · exact fun e he => ⟨(hall e (Multiset.mem_add.mpr (Or.inl he))).1, hlow e he⟩
  · exact (hall _ (Multiset.mem_add.mpr (Or.inr hw))).2
  · exact fun e he => ⟨h.right_ge e he, (hall e (Multiset.mem_add.mpr (Or.inr he))).2⟩

omit [StdSort] in
theorem grow_spec {Q : K → K → Ptr → Prop} {ps : List Ptr} (hN : 2 ≤ N)
    {res : RawPtr K × Option (K × RawPtr K)} (hrel : Relinked N Q 1 d ⊥ ⊤ res)
    (hleaves : relinkedLeaves d res = ps) :
    ∃ root', (XTree.grow d res).root = some root' ∧
      Shape N Q 1 (XTree.grow d res).depth ⊥ ⊤ root' ∧
      d ≤ (XTree.grow d res).depth ∧ root'.leaves (XTree.grow d res).depth = ps := by
  match res, hrel with
  | (t, none), hrel => exact ⟨t, rfl, hrel, le_rfl, hleaves⟩
  | (t, some (up, s)), hrel =>
    refine ⟨_, rfl, ⟨le_rfl, by simp [TreeInner.newRoot]; omega, hrel⟩, Nat.le_succ d, ?_⟩
    rw [← hleaves]
    simp [XTree.grow, RawPtr.leaves, TreeInner.newRoot, relinkedLeaves]

omit [StdSort] in
theorem leaves_zero {Q : K → K → Ptr → Prop} {lb : ℕ} {lo hi : K}
    (R : Route N r Q lb 0 lo hi root key) : R.before ++ R.after = [] := by
  have h := congrArg List.length R.leaves_eq
  have hlen : (root.leaves 0).length ≤ 1 := by cases root <;> simp [RawPtr.leaves]
  simp only [List.length_append, List.length_cons] at h
  rw [List.eq_nil_iff_length_eq_zero, List.length_append]
  omega

theorem Route.split {Q : K → K → Ptr → Prop} (hN : 2 ≤ N) (R : Route N r Q 1 d ⊥ ⊤ root key)
    (hkey : key ≠ ⊤) (hc : c ∉ root.leaves d) (hfresh : ∀ i, (m c).keys.keys i = ⊤)
    (hfull : (m R.leaf).entries.card = N) (v : V) :
    ∃ m' pivot, SplitMem key v R.leaf c m m' pivot ∧
      XTree.insertCore m ⟨d, some root⟩ key v (some c) =
        (link N d root key pivot c).map (fun out => (m', XTree.grow d out, true)) := by
  have hne : R.leaf ≠ c := fun he => hc (he ▸ R.mem_leaf)
  obtain ⟨t', c', pivot, hraw, hsplit⟩ := rawInsert_split m R.leaf c hN key v hne hfull hfresh hkey
  set m' := Function.update (Function.update m R.leaf t') c c' with hm'
  have hself : m' R.leaf = t' := by simp [hm', Function.update_of_ne hne]
  have hcand : m' c = c' := by simp [hm']
  refine ⟨m', pivot, ⟨by rwa [hself, hcand], fun q hq hqc => ?_⟩, insertCore_split R.found hraw ?_⟩
  · rw [hm', Function.update_of_ne hqc, Function.update_of_ne hq]
  · rw [hcand]
    exact hsplit.first

/-- Whatever holds of the two halves between their fences, and of the other leaves between
theirs, holds of the tree that the new leaf hangs in. -/
theorem Route.hang {Q Q' : K → K → Ptr → Prop} {m' : Mem N K V} {pivot : K} (hN : 2 ≤ N)
    (hr : Bound r) (R : Route N r Q 1 d ⊥ ⊤ root key) (hfull : (m R.leaf).entries.card = N)
    (hs : SplitMem key v R.leaf c m m' pivot) (hQ' : ∀ a b q, Q' a b q → r a b)
    (hold : ∀ a b, ∀ q ∈ R.before ++ R.after, Q a b q → Q' a b q)
    (hleft : Q' R.a pivot R.leaf) (hright : Q' pivot R.b c) :
    (Collides N (leafUp m) key d root →
      link N d root key pivot c = .error (.assert .splitThreshold)) ∧
    (¬ Collides N (leafUp m) key d root → ∃ out root', link N d root key pivot c = .ok out ∧
      (XTree.grow d out).root = some root' ∧
      Shape N Q' 1 (XTree.grow d out).depth ⊥ ⊤ root' ∧ d ≤ (XTree.grow d out).depth ∧
      root'.leaves (XTree.grow d out).depth = R.before ++ R.leaf :: c :: R.after) := by
  have hleafUp : leafUp m R.leaf = some pivot := by
    rw [leafUp, numKeys_eq_card, if_pos hfull, hs.halves.median]
  obtain ⟨hbad, hgood⟩ := R.relink Q' (leafUp m) pivot c hQ' hold hleft hright
    (hr.ne_top (hQ' _ _ _ hright)) hleafUp
  refine ⟨hbad, fun hcol => ?_⟩
  obtain ⟨out, hlink, hrel, hleaves, -⟩ := hgood hcol
  obtain ⟨root', hroot', hgrown⟩ := grow_spec hN hrel hleaves
  exact ⟨out, root', hlink, hroot', hgrown⟩

theorem Route.split_ok {Q : K → K → Ptr → Prop} {res : Mem N K V × XTree K × Bool} (hN : 2 ≤ N)
    (hr : Bound r) (R : Route N r Q 1 d ⊥ ⊤ root key) (hkey : key ≠ ⊤) (hc : c ∉ root.leaves d)
    (hfresh : ∀ i, (m c).keys.keys i = ⊤) (hfull : (m R.leaf).entries.card = N)
    (hres : XTree.insertCore m ⟨d, some root⟩ key v (some c) = .ok res) :
    ∃ pivot, SplitMem key v R.leaf c m res.1 pivot ∧ res.2.2 = true ∧
      ∀ Q' : K → K → Ptr → Prop, (∀ a b q, Q' a b q → r a b) →
        (∀ a b, ∀ q ∈ R.before ++ R.after, Q a b q → Q' a b q) →
        Q' R.a pivot R.leaf → Q' pivot R.b c →
        ∃ root', res.2.1.root = some root' ∧ Shape N Q' 1 res.2.1.depth ⊥ ⊤ root' ∧
          root'.leaves res.2.1.depth = R.before ++ R.leaf :: c :: R.after := by
  obtain ⟨m', pivot, hs, heq⟩ := R.split hN hkey hc hfresh hfull v
  rw [heq] at hres
  cases hlink : link N d root key pivot c with
  | error e =>
    rw [hlink] at hres
    cases hres
  | ok out =>
    rw [hlink] at hres
    obtain rfl := Except.ok.inj hres
    refine ⟨pivot, hs, rfl, fun Q' hQ' hold hleft hright => ?_⟩
    obtain ⟨hbad, hgood⟩ := R.hang hN hr hfull hs hQ' hold hleft hright
    have hcol : ¬ Collides N (leafUp m) key d root := by
      intro hcol
      rw [hbad hcol] at hlink
      cases hlink
    obtain ⟨out', root', hlink', hroot', hshape, -, hleaves⟩ := hgood hcol
    obtain rfl := Except.ok.inj (hlink'.symm.trans hlink)
    exact ⟨root', hroot', hshape, hleaves⟩

theorem Route.frame {Q : K → K → Ptr → Prop} {m' : Mem N K V} {pivot : K}
    (R : Route N r Q 1 d ⊥ ⊤ root key) (hnd : (root.leaves d).Nodup) (hc : c ∉ root.leaves d)
    (hs : SplitMem key v R.leaf c m m' pivot) : ∀ q ∈ R.before ++ R.after, m' q = m q := by
  intro q hq
  have hqc : q ≠ c := fun he => hc (he ▸ R.mem_of_mem hq)
  exact hs.frame q (ne_of_nodup_middle (R.leaves_eq ▸ hnd) q hq) hqc

omit [StdSort] in
theorem TreeInv.distinct_leaf {Q : K → K → Ptr → Prop} (h : TreeInv r m d root ops)
    (R : Route N r Q 1 d ⊥ ⊤ root key)
    (hdist : (∀ a, ¬ r a a) → (((key, v) ::ₘ ops).map Prod.fst).Nodup) (hirr : ∀ a, ¬ r a a) :
    (((key, v) ::ₘ (m R.leaf).entries).map Prod.fst).Nodup := by
  refine Multiset.nodup_of_le (Multiset.map_le_map (Multiset.cons_le_cons _ ?_)) (hdist hirr)
  rw [← h.entries]
  exact le_entriesOf R.mem_leaf

/-- The invariant over the leaves in which the new leaf stands behind the one that split. -/
theorem TreeInv.splice {Q : K → K → Ptr → Prop} {m' : Mem N K V} {pivot : K} {d' : ℕ}
    {root' : RawPtr K} (h : TreeInv r m d root ops) (R : Route N r Q 1 d ⊥ ⊤ root key)
    (hc : c ∉ root.leaves d) (hfull : (m R.leaf).entries.card = N) (hN : 2 ≤ N)
    (hs : SplitMem key v R.leaf c m m' pivot)
    (hdist : (∀ a, ¬ r a a) → (((key, v) ::ₘ ops).map Prod.fst).Nodup)
    (hshape : Shape N (Cell r m') 1 d' ⊥ ⊤ root')
    (hleaves : root'.leaves d' = R.before ++ R.leaf :: c :: R.after) :
    TreeInv r m' d' root' ((key, v) ::ₘ ops) := by
  have hnd := R.leaves_eq ▸ h.nodup
  have hupd := R.frame h.nodup hc hs
  refine ⟨hshape, ?_, ?_, ?_, ?_, hdist, ?_⟩
  · rw [hleaves]
    exact nodup_splice hnd (R.leaves_eq ▸ hc)
  · rw [hleaves]
    refine (R.leaves_eq ▸ h.linked).splice R.before R.after R.leaf c hnd ?_ ?_ ?_
    · exact hs.halves.next.1
    · exact hs.halves.next.2
    · intro q hq _
      simp only [hupd q hq]
  · have hb := entriesOf_congr (fun q hq => hupd q (List.mem_append_left _ hq))
    have ha := entriesOf_congr (fun q hq => hupd q (List.mem_append_right _ hq))
    rw [hleaves, ← h.entries, R.leaves_eq, entriesOf_append, entriesOf_cons, entriesOf_append,
      entriesOf_cons, entriesOf_cons, hb, ha, ← add_assoc (m' R.leaf).entries, hs.halves.entries,
      Multiset.cons_add, Multiset.add_cons]
  · intro p hp
    rw [hleaves, mem_splice] at hp
    rcases hp with rfl | rfl | hp
    · have := hs.halves.left_count
      omega
    · obtain ⟨w, hw⟩ := hs.halves.pivot_mem
      exact Multiset.card_pos_iff_exists_mem.mpr ⟨_, hw⟩
    · rw [hupd p hp]
      exact h.occupied p (R.mem_of_mem hp)
  · intro hirr _ p hp
    rw [hleaves, mem_splice] at hp
    have hslots := (m R.leaf).full_iff.mpr hfull
    rcases hp with rfl | rfl | hp
    · exact hs.halves.left_count
    · have hd := h.distinct_leaf R hdist hirr
      rw [Multiset.map_cons, Multiset.nodup_cons] at hd
      exact hs.halves.right_count (keys_injective _ hslots hd.2)
    · rw [hupd p hp]
      refine h.half hirr ?_ p (R.mem_of_mem hp)
      by_contra hd
      obtain rfl : d = 0 := by omega
      have hlen := leaves_zero R
      simp [hlen] at hp

/-- The leaf that the key leads to is full and `c` is a fresh leaf. -/
theorem TreeInv.step_split (hN : 2 ≤ N) (hr : Bound r) (h : TreeInv r m d root ops)
    (hkey : key ≠ ⊤) (hnew : (∀ a, ¬ r a a) → key ∉ ops.map Prod.fst)
    (R : Route N r (Cell r m) 1 d ⊥ ⊤ root key) (hc : c ∉ root.leaves d)
    (hfresh : ∀ i, (m c).keys.keys i = ⊤) (hfull : (m R.leaf).entries.card = N) :
    (Collides N (leafUp m) key d root →
      XTree.insertCore m ⟨d, some root⟩ key v (some c) = .error (.assert .splitThreshold)) ∧
    (¬ Collides N (leafUp m) key d root →
      ∃ res, XTree.insertCore m ⟨d, some root⟩ key v (some c) = .ok res ∧
        Step r m d root ((key, v) ::ₘ ops) c res) := by
  obtain ⟨m', pivot, hs, heq⟩ := R.split hN hkey hc hfresh hfull v
  have hdist : (∀ a, ¬ r a a) → (((key, v) ::ₘ ops).map Prod.fst).Nodup := by
    intro hirr
    rw [Multiset.map_cons, Multiset.nodup_cons]
    exact ⟨hnew hirr, h.distinct hirr⟩
  obtain ⟨hleft, hright⟩ :=
    hs.halves.cells hN hr R.holds R.le R.lt (h.distinct_leaf R hdist)
  obtain ⟨hbad, hgood⟩ := R.hang hN hr hfull hs (Cell.fences r)
    (fun a b q hq hcell => hcell.congr (R.frame h.nodup hc hs q hq)) hleft hright
  rw [heq]
  refine ⟨fun hcol => by rw [hbad hcol]; rfl, fun hcol => ?_⟩
  obtain ⟨out, root', hlink, hroot', hshape, hgrow, hleaves⟩ := hgood hcol
  have hinv := h.splice R hc hfull hN hs hdist hshape hleaves
  rw [hlink]
  refine ⟨_, rfl, ⟨root', hroot', hinv, ?_⟩, ?_, hgrow⟩
  · intro p hp
    rw [hleaves, mem_splice] at hp
    rcases hp with rfl | rfl | hp
    · exact Or.inl R.mem_leaf
    · exact Or.inr ⟨rfl, rfl⟩
    · exact Or.inl (R.mem_of_mem hp)
  · intro hfalse
    cases hfalse

theorem insertCore_new [Inhabited V] (hN : 2 ≤ N) (hr : Bound r) (hkey : key ≠ ⊤)
    (hfresh : m c = XNode.new) (v : V) :
    ∃ n', XTree.insertCore m XTree.new key v (some c) =
        .ok (Function.update m c n', ⟨0, some (.leaf c)⟩, true) ∧
      TreeInv r (Function.update m c n') 0 (.leaf c) {(key, v)} := by
  have hzero : (m c).entries = 0 := by
    rw [hfresh]
    exact XNode.entries_fresh _ (fun i => rfl)
  obtain ⟨n', hraw, hadd⟩ := rawInsert_room m c key v (some c)
    (by rw [hzero, Multiset.card_zero]; omega) hkey
  have hent : n'.entries = {(key, v)} := by
    rw [hadd.entries, hzero]
    rfl
  have hlt : key < ⊤ := lt_top_iff_ne_top.mpr hkey
  refine ⟨n', by simp [XTree.insertCore, XTree.new, RawPtr.asLeaf, hraw], ⟨?_, ?_⟩, ?_, ?_, ?_,
    ?_, ?_, ?_⟩
  · exact hr.of_lt (bot_le.trans_lt hlt)
  · intro e he
    rw [Function.update_self, hent] at he
    rw [Multiset.mem_singleton.mp he]
    exact ⟨bot_le, hr.of_lt hlt⟩
  · simp [RawPtr.leaves]
  · refine ⟨?_, trivial⟩
    simp only [Function.update_self, hadd.next, hfresh]
    rfl
  · simp [RawPtr.leaves, entriesOf, hent]
  · intro p hp
    obtain rfl := List.mem_singleton.mp hp
    rw [Function.update_self, hent, Multiset.card_singleton]
  · simp
  · intro _ hd
    omega

end XStore.Xkv
