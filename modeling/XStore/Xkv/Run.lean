import XStore.Xkv.InsertStep

/-! Runs of inserts: what holds after any number of them, from the empty tree on. -/
namespace XStore.Xkv
open XStore.Lib
variable {N : ℕ} {K V : Type} [LinearOrder K] [BoundedOrder K] [StdSort]
variable {r : K → K → Prop}

/-- The insert would meet a full inner node with key < `mid` ≤ the separator handed up to it,
`mid` its middle separator. -/
def World.Collides (w : World N K V TrivalAlloc) (k : K) : Prop :=
  ∃ root, w.tree.root = some root ∧ Xkv.Collides N (leafUp w.mem) k w.tree.depth root

/-- A world that holds the entries `ops`; its pre-allocated leaf is fresh and in no tree. -/
structure WorldInv (r : K → K → Prop) (w : World N K V TrivalAlloc) (root : RawPtr K)
    (ops : Multiset (K × V)) : Prop where
  root_eq : w.tree.root = some root
  tree : TreeInv r w.mem w.tree.depth root ops
  allocated : ∀ p ∈ root.leaves w.tree.depth, p < w.alloc.allocated
  spare : ∃ c, w.preAllocLeafNode = some c ∧ c < w.alloc.allocated ∧
    c ∉ root.leaves w.tree.depth ∧ ∀ i, (w.mem c).keys.keys i = ⊤

/-- Before the first insert, or with a tree that stands. -/
def Ready (r : K → K → Prop) (w : World N K V TrivalAlloc) (ops : Multiset (K × V)) : Prop :=
  (∃ m, w = World.init m ∧ ops = 0) ∨ ∃ root, WorldInv r w root ops

/-- The insert into the tree that stands: the outcome of `insert_core` decides. -/
theorem TreeInv.insertCore (hN : 2 ≤ N) (hr : Bound r) {m : Mem N K V} {d : ℕ} {root : RawPtr K}
    {ops : Multiset (K × V)} {key : K} {c : Ptr} (h : TreeInv r m d root ops) (hkey : key ≠ ⊤)
    (hnew : (∀ a, ¬ r a a) → key ∉ ops.map Prod.fst) (hc : c ∉ root.leaves d)
    (hfresh : ∀ i, (m c).keys.keys i = ⊤) (v : V) :
    (Collides N (leafUp m) key d root →
      XTree.insertCore m ⟨d, some root⟩ key v (some c) = .error (.assert .splitThreshold)) ∧
    (¬ Collides N (leafUp m) key d root →
      ∃ res, XTree.insertCore m ⟨d, some root⟩ key v (some c) = .ok res ∧
        Step r m d root ((key, v) ::ₘ ops) c res) := by
  obtain ⟨R⟩ := h.shape.route hN hr (Cell.fences r) bot_le (lt_top_iff_ne_top.mpr hkey)
  cases (m R.leaf).card_entries_le.lt_or_eq with
  | inl hroom =>
    have hnone : leafUp m R.leaf = none := by
      rw [leafUp, numKeys_eq_card, if_neg hroom.ne]
    obtain ⟨-, hcol⟩ := exported_none R.found hnone
    exact ⟨fun h => absurd h hcol, fun _ => h.step_room hr hkey hnew R hc hroom⟩
  | inr hfull => exact h.step_split hN hr hkey hnew R hc hfresh hfull

section Step
variable [Inhabited V] {w : World N K V TrivalAlloc} {ops : Multiset (K × V)} {key : K} {v : V}

theorem insert_eq {c : Ptr} (hpre : w.preAllocLeafNode = some c) :
    w.insert key v = (w.tree.insertCore w.mem key v (some c)).map (fun res =>
      if res.2.2 then
        { mem := Function.update res.1 w.alloc.allocated XNode.new, tree := res.2.1
          alloc := ⟨w.alloc.allocated + 1⟩, preAllocLeafNode := some w.alloc.allocated }
      else { w with mem := res.1, tree := res.2.1 }) := by
  unfold World.insert World.insertWAlloc
  simp only [hpre, pure_eq_ok, ok_bind]
  cases w.tree.insertCore w.mem key v (some c) with
  | error e => rfl
  | ok res =>
    obtain ⟨m, t, ret⟩ := res
    cases ret <;>
      simp [World.takePreAllocedLeaf, World.initPreAllocedLeaf, AllocTrait.alloc, Except.map]

theorem WorldInv.insert (hN : 2 ≤ N) (hr : Bound r) {root : RawPtr K}
    (h : WorldInv r w root ops) (hkey : key ≠ ⊤)
    (hnew : (∀ a, ¬ r a a) → key ∉ ops.map Prod.fst) (v : V) :
    (w.Collides key → w.insert key v = .error (.assert .splitThreshold)) ∧
    (¬ w.Collides key →
      ∃ w' root', w.insert key v = .ok w' ∧ WorldInv r w' root' ((key, v) ::ₘ ops)) := by
  obtain ⟨c, hpre, hclt, hc, hfresh⟩ := h.spare
  have htree : w.tree = ⟨w.tree.depth, some root⟩ := by rw [← h.root_eq]
  obtain ⟨hbad, hgood⟩ := h.tree.insertCore hN hr hkey hnew hc hfresh v
  rw [← htree] at hbad hgood
  rw [insert_eq hpre]
  constructor
  · rintro ⟨root', hroot', hcol⟩
    obtain rfl := Option.some.inj (h.root_eq.symm.trans hroot')
    rw [hbad hcol]
    rfl
  · intro hnot
    obtain ⟨⟨m', t', ret⟩, heq, ⟨root', hroot', hinv, hsub⟩, hspare, -⟩ :=
      hgood (fun hcol => hnot ⟨root, h.root_eq, hcol⟩)
    rw [heq]
    refine ⟨_, root', rfl, ?_⟩
    have hlt : ∀ p ∈ root'.leaves t'.depth, p < w.alloc.allocated := by
      intro p hp
      rcases hsub p hp with hp | ⟨-, rfl⟩
      · exact h.allocated p hp
      · exact hclt
    cases ret with
    | true =>
      refine ⟨hroot', hinv.congr ?_, fun p hp => Nat.lt_succ_of_lt (hlt p hp),
        ⟨_, rfl, Nat.lt_succ_self _, fun hp => absurd (hlt _ hp) (lt_irrefl _), ?_⟩⟩
      · intro p hp
        exact Function.update_of_ne (hlt p hp).ne _ _
      · intro i
        simp [XNode.new, XNodeKeys.new]
    | false =>
      refine ⟨hroot', hinv, hlt, ⟨c, hpre, hclt, ?_, ?_⟩⟩
      · intro hp
        rcases hsub c hp with hp | ⟨hfalse, -⟩
        · exact hc hp
        · cases hfalse
      · change ∀ i, (m' c).keys.keys i = ⊤
        rw [show m' c = w.mem c from hspare rfl]
        exact hfresh

theorem World.insert_init (hN : 2 ≤ N) (hr : Bound r) (m : Mem N K V) (hkey : key ≠ ⊤) (v : V) :
    ∃ w' root', (World.init m).insert key v = .ok w' ∧ WorldInv r w' root' {(key, v)} := by
  set m₀ : Mem N K V := Function.update m 0 XNode.new with hm₀
  have hfresh : m₀ 0 = XNode.new := Function.update_self _ _ _
  obtain ⟨n', hres, hinv⟩ := insertCore_new hN hr hkey hfresh v
  let w' : World N K V TrivalAlloc :=
    { mem := Function.update (Function.update m₀ 0 n') 1 XNode.new, tree := ⟨0, some (.leaf 0)⟩
      alloc := ⟨2⟩, preAllocLeafNode := some 1 }
  refine ⟨w', .leaf 0, ?_, rfl, hinv.congr fun p hp => ?_, ?_, ?_⟩
  · simp [World.insert, World.insertWAlloc, World.init, World.initPreAllocedLeaf,
      World.takePreAllocedLeaf, AllocTrait.alloc, ← hm₀, hres, w']
  · obtain rfl := List.mem_singleton.mp hp
    simp [w']
  · intro p hp
    obtain rfl := List.mem_singleton.mp hp
    simp [w']
  · refine ⟨1, rfl, by simp [w'], by simp [w', RawPtr.leaves], fun i => ?_⟩
    simp [w', XNode.new, XNodeKeys.new]

theorem Ready.insert (hN : 2 ≤ N) (hr : Bound r) (h : Ready r w ops) (hkey : key ≠ ⊤)
    (hnew : (∀ a, ¬ r a a) → key ∉ ops.map Prod.fst) (v : V) :
    (w.Collides key → w.insert key v = .error (.assert .splitThreshold)) ∧
    (¬ w.Collides key → ∃ w', w.insert key v = .ok w' ∧
      ∃ root', WorldInv r w' root' ((key, v) ::ₘ ops)) := by
  rcases h with ⟨m, rfl, rfl⟩ | ⟨root, h⟩
  · constructor
    · rintro ⟨root, hroot, -⟩
      cases hroot
    · intro _
      obtain ⟨w', root', heq, hinv⟩ := World.insert_init hN hr m hkey v
      exact ⟨w', heq, root', hinv⟩
  · obtain ⟨hbad, hgood⟩ := h.insert hN hr hkey hnew v
    refine ⟨hbad, fun hnot => ?_⟩
    obtain ⟨w', root', heq, hinv⟩ := hgood hnot
    exact ⟨w', heq, root', hinv⟩

end Step

theorem TreeInv.not_collides {m : Mem N K V} {d : ℕ} {root : RawPtr K} {ops : Multiset (K × V)}
    {key : K} (h : TreeInv (fun a b => a < b) m d root ops) (hkey : key ≠ ⊤) :
    ¬ Xkv.Collides N (leafUp m) key d root := by
  refine h.shape.not_collides Bound.lt lt_irrefl (Cell.fences _) ?_ bot_le
    (lt_top_iff_ne_top.mpr hkey)
  intro a b p up hcell hup
  unfold leafUp at hup
  split at hup
  · next hfull =>
    rw [numKeys_eq_card] at hfull
    have hslots := (m p).full_iff.mpr hfull
    obtain ⟨i, -, rfl⟩ := Option.map_eq_some_iff.mp hup
    exact (hcell.2 _ ((m p).mem_entries _ |>.mpr ⟨i, hslots i, rfl⟩)).2
  · cases hup

theorem Ready.not_collides {w : World N K V TrivalAlloc} {ops : Multiset (K × V)} {key : K}
    (h : Ready (fun a b => a < b) w ops) (hkey : key ≠ ⊤) : ¬ w.Collides key := by
  rcases h with ⟨m, rfl, -⟩ | ⟨root, h⟩
  · rintro ⟨root, hroot, -⟩
    cases hroot
  · rintro ⟨root', hroot', hcol⟩
    obtain rfl := Option.some.inj (h.root_eq.symm.trans hroot')
    exact h.tree.not_collides hkey hcol

section Runs
variable [Inhabited V]

/-- A run of distinct keys succeeds and holds what was inserted. -/
theorem Ready.insertAll (hN : 2 ≤ N) {w : World N K V TrivalAlloc} {done : Multiset (K × V)}
    (h : Ready (fun a b => a < b) w done) (ops : List (K × V)) (hkeys : ∀ op ∈ ops, op.1 ≠ ⊤)
    (hd : ((↑ops + done).map Prod.fst).Nodup) :
    ∃ w', w.insertAll ops = .ok w' ∧ Ready (fun a b => a < b) w' (↑ops + done) := by
  induction ops generalizing w done with
  | nil => exact ⟨w, rfl, by simpa using h⟩
  | cons op ops ih =>
    obtain ⟨k, v⟩ := op
    have hkey : k ≠ ⊤ := hkeys (k, v) (by simp)
    have hd' := hd
    rw [← Multiset.cons_coe, Multiset.cons_add, Multiset.map_cons, Multiset.nodup_cons,
      Multiset.map_add, Multiset.mem_add, not_or] at hd'
    obtain ⟨w₁, heq, root₁, hinv⟩ :=
      (h.insert hN Bound.lt hkey (fun _ => hd'.1.2) v).2 (h.not_collides hkey)
    have hrest : (↑ops + (k, v) ::ₘ done) = (↑((k, v) :: ops) + done : Multiset (K × V)) := by
      rw [← Multiset.cons_coe, Multiset.add_cons, Multiset.cons_add]
    obtain ⟨w', hrun, hready⟩ := ih (Or.inr ⟨root₁, hinv⟩)
      (fun op hop => hkeys op (List.mem_cons_of_mem _ hop)) (by rw [hrest]; exact hd)
    refine ⟨w', ?_, by rw [← hrest]; exact hready⟩
    simp only [World.insertAll, List.foldlM_cons, heq, ok_bind]
    exact hrun

/-- A run that succeeded and met no collision goes on to the first collision. -/
theorem Ready.insertAll_iff (hN : 2 ≤ N) {w : World N K V TrivalAlloc} {done : Multiset (K × V)}
    (h : Ready (fun a b => a ≤ b ∧ a ≠ ⊤) w done) (ops : List (K × V))
    (hkeys : ∀ op ∈ ops, op.1 ≠ ⊤) :
    (∃ w', w.insertAll ops = .ok w' ∧ Ready (fun a b => a ≤ b ∧ a ≠ ⊤) w' (↑ops + done)) ∧
      (∀ before op after w₁, ops = before ++ op :: after → w.insertAll before = .ok w₁ →
        ¬ w₁.Collides op.1) ∨
    w.insertAll ops = .error (.assert .splitThreshold) ∧
      ∃ before op after w₁, ops = before ++ op :: after ∧ w.insertAll before = .ok w₁ ∧
        w₁.Collides op.1 := by
  induction ops generalizing w done with
  | nil =>
    refine Or.inl ⟨⟨w, rfl, by simpa using h⟩, ?_⟩
    intro before op after w₁ heq
    simp at heq
  | cons op ops ih =>
    have hkey : op.1 ≠ ⊤ := hkeys op (by simp)
    have hirr : ¬ ∀ a : K, ¬ (a ≤ a ∧ a ≠ ⊤) := fun hall => hall op.1 ⟨le_rfl, hkey⟩
    obtain ⟨hbad, hgood⟩ := h.insert hN Bound.le_ne_top hkey (fun hall => absurd hall hirr) op.2
    have hcons : ∀ w₁ ops', w.insert op.1 op.2 = .ok w₁ →
        w.insertAll (op :: ops') = w₁.insertAll ops' := by
      intro w₁ ops' heq
      simp only [World.insertAll, List.foldlM_cons, heq, ok_bind]
    by_cases hcol : w.Collides op.1
    · refine Or.inr ⟨?_, [], op, ops, w, rfl, rfl, hcol⟩
      simp only [World.insertAll, List.foldlM_cons, hbad hcol, error_bind]
    · obtain ⟨w₁, heq, root₁, hinv⟩ := hgood hcol
      rcases ih (Or.inr ⟨root₁, hinv⟩) (fun op hop => hkeys op (List.mem_cons_of_mem _ hop)) with
        ⟨⟨w', hrun, hready⟩, hall⟩ | ⟨herr, before, op', after, w₂, rfl, hrun, hcol'⟩
      · refine Or.inl ⟨⟨w', by rw [hcons w₁ ops heq, hrun], ?_⟩, ?_⟩
        · rw [← Multiset.cons_coe, Multiset.cons_add, ← Multiset.add_cons]
          exact hready
        · intro before op' after w₂ hsplit hrun'
          cases before with
          | nil =>
            obtain ⟨rfl, rfl⟩ := List.cons.inj hsplit
            obtain rfl : w = w₂ := Except.ok.inj hrun'
            exact hcol
          | cons b before =>
            obtain ⟨rfl, rfl⟩ := List.cons.inj hsplit
            rw [hcons w₁ before heq] at hrun'
            exact hall before op' after w₂ rfl hrun'
      · refine Or.inr ⟨by rw [hcons w₁ _ heq, herr], op :: before, op', after, w₂, rfl, ?_, hcol'⟩
        rw [hcons w₁ before heq, hrun]

end Runs

def firstKeys (n : ℕ) : List (XKey × XKey) := (List.range n).map (fun i => (Fin.ofNat _ i, 0))

omit [StdSort] in
theorem firstKeys_ascending {n : ℕ} (hn : n ≤ 2 ^ 64) :
    (firstKeys n).Pairwise (fun x y => x.1 < y.1) := by
  rw [firstKeys, List.pairwise_map]
  refine List.Pairwise.imp_of_mem (fun {i j} hi hj hlt => ?_) List.pairwise_lt_range
  have hi : i < 2 ^ 64 := (List.mem_range.mp hi).trans_le hn
  have hj : j < 2 ^ 64 := (List.mem_range.mp hj).trans_le hn
  rw [Fin.lt_def, Fin.val_ofNat, Fin.val_ofNat, Nat.mod_eq_of_lt hi, Nat.mod_eq_of_lt hj]
  exact hlt

omit [StdSort] in
theorem firstKeys_nodup {n : ℕ} (hn : n ≤ 2 ^ 64) : ((firstKeys n).map Prod.fst).Nodup :=
  (List.pairwise_map.mpr (firstKeys_ascending hn)).imp ne_of_lt

omit [StdSort] in
theorem firstKeys_ne_top {n : ℕ} (hn : n < 2 ^ 64) : ∀ op ∈ firstKeys n, op.1 ≠ ⊤ := by
  intro op hop htop
  obtain ⟨i, hi, rfl⟩ := List.mem_map.mp hop
  have hlt := List.mem_range.mp hi
  have hle : (Fin.ofNat _ (i + 1) : XKey) ≤ Fin.ofNat _ i := le_top.trans htop.ge
  rw [Fin.le_def, Fin.val_ofNat, Fin.val_ofNat, Nat.mod_eq_of_lt (by omega),
    Nat.mod_eq_of_lt (by omega)] at hle
  omega

end XStore.Xkv
