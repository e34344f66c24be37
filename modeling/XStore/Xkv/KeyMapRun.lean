import XStore.Xkv.KeyMapTree
import XStore.Xkv.Lookup

/-! Runs of inserts with keys of the image. The run with the ordered keys goes through, so the run
beside it does, and its lookups find the same. -/
namespace XStore.Xkv
open XStore.Lib
variable {N : ℕ} {K₁ K V : Type} [LinearOrder K₁] [BoundedOrder K₁] [KeyType K] {φ : K₁ → K}
variable [StdSort]

section Core
variable {S : Ptr → Prop} {m₁ : Mem N K₁ V} {m : Mem N K V}

def CoreSim (φ : K₁ → K) (S : Ptr → Prop) (r₁ : Mem N K₁ V × XTree K₁ × Bool)
    (r : Mem N K V × XTree K × Bool) : Prop :=
  MemSim φ S r₁.1 r.1 ∧ r.2.1 = r₁.2.1.map φ ∧ r.2.2 = r₁.2.2

/-- The leaf that `insert_core` goes to; in the empty tree it is the new one. -/
def Reaches (t : XTree K₁) (newLeaf : Option Ptr) (key : K₁) (p : Ptr) : Prop :=
  match t.root with
  | none => newLeaf = some p
  | some root => XTree.findLeafFrom key t.depth root = .ok p

theorem insertCore_root_map (h : KeyHom φ) (hm : MemSim φ S m₁ m) {newLeaf : Option Ptr}
    (hnew : ∀ c, newLeaf = some c → S c) (d : ℕ) (root₁ : RawPtr K₁) (key : K₁) (v : V)
    (hleaf : ∀ p, XTree.findLeafFrom key d root₁ = .ok p → LeafOk S m₁ p) :
    Related (CoreSim φ S) (XTree.insertCore m₁ ⟨d, some root₁⟩ key v newLeaf)
      (XTree.insertCore m ⟨d, some (root₁.map φ)⟩ (φ key) v newLeaf) := by
  unfold XTree.insertCore
  simp only [pure_eq_ok, ok_bind]
  cases d with
  | zero =>
    simp only [asLeaf_map]
    cases root₁ with
    | inner _ => exact Related.error _
    | leaf p =>
      cases newLeaf with
      | none => exact Related.error _
      | some c =>
        obtain ⟨hp, hinj⟩ := hleaf p rfl
        refine (rawInsert_map h hm hp hnew hinj key v).bind ?_
        rintro ⟨m₁', split⟩ ⟨m', split'⟩ ⟨(hm' : MemSim φ S m₁' m'), (rfl : split' = split)⟩
        cases split' with
        | false => exact Related.pure ⟨hm', rfl, rfl⟩
        | true =>
          refine (firstKey_sim hm' (hnew c rfl)).bind ?_
          rintro up x rfl
          refine Related.pure ⟨hm', ?_, rfl⟩
          simp only [XTree.map, Option.map_some, RawPtr.map_inner,
            ← TreeInner.newRoot_map (RawPtr.map φ) h, RawPtr.map_leaf]
  | succ d =>
    cases root₁ with
    | leaf _ => exact Related.error _
    | inner n =>
      simp only [RawPtr.map_inner, RawPtr.asInner, ok_bind]
      refine (insert_map h hm hnew (d + 1) n key v hleaf).bind ?_
      rintro ⟨m₁', n₁, sib₁, split⟩ ⟨m', n', sib', split'⟩ ⟨hm', hn, hsib, hsplit⟩
      simp only at hm' hn hsib hsplit
      subst hn hsib hsplit
      cases sib₁ with
      | none =>
        refine Related.pure ⟨hm', ?_, rfl⟩
        simp only [XTree.map, Option.map_some, RawPtr.map_inner]
      | some s =>
        refine Related.pure ⟨hm', ?_, rfl⟩
        simp only [XTree.map, Option.map_some, RawPtr.map_inner,
          ← TreeInner.newRoot_map (RawPtr.map φ) h]
        rfl

omit [BoundedOrder K₁] [LinearOrder K₁] [KeyType K] in
theorem insertCore_empty [KeyType K₁] (m : Mem N K₁ V) (key : K₁) (v : V) (c : Ptr) :
    XTree.insertCore m ⟨0, none⟩ key v (some c) = (do
      let (m, t, _) ← XTree.insertCore m ⟨0, some (.leaf c)⟩ key v (some c)
      pure (m, t, true)) := by
  simp only [XTree.insertCore, need_some, RawPtr.asLeaf, ok_bind, pure_eq_ok]
  cases rawInsert m c key v (some c) with
  | error e => rfl
  | ok r =>
    obtain ⟨m', split⟩ := r
    cases split with
    | false => rfl
    | true =>
      simp only [ok_bind, if_true]
      cases (m' c).firstKey <;> rfl

theorem insertCore_map (h : KeyHom φ) (hm : MemSim φ S m₁ m) {newLeaf : Option Ptr}
    (hnew : ∀ c, newLeaf = some c → S c) (t : XTree K₁) (hdepth : t.root = none → t.depth = 0)
    (key : K₁) (v : V) (hleaf : ∀ p, Reaches t newLeaf key p → LeafOk S m₁ p) :
    Related (CoreSim φ S) (t.insertCore m₁ key v newLeaf)
      ((t.map φ).insertCore m (φ key) v newLeaf) := by
  obtain ⟨d, root⟩ := t
  cases root with
  | some root => exact insertCore_root_map h hm hnew d root key v hleaf
  | none =>
    obtain rfl : d = 0 := hdepth rfl
    cases newLeaf with
    | none => exact Related.error _
    | some c =>
      rw [XTree.map, Option.map_none, insertCore_empty, insertCore_empty]
      refine (insertCore_root_map h hm hnew 0 (.leaf c) key v (fun p hp => hleaf p ?_)).bind ?_
      · exact congrArg some (Except.ok.inj hp)
      · rintro ⟨m₁', t₁, _⟩ ⟨m', t, _⟩ ⟨hm', ht, -⟩
        exact Related.pure ⟨hm', ht, rfl⟩

end Core

section Runs
variable [Inhabited V] {w₁ w₁' : World N K₁ V TrivalAlloc} {w : World N K V TrivalAlloc}
  {key : K₁} {v : V} {ops : Multiset (K₁ × V)}

structure WorldSim (φ : K₁ → K) (w₁ : World N K₁ V TrivalAlloc) (w : World N K V TrivalAlloc) :
    Prop where
  tree : w.tree = w₁.tree.map φ
  alloc : w.alloc = w₁.alloc
  spare : w.preAllocLeafNode = w₁.preAllocLeafNode
  spare_lt : ∀ c, w₁.preAllocLeafNode = some c → c < w₁.alloc.allocated
  mem : MemSim φ (· < w₁.alloc.allocated) w₁.mem w.mem

omit [StdSort] in
theorem new_map (h : KeyHom φ) : (XNode.new : XNode N K V) = (XNode.new : XNode N K₁ V).map φ := by
  simp only [XNode.new, XNodeKeys.new, XNode.map, XNodeKeys.map, h.invalid,
    KeyType.invalid_ofOrder]

omit [StdSort] in
theorem initPreAllocedLeaf_map (h : KeyHom φ) (hw : WorldSim φ w₁ w) :
    Related (WorldSim φ) w₁.initPreAllocedLeaf w.initPreAllocedLeaf := by
  have hmem : MemSim φ (· < w₁.alloc.allocated + 1)
      (Function.update w₁.mem w₁.alloc.allocated XNode.new)
      (Function.update w.mem w₁.alloc.allocated XNode.new) := by
    intro p hp
    rcases Nat.lt_succ_iff_lt_or_eq.mp hp with hlt | rfl
    · rw [Function.update_of_ne hlt.ne, Function.update_of_ne hlt.ne, hw.mem p hlt]
    · rw [Function.update_self, Function.update_self, new_map h]
  simp only [World.initPreAllocedLeaf, AllocTrait.alloc, hw.alloc]
  refine Related.ok ⟨hw.tree, rfl, rfl, fun c hc => ?_, hmem⟩
  obtain rfl := Option.some.inj hc
  exact Nat.lt_succ_self _

theorem insertWorld_map (h : KeyHom φ) (hw : WorldSim φ w₁ w) {c : Ptr}
    (hpre : w₁.preAllocLeafNode = some c) (hdepth : w₁.tree.root = none → w₁.tree.depth = 0)
    (hleaf : ∀ p, Reaches w₁.tree (some c) key p →
      LeafOk (· < w₁.alloc.allocated) w₁.mem p) :
    Related (WorldSim φ) (w₁.insert key v) (w.insert (φ key) v) := by
  have hc : ∀ c', some c = some c' → c' < w₁.alloc.allocated := by
    intro c' hc'
    exact hw.spare_lt c' (hpre.trans hc')
  have hcore := insertCore_map h hw.mem hc w₁.tree hdepth key v hleaf
  rw [← hw.tree] at hcore
  simp only [World.insert, World.insertWAlloc, hw.spare, hpre, pure_eq_ok, ok_bind]
  refine Related.bind (R := fun (r₁ : World N K₁ V TrivalAlloc × Bool)
    (r : World N K V TrivalAlloc × Bool) => WorldSim φ r₁.1 r.1) (hcore.bind ?_)
    (fun r₁ r hr => Related.ok hr)
  rintro ⟨m₁', t₁', ret⟩ ⟨m', t', ret'⟩ ⟨hm', ht', hret⟩
  simp only at hm' ht' hret
  subst ht' hret
  have hw' : WorldSim φ ⟨m₁', w₁.alloc, some c, t₁'⟩ ⟨m', w.alloc, some c, t₁'.map φ⟩ :=
    ⟨rfl, hw.alloc, rfl, hc, hm'⟩
  cases ret' with
  | false => exact Related.ok hw'
  | true =>
    simp only [World.takePreAllocedLeaf, if_true]
    exact (initPreAllocedLeaf_map h hw').bind (fun r₁ r hr => Related.ok hr)

theorem insert_init_eq {K : Type} [KeyType K] (m : Mem N K V) (key : K) (v : V) :
    (World.init m).insert key v =
      (⟨Function.update m 0 XNode.new, ⟨1⟩, some 0, XTree.new⟩ :
        World N K V TrivalAlloc).insert key v := rfl

omit [StdSort] [Inhabited V] in
theorem WorldInv.leafOk (hN : 2 ≤ N) {root : RawPtr K₁}
    (hinv : WorldInv (fun a b => a < b) w₁ root ops) (hkey : key ≠ ⊤) (p : Ptr)
    (hp : XTree.findLeafFrom key w₁.tree.depth root = .ok p) :
    LeafOk (· < w₁.alloc.allocated) w₁.mem p := by
  obtain ⟨q, hq, hfind, -⟩ := hinv.tree.find hN hkey
  obtain rfl := Except.ok.inj (hfind.symm.trans hp)
  refine ⟨hinv.allocated q hq, fun hfull => keys_injective _ hfull ?_⟩
  refine Multiset.nodup_of_le (Multiset.map_le_map ?_) (hinv.tree.distinct lt_irrefl)
  rw [← hinv.tree.entries]
  exact le_entriesOf hq

theorem Ready.insert_map (hN : 2 ≤ N) (h : KeyHom φ) (hready : Ready (fun a b => a < b) w₁ ops)
    (hw : WorldSim φ w₁ w) (hkey : key ≠ ⊤) (v : V) :
    Related (WorldSim φ) (w₁.insert key v) (w.insert (φ key) v) := by
  rcases hready with ⟨m₁, rfl, rfl⟩ | ⟨root, hinv⟩
  · obtain ⟨m, alloc, spare, tree⟩ := w
    obtain rfl : tree = XTree.new := hw.tree
    obtain rfl : alloc = ⟨0⟩ := hw.alloc
    obtain rfl : spare = none := hw.spare
    have hmem : MemSim φ (· < 1) (Function.update m₁ 0 XNode.new)
        (Function.update m 0 XNode.new) := by
      intro p hp
      obtain rfl : p = 0 := Nat.lt_one_iff.mp hp
      rw [Function.update_self, Function.update_self, new_map h]
    rw [insert_init_eq, show (⟨m, ⟨0⟩, none, XTree.new⟩ : World N K V TrivalAlloc) = World.init m
      from rfl, insert_init_eq]
    refine insertWorld_map h ⟨rfl, rfl, rfl, fun c hc => ?_, hmem⟩ rfl (fun _ => rfl)
      (fun p hp => ?_)
    · obtain rfl := Option.some.inj hc
      exact Nat.one_pos
    · obtain rfl := Option.some.inj hp
      refine ⟨Nat.one_pos, fun hfull => ?_⟩
      have hnew : ((XNode.new : XNode N K₁ V)).keys.Full := by
        rwa [← Function.update_self 0 (XNode.new : XNode N K₁ V) m₁]
      exact absurd rfl (hnew ⟨0, by omega⟩)
  · obtain ⟨c, hpre, -⟩ := hinv.spare
    refine insertWorld_map h hw hpre (fun hnone => ?_) (fun p hp => ?_)
    · rw [hinv.root_eq] at hnone
      cases hnone
    · rw [Reaches, hinv.root_eq] at hp
      exact hinv.leafOk hN hkey p hp

omit [StdSort] [Inhabited V] in
theorem Ready.get_map (hN : 2 ≤ N) (h : KeyHom φ) {root : RawPtr K₁}
    (hinv : WorldInv (fun a b => a < b) w₁ root ops) (hw : WorldSim φ w₁ w) (hkey : key ≠ ⊤) :
    w.get (φ key) = w₁.get key := by
  obtain ⟨p, -, hfind, -⟩ := hinv.tree.find hN hkey
  have hp := (hinv.leafOk hN hkey p hfind).1
  have hroot : w.tree.root = some (root.map φ) := by rw [hw.tree, XTree.map, hinv.root_eq]; rfl
  have hdepth : w.tree.depth = w₁.tree.depth := by rw [hw.tree]; rfl
  simp only [World.get, XTree.get, XTree.findLeaf, hroot, hinv.root_eq, hdepth,
    findLeafFrom_map h, hfind, ok_bind, pure_eq_ok, need_some, hw.mem p hp, XNode.search_map h]
  cases (w₁.mem p).search key <;> rfl

omit [StdSort] [LinearOrder K₁] [BoundedOrder K₁] [KeyType K] [Inhabited V] in
theorem WorldSim.init (m₁ : Mem N K₁ V) (m : Mem N K V) :
    WorldSim φ (World.init m₁) (World.init m) where
  tree := rfl
  alloc := rfl
  spare := rfl
  spare_lt c hc := by cases hc
  mem p hp := absurd hp (Nat.not_lt_zero p)

/-- The run beside a run of distinct keys. -/
theorem insertAll_map (hN : 2 ≤ N) (h : KeyHom φ) (m₁ : Mem N K₁ V) (m : Mem N K V)
    (ops : List (K₁ × V)) (hkeys : ∀ op ∈ ops, op.1 ≠ ⊤) (hd : (ops.map Prod.fst).Nodup)
    (hrun : (World.init m₁).insertAll ops = .ok w₁) :
    ∃ w, (World.init m).insertAll (ops.map (Prod.map φ id)) = .ok w ∧ WorldSim φ w₁ w := by
  induction ops using List.reverseRecOn generalizing w₁ with
  | nil =>
    obtain rfl := Except.ok.inj hrun
    exact ⟨World.init m, rfl, WorldSim.init m₁ m⟩
  | append_singleton ops op ih =>
    have hkeys' : ∀ op ∈ ops, op.1 ≠ ⊤ := fun o ho => hkeys o (List.mem_append_left _ ho)
    rw [List.map_append, List.nodup_append] at hd
    obtain ⟨w₂, hprev, hready⟩ := Ready.insertAll hN (Or.inl ⟨m₁, rfl, rfl⟩) ops hkeys'
      (by simpa using hd.1)
    obtain ⟨w', hprev', hw'⟩ := ih hkeys' hd.1 hprev
    simp only [World.insertAll, List.foldlM_append, List.foldlM_cons, List.foldlM_nil] at hrun
    rw [World.insertAll] at hprev
    simp only [hprev, ok_bind, bind_pure] at hrun
    obtain ⟨w, hlast, hw⟩ :=
      (hready.insert_map hN h hw' (hkeys op (by simp)) op.2).exists_ok hrun
    refine ⟨w, ?_, hw⟩
    rw [World.insertAll] at hprev' ⊢
    simp only [List.map_append, List.foldlM_append, hprev', List.map_cons, List.map_nil,
      List.foldlM_cons, List.foldlM_nil, ok_bind, Prod.map_fst, Prod.map_snd, id, hlast,
      pure_eq_ok]

/-- Keys of the image that are distinct and no placeholder: every insert goes through, and every
lookup finds the value that was inserted. -/
theorem insertAll_image (hN : 2 ≤ N) (h : KeyHom φ) (m : Mem N K V) (ops : List (K₁ × V))
    (hkeys : ∀ op ∈ ops, op.1 ≠ ⊤) (hd : (ops.map Prod.fst).Nodup) :
    ∃ w, (World.init m).insertAll (ops.map (Prod.map φ id)) = .ok w ∧
      ∀ op ∈ ops, w.get (φ op.1) = .ok (some op.2) := by
  let m₁ : Mem N K₁ V := fun _ => XNode.new
  obtain ⟨w₁, hrun, hready⟩ := Ready.insertAll hN (Or.inl ⟨m₁, rfl, rfl⟩) ops hkeys
    (by simpa using hd)
  obtain ⟨w, hrun', hw⟩ := insertAll_map hN h m₁ m ops hkeys hd hrun
  refine ⟨w, hrun', fun op hop => ?_⟩
  rcases hready with ⟨m', -, hzero⟩ | ⟨root, hinv⟩
  · simp only [add_zero, Multiset.coe_eq_zero] at hzero
    rw [hzero] at hop
    cases hop
  · have hop' : op ∈ ((ops : Multiset (K₁ × V)) + 0) := by simpa using hop
    have htree : w₁.tree = ⟨w₁.tree.depth, some root⟩ := by rw [← hinv.root_eq]
    have hget := (hinv.tree.get hN (hkeys op hop)).1 op.2 hop'
    rw [← htree] at hget
    rw [Ready.get_map hN h hinv hw (hkeys op hop)]
    exact hget

end Runs
end XStore.Xkv
