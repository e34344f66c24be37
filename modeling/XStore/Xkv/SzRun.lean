import XStore.Xkv.SzInner

/-! The sizes of a tree that inserts have built. Whatever the keys and the comparisons, every
insert leaves all leaves at one depth and one child more than separators in every node. -/
namespace XStore.Xkv
open XStore.Lib
variable {N : ℕ} {K V A : Type}

section Node
variable {d i pos k : ℕ} {n n' : TreeInner K (RawPtr K)} {up : K} {c : RawPtr K}

theorem Uniform.insertAtPos (h : Uniform (d + 1) (.inner n)) (hc : Uniform d c)
    (hins : n.insertAtPos N up c pos = .ok n') : Uniform (d + 1) (.inner n') := by
  obtain ⟨hlen, hall⟩ := h
  unfold TreeInner.insertAtPos at hins
  split at hins
  · next hin =>
    cases hins
    constructor
    · rw [List.length_insertIdx_of_le_length (by omega),
        List.length_insertIdx_of_le_length hin.1, hlen]
    · intro x hx
      cases List.eq_or_mem_of_mem_insertIdx hx with
      | inl heq => exact heq ▸ hc
      | inr hmem => exact hall x hmem
  · cases hins

theorem Uniform.copyAfterNTo {next : TreeInner K (RawPtr K)} (h : Uniform (d + 1) (.inner n))
    (hi : i ≤ n.keys.length) (hcopy : n.copyAfterNTo next i = .ok n') :
    Uniform (d + 1) (.inner n') := by
  obtain ⟨hlen, hall⟩ := h
  obtain ⟨_, -, hcopy⟩ := bind_eq_ok.mp hcopy
  cases hcopy
  constructor
  · simp only [List.length_drop, hlen]
    omega
  · exact fun x hx => hall x (List.mem_of_mem_drop hx)

theorem Uniform.setNumKeys (h : Uniform (d + 1) (.inner n)) (hi : i ≤ n.keys.length) :
    Uniform (d + 1) (.inner (n.setNumKeys i)) := by
  obtain ⟨hlen, hall⟩ := h
  constructor
  · simp only [TreeInner.setNumKeys, List.length_take, hlen]
    omega
  · exact fun x hx => hall x (List.mem_of_mem_take hx)

theorem Uniform.setChild (h : Uniform (d + 1) (.inner n)) (i : ℕ) (hc : Uniform d c) :
    Uniform (d + 1) (.inner { n with childrens := n.childrens.set i c }) := by
  refine ⟨by simpa using h.1, fun x hx => ?_⟩
  cases List.mem_or_eq_of_mem_set hx with
  | inl hmem => exact h.2 x hmem
  | inr heq => exact heq ▸ hc

variable [KeyType K]

theorem Uniform.newRoot {l r : RawPtr K} (hl : Uniform d l) (hr : Uniform d r) :
    Uniform (d + 1) (.inner (.newRoot up l r)) := by
  refine ⟨rfl, fun x hx => ?_⟩
  cases List.mem_cons.mp hx with
  | inl heq => exact heq ▸ hl
  | inr hx => exact List.mem_singleton.mp hx ▸ hr

theorem Uniform.insertToMe {s : Option (TreeInner K (RawPtr K))}
    (h : Uniform (d + 1) (.inner n)) (hc : Uniform d c)
    (hins : n.insertToMe N k up c = .ok (n', s)) :
    Uniform (d + 1) (.inner n') ∧ ∀ sib ∈ s, Uniform (d + 1) (.inner sib) := by
  unfold TreeInner.insertToMe at hins
  obtain ⟨_, -, hins⟩ := bind_eq_ok.mp hins
  by_cases hfull : n.full N = true
  · rw [if_pos hfull] at hins
    have hlen : n.keys.length = N := by simpa [TreeInner.full] using hfull
    obtain ⟨sib, hsib, hins⟩ := bind_eq_ok.mp hins
    obtain ⟨mid, hmid, hins⟩ := bind_eq_ok.mp hins
    obtain ⟨hlt, -⟩ := List.getElem?_eq_some_iff.mp (need_eq_ok.mp hmid)
    have hupper : Uniform (d + 1) (.inner sib) :=
      h.copyAfterNTo (i := (N + 1) / 2) (by omega) hsib
    have hlower : Uniform (d + 1) (.inner (n.setNumKeys ((N + 1) / 2 - 1))) :=
      h.setNumKeys (i := (N + 1) / 2 - 1) (by omega)
    dsimp only at hins
    split at hins
    · obtain ⟨_, -, hins⟩ := bind_eq_ok.mp hins
      obtain ⟨sib', hsib', hins⟩ := bind_eq_ok.mp hins
      cases hins
      refine ⟨hlower, fun x hx => ?_⟩
      obtain rfl := Option.some.inj hx
      exact Uniform.insertAtPos (n := { sib with upKey := mid }) hupper hc hsib'
    · obtain ⟨low, hlow, hins⟩ := bind_eq_ok.mp hins
      cases hins
      refine ⟨hlower.insertAtPos hc hlow, fun x hx => ?_⟩
      obtain rfl := Option.some.inj hx
      exact hupper
  · rw [if_neg hfull] at hins
    obtain ⟨n₁, hn₁, hins⟩ := bind_eq_ok.mp hins
    cases hins
    exact ⟨h.insertAtPos hc hn₁, by simp⟩

theorem Uniform.insert [StdSort] {m m' : Mem N K V} {key : K} {v : V} {candidate : Option Ptr}
    {s : Option (TreeInner K (RawPtr K))} {b : Bool} (h : Uniform (d + 1) (.inner n))
    (hins : n.insert (d + 1) m key v candidate = .ok (m', n', s, b)) :
    Uniform (d + 1) (.inner n') ∧ ∀ sib ∈ s, Uniform (d + 1) (.inner sib) := by
  induction d generalizing n m m' n' s b with
  | zero =>
    rw [TreeInner.insert] at hins
    obtain ⟨child, hchild, hins⟩ := bind_eq_ok.mp hins
    obtain ⟨leaf, hleaf, hins⟩ := bind_eq_ok.mp hins
    obtain ⟨⟨m₁, split⟩, hraw, hins⟩ := bind_eq_ok.mp hins
    cases split with
    | true =>
      obtain ⟨c, hc, hins⟩ := bind_eq_ok.mp hins
      obtain ⟨up, hup, hins⟩ := bind_eq_ok.mp hins
      obtain ⟨⟨n₁, s₁⟩, hme, hins⟩ := bind_eq_ok.mp hins
      cases hins
      exact h.insertToMe (c := .leaf c) trivial hme
    | false =>
      cases hins
      exact ⟨h, by simp⟩
  | succ d ih =>
    rw [TreeInner.insert] at hins
    obtain ⟨child, hchild, hins⟩ := bind_eq_ok.mp hins
    obtain ⟨inner, hinner, hins⟩ := bind_eq_ok.mp hins
    obtain ⟨⟨m₁, inner', newIn, b'⟩, hrec, hins⟩ := bind_eq_ok.mp hins
    obtain rfl := RawPtr.eq_inner_of_asInner hinner
    obtain ⟨hnode, hsib⟩ := ih (h.2 _ (List.mem_of_getElem? (need_eq_ok.mp hchild))) hrec
    have hset := h.setChild (n.findChildrenIdx key) hnode
    cases newIn with
    | some newIn =>
      obtain ⟨⟨n₁, s₁⟩, hme, hins⟩ := bind_eq_ok.mp hins
      cases hins
      exact hset.insertToMe (hsib newIn rfl) hme
    | none =>
      cases hins
      exact ⟨hset, by simp⟩

end Node

section Run
variable [KeyType K] [StdSort]

theorem XTree.insertCore_none (m : Mem N K V) (key : K) (v : V) (leaf : Ptr) :
    XTree.insertCore m ⟨0, none⟩ key v (some leaf) =
      (XTree.insertCore m ⟨0, some (.leaf leaf)⟩ key v (some leaf)).map
        (fun res => (res.1, res.2.1, true)) := by
  simp only [XTree.insertCore, need_some, ok_bind, pure_eq_ok, RawPtr.asLeaf]
  cases rawInsert m leaf key v (some leaf) with
  | error e => rfl
  | ok res =>
    obtain ⟨m₁, split⟩ := res
    cases split with
    | true =>
      simp only [ok_bind, if_true]
      cases (m₁ leaf).firstKey with
      | error e => rfl
      | ok up => rfl
    | false => rfl

theorem XTree.insertCore_uniform {m m' : Mem N K V} {depth : ℕ} {root : RawPtr K} {t' : XTree K}
    {key : K} {v : V} {newLeaf : Option Ptr} {b : Bool} (h : Xkv.Uniform depth root)
    (hins : XTree.insertCore m ⟨depth, some root⟩ key v newLeaf = .ok (m', t', b)) :
    t'.Uniform := by
  dsimp only [XTree.insertCore] at hins
  rw [pure_eq_ok, ok_bind] at hins
  cases depth with
  | zero =>
    obtain ⟨oldLeaf, hleaf, hins⟩ := bind_eq_ok.mp hins
    obtain ⟨leaf, hnew, hins⟩ := bind_eq_ok.mp hins
    obtain ⟨⟨m₁, split⟩, hraw, hins⟩ := bind_eq_ok.mp hins
    cases split with
    | true =>
      obtain ⟨up, hup, hins⟩ := bind_eq_ok.mp hins
      cases hins
      exact Xkv.Uniform.newRoot (d := 0) trivial trivial
    | false =>
      cases hins
      exact h
  | succ d =>
    obtain ⟨inner, hinner, hins⟩ := bind_eq_ok.mp hins
    obtain ⟨⟨m₁, inner', newSib, split⟩, hrec, hins⟩ := bind_eq_ok.mp hins
    obtain rfl := RawPtr.eq_inner_of_asInner hinner
    obtain ⟨hnode, hsib⟩ := Xkv.Uniform.insert h hrec
    cases newSib with
    | some sib =>
      cases hins
      exact Xkv.Uniform.newRoot hnode (hsib sib rfl)
    | none =>
      cases hins
      exact hnode

theorem XTree.Uniform.insertCore {m m' : Mem N K V} {t t' : XTree K} {key : K} {v : V}
    {newLeaf : Option Ptr} {b : Bool} (h : t.Uniform)
    (hins : t.insertCore m key v newLeaf = .ok (m', t', b)) : t'.Uniform := by
  obtain ⟨depth, root⟩ := t
  cases root with
  | none =>
    obtain rfl : depth = 0 := h
    cases newLeaf with
    | none => cases hins
    | some leaf =>
      rw [XTree.insertCore_none] at hins
      cases hcore : XTree.insertCore m ⟨0, some (.leaf leaf)⟩ key v (some leaf) with
      | error e =>
        rw [hcore] at hins
        cases hins
      | ok res =>
        obtain ⟨m₁, t₁, b₁⟩ := res
        rw [hcore] at hins
        cases hins
        exact XTree.insertCore_uniform (show Xkv.Uniform 0 (.leaf leaf) from trivial) hcore
  | some root => exact XTree.insertCore_uniform h hins

variable [AllocTrait A] [Inhabited V]

def World.insertAllWAlloc (w : World N K V A)
    (ops : List (K × V)) : Res (World N K V A) :=
  ops.foldlM (fun w op => do
    let (w, _) ← w.insertWAlloc op.1 op.2
    pure w) w

omit [StdSort] in
theorem World.initPreAllocedLeaf_tree {w w' : World N K V A}
    (h : w.initPreAllocedLeaf = .ok w') : w'.tree = w.tree := by
  unfold World.initPreAllocedLeaf at h
  split at h
  · cases h
    rfl
  · cases h

omit [StdSort] in
theorem World.takePreAllocedLeaf_tree {w w' : World N K V A}
    (h : w.takePreAllocedLeaf = .ok w') : w'.tree = w.tree := by
  unfold World.takePreAllocedLeaf at h
  split at h
  · obtain ⟨w₁, h₁, h⟩ := bind_eq_ok.mp h
    exact (initPreAllocedLeaf_tree h).trans (initPreAllocedLeaf_tree h₁)
  · exact initPreAllocedLeaf_tree h

theorem World.insertWAlloc_held {w w' : World N K V A} {key : K} {v : V} {b : Bool} {c : Ptr}
    (hpre : w.preAllocLeafNode = some c) (h : w.tree.Uniform)
    (hins : w.insertWAlloc key v = .ok (w', b)) : w'.tree.Uniform := by
  simp only [insertWAlloc, hpre, pure_eq_ok, ok_bind] at hins
  obtain ⟨⟨m, t, ret⟩, hcore, hins⟩ := bind_eq_ok.mp hins
  have htree := h.insertCore hcore
  cases ret with
  | true =>
    obtain ⟨w₁, htake, hins⟩ := bind_eq_ok.mp hins
    cases hins
    rw [takePreAllocedLeaf_tree htake]
    exact htree
  | false =>
    cases hins
    exact htree

theorem World.insertWAlloc_uniform {w w' : World N K V A} {key : K} {v : V} {b : Bool}
    (h : w.tree.Uniform) (hins : w.insertWAlloc key v = .ok (w', b)) : w'.tree.Uniform := by
  cases hpre : w.preAllocLeafNode with
  | some c => exact insertWAlloc_held hpre h hins
  | none =>
    cases hinit : w.initPreAllocedLeaf with
    | error e =>
      simp only [insertWAlloc, hpre, hinit, error_bind] at hins
      cases hins
    | ok w₁ =>
      obtain ⟨c, hc⟩ := initPreAllocedLeaf_held hinit
      rw [insertWAlloc_init hpre hinit] at hins
      refine insertWAlloc_held hc ?_ hins
      rw [initPreAllocedLeaf_tree hinit]
      exact h

theorem World.insertAllWAlloc_uniform {w w' : World N K V A} {ops : List (K × V)}
    (h : w.tree.Uniform) (hrun : w.insertAllWAlloc ops = .ok w') : w'.tree.Uniform := by
  refine foldlM_keeps (P := fun w => w.tree.Uniform) ?_ hrun h
  intro w op w₁ hround h
  obtain ⟨⟨w₂, b⟩, hins, hround⟩ := bind_eq_ok.mp hround
  cases hround
  exact insertWAlloc_uniform h hins

/-- Of a tree that inserts built, the sizes are exact as long as an int can hold that of all
inner nodes, and no longer. -/
theorem World.insertAll_sizesExact_iff (size bits : ℕ) (hbits : 32 ≤ bits) (start w : World N K V A)
    (hnew : start.tree = XTree.new) (ops : List (K × V))
    (hrun : start.insertAllWAlloc ops = .ok w) :
    SizesExact size bits w.tree ↔ size * w.tree.innerNodes.length < 2 ^ 31 := by
  have hstart : start.tree.Uniform := by
    rw [hnew]
    rfl
  exact XTree.sizesExact_iff (by omega) (insertAllWAlloc_uniform hstart hrun)

end Run

/-- Five keys into leaves of two slots: three inner nodes on two levels. -/
theorem World.insertAll_sizesExact_iff_five :
    letI := insertionStdSort
    ∃ w : World 2 XKey ℕ TrivalAlloc,
      (World.init (fun _ => XNode.new)).insertAllWAlloc
        [(1, 10), (2, 20), (3, 30), (4, 40), (5, 50)] = .ok w ∧
      w.tree.innerNodes.length = 3 ∧ SizesExact (TreeInner.size 2 8 8) 64 w.tree := by
  let : StdSort := insertionStdSort
  let five : List (XKey × ℕ) := [(1, 10), (2, 20), (3, 30), (4, 40), (5, 50)]
  have hrun : ((World.init (fun _ => XNode.new) : World 2 XKey ℕ TrivalAlloc).insertAllWAlloc
      five).toOption.map (fun w => w.tree.innerNodes.length) = some 3 := by
    decide +kernel
  cases hw : (World.init (fun _ => XNode.new) : World 2 XKey ℕ TrivalAlloc).insertAllWAlloc
      five with
  | error e =>
    rw [hw] at hrun
    cases hrun
  | ok w =>
    rw [hw] at hrun
    have hthree : w.tree.innerNodes.length = 3 := Option.some.inj hrun
    refine ⟨w, rfl, hthree, ?_⟩
    rw [World.insertAll_sizesExact_iff _ _ (by decide) _ w rfl _ hw, hthree]
    decide

section Count

theorem sum_bounds {α : Type} (cs : List α) {f g : α → ℕ}
    (h : ∀ c ∈ cs, f c + 1 ≤ g c ∧ g c ≤ 1 + N * f c) :
    (cs.map f).sum + cs.length ≤ (cs.map g).sum ∧
      (cs.map g).sum ≤ cs.length + N * (cs.map f).sum := by
  induction cs with
  | nil => simp
  | cons c cs ih =>
    have hc := h c (by simp)
    have hcs := ih (fun d hd => h d (by simp [hd]))
    simp only [List.map_cons, List.sum_cons, List.length_cons, Nat.mul_add]
    omega

/-- Every inner node has at least two children and at most `N + 1`. -/
theorem Shape.count {Q : K → K → Ptr → Prop} {lb d : ℕ} {lo hi : K} {t : RawPtr K} (hN : 3 ≤ N)
    (hlb : 1 ≤ lb) (h : Shape N Q lb d lo hi t) :
    (t.innerNodes d).length + 1 ≤ (t.leaves d).length ∧
      (t.leaves d).length ≤ 1 + N * (t.innerNodes d).length := by
  induction d generalizing lb lo hi t with
  | zero =>
    obtain ⟨p, rfl⟩ := h.eq_leaf
    simp [RawPtr.innerNodes, RawPtr.leaves]
  | succ d ih =>
    obtain ⟨n, rfl, hmin, hmax, hf⟩ := h.eq_inner
    have hhalf : 1 ≤ halfKeys N := by
      unfold halfKeys
      omega
    have hall := sum_bounds (N := N) n.childrens
      (f := fun c => (c.innerNodes d).length) (g := fun c => (c.leaves d).length) (by
        intro c hc
        obtain ⟨i, hi⟩ := List.getElem?_of_mem hc
        obtain ⟨a, b, hs, -⟩ := hf.getElem? hi
        exact ih hhalf hs)
    rw [hf.length] at hall
    simp only [RawPtr.innerNodes, RawPtr.leaves, List.length_cons, List.length_flatMap,
      Nat.mul_add, Nat.mul_one]
    omega

end Count

/-- The default tree with the first `n` keys: its inner nodes take more than an int holds. -/
theorem World.szInner_wrong [StdSort] {n : ℕ} (hlo : 2 ^ 31 ≤ n) (hhi : n ≤ 2 ^ 32)
    (m : Mem 16 XKey XKey) :
    ∃ w s, (World.init m).insertAllWAlloc (firstKeys n) = .ok w ∧
      w.tree.szInner (TreeInner.size 16 8 8) 64 = .ok s ∧
      s.value ≠ (TreeInner.size 16 8 8 * w.tree.innerNodes.length : ℕ) := by
  have hsize : TreeInner.size 16 8 8 = 280 := by decide
  have hlen : (firstKeys n).length = n := by rw [firstKeys, List.length_map, List.length_range]
  have hnodup : ((firstKeys n : Multiset (XKey × XKey)).map Prod.fst).Nodup := by
    rw [Multiset.map_coe, Multiset.coe_nodup]
    exact firstKeys_nodup (by omega)
  obtain ⟨w, hrun, hready⟩ := Ready.insertAll (by decide) (Or.inl ⟨m, rfl, rfl⟩) (firstKeys n)
    (firstKeys_ne_top (by omega)) (by rw [add_zero]; exact hnodup)
  have huniform : w.tree.Uniform := insertAllWAlloc_uniform (w := World.init m) rfl hrun
  have hbits : 31 ≤ 64 := by decide
  obtain ⟨s, hs, -⟩ := XTree.szInner_tracks (TreeInner.size 16 8 8) hbits huniform
  obtain ⟨x, hx⟩ := szInnerImpl_value hs
  refine ⟨w, s, hrun, hs, ?_⟩
  cases hready with
  | inl hinit =>
    obtain ⟨m', -, hzero⟩ := hinit
    have hcard := congrArg Multiset.card hzero
    rw [add_zero, Multiset.coe_card, hlen, Multiset.card_zero] at hcard
    omega
  | inr hinv =>
    obtain ⟨root, hinv⟩ := hinv
    have hmore := length_le_entriesOf hinv.tree.occupied
    have hfew := card_entriesOf_le w.mem (root.leaves w.tree.depth)
    rw [hinv.tree.entries, add_zero, Multiset.coe_card, hlen] at hmore hfew
    have hcount := hinv.tree.shape.count (by decide) le_rfl
    have hinner : w.tree.innerNodes = root.innerNodes w.tree.depth := by
      rw [XTree.innerNodes, hinv.root_eq]
      rfl
    -- an int reads as a usize below 2^31 or close to 2^64; the size is neither
    have hread := narrowUsize_narrowInt x
    rw [hx, hsize, hinner]
    omega

/-- 2^31 keys in leaves and inner nodes of 16. -/
theorem World.not_sizesExact :
    letI := insertionStdSort
    ∃ w s, (World.init (fun _ => XNode.new : Mem 16 XKey XKey)).insertAllWAlloc
        (firstKeys (2 ^ 31)) = .ok w ∧
      w.tree.szInner (TreeInner.size 16 8 8) 64 = .ok s ∧
      s.value ≠ (TreeInner.size 16 8 8 * w.tree.innerNodes.length : ℕ) ∧
      ¬ SizesExact (TreeInner.size 16 8 8) 64 w.tree := by
  let : StdSort := insertionStdSort
  obtain ⟨w, s, hrun, hs, hne⟩ := szInner_wrong (n := 2 ^ 31) le_rfl (by omega)
    (fun _ => XNode.new)
  refine ⟨w, s, hrun, hs, hne, fun hexact => ?_⟩
  rw [hexact.inner] at hs
  cases hs
  exact hne rfl

end XStore.Xkv
