import XStore.Xkv.PtrHeap

/-! The inner nodes of a tree in memory: what `insert` does to the nodes at their addresses is what
it does to the tree that they stand for. -/
namespace XStore.Xkv
open XStore.Lib
variable {T : Type} {N : ℕ} {K V C : Type}

namespace TreeInner
variable [KeyType K] {n n' : TreeInner K C} {s : Option (TreeInner K C)} {c : C} {up : K}

omit [KeyType K] in
theorem insertIdx_le (cs : List C) (i : ℕ) (c : C) :
    (cs.insertIdx i c : Multiset C) ≤ c ::ₘ (cs : Multiset C) := by
  by_cases hi : i ≤ cs.length
  · rw [Multiset.cons_coe, Multiset.coe_eq_coe.mpr (List.perm_insertIdx c cs hi)]
  · rw [List.insertIdx_of_length_lt (by omega)]
    exact Multiset.le_cons_self _ _

omit [KeyType K] in
theorem insertAtPos_childrens {pos : ℕ} (h : n.insertAtPos N up c pos = .ok n') :
    (n'.childrens : Multiset C) ≤ c ::ₘ (n.childrens : Multiset C) := by
  unfold insertAtPos at h
  split at h
  · obtain rfl := Except.ok.inj h
    exact insertIdx_le _ _ _
  · cases h

/-- A node and its new sibling share out the children, the new one among them. -/
theorem insertToMe_childrens {k : ℕ} (h : n.insertToMe N k up c = .ok (n', s)) :
    (n'.childrens : Multiset C) + s.elim 0 (fun s => (s.childrens : Multiset C)) ≤
      c ::ₘ (n.childrens : Multiset C) := by
  unfold insertToMe at h
  obtain ⟨-, -, h⟩ := bind_eq_ok.mp h
  split at h
  · next hfull =>
    obtain ⟨sib, hsib, h⟩ := bind_eq_ok.mp h
    obtain ⟨newUp, hup, h⟩ := bind_eq_ok.mp h
    have hN : (N + 1) / 2 - 1 + 1 = (N + 1) / 2 := by
      have hlen : n.keys.length = N := by simpa [full] using hfull
      obtain ⟨hlt, -⟩ := List.getElem?_eq_some_iff.mp (need_eq_ok.mp hup)
      omega
    obtain rfl : TreeInner.mk (n.keys.drop ((N + 1) / 2)) (n.childrens.drop ((N + 1) / 2))
        KeyType.invalid = sib := Except.ok.inj hsib
    have hcut : (n.childrens.take ((N + 1) / 2) : Multiset C) + n.childrens.drop ((N + 1) / 2) =
        n.childrens := by
      rw [Multiset.coe_add, List.take_append_drop]
    dsimp only at h
    split at h
    · obtain ⟨-, -, h⟩ := bind_eq_ok.mp h
      obtain ⟨s', hs', h⟩ := bind_eq_ok.mp h
      cases h
      have hle := insertAtPos_childrens hs'
      simp only [setNumKeys, hN, Option.elim_some]
      rw [← hcut, ← Multiset.add_cons]
      exact Multiset.add_le_add_left hle
    · obtain ⟨n₁, hn₁, h⟩ := bind_eq_ok.mp h
      cases h
      have hle := insertAtPos_childrens hn₁
      simp only [setNumKeys, hN] at hle
      rw [← hcut, ← Multiset.cons_add, Option.elim_some]
      exact Multiset.add_le_add_right hle
  · obtain ⟨n₁, hn₁, h⟩ := bind_eq_ok.mp h
    cases h
    rw [Option.elim_none, add_zero]
    exact insertAtPos_childrens hn₁

end TreeInner

namespace Heap

/-- From `h` to `h'` a part of the tree whose inner nodes were `old` became one with `new`: they
are old ones, or `new` has returned them meanwhile. Nothing else changed. -/
structure Grown (h h' : Heap T N K V) (old new : Multiset (InnerPtr T)) : Prop where
  frame : ∀ b, b ∉ old → b.2 < h.arena b.1 → h'.inner b = h.inner b
  members : ∀ b ∈ new, b ∈ old ∨ h.arena b.1 ≤ b.2
  nodup : new.Nodup
  allocated : ∀ b ∈ new, b.2 < h'.arena b.1
  arena : ∀ t, h.arena t ≤ h'.arena t
  root : h'.root = h.root
  depth : h'.depth = h.depth

structure Apart (h : Heap T N K V) (s : Multiset (InnerPtr T)) : Prop where
  nodup : s.Nodup
  allocated : ∀ b ∈ s, b.2 < h.arena b.1

section Grown
variable {h h₁ h₂ : Heap T N K V} {old mid new rest : Multiset (InnerPtr T)}

theorem Grown.apart (hg : Grown h h₁ old new) : h₁.Apart new := ⟨hg.nodup, hg.allocated⟩

theorem Grown.refl (h : Heap T N K V) (hold : h.Apart old) (m : Mem N K V) :
    Grown h (h.setLeaf m) old old where
  frame _ _ _ := rfl
  members _ hb := Or.inl hb
  nodup := hold.nodup
  allocated := hold.allocated
  arena _ := le_rfl
  root := rfl
  depth := rfl

theorem Grown.trans (hg : Grown h h₁ old mid) (hg' : Grown h₁ h₂ mid new) :
    Grown h h₂ old new where
  frame b hb halloc := by
    have hmid : b ∉ mid := by
      intro hmem
      rcases hg.members b hmem with hold | hnew
      · exact hb hold
      · omega
    rw [hg'.frame b hmid (lt_of_lt_of_le halloc (hg.arena b.1)), hg.frame b hb halloc]
  members b hb := by
    rcases hg'.members b hb with hmid | hnew
    · exact hg.members b hmid
    · exact Or.inr ((hg.arena b.1).trans hnew)
  nodup := hg'.nodup
  allocated := hg'.allocated
  arena t := (hg.arena t).trans (hg'.arena t)
  root := hg'.root.trans hg.root
  depth := hg'.depth.trans hg.depth

theorem Grown.frameRule (hg : Grown h h₁ old new) (hrest : h.Apart (rest + old)) :
    Grown h h₁ (rest + old) (rest + new) where
  frame b hb halloc := hg.frame b (fun hmem => hb (Multiset.mem_add.mpr (Or.inr hmem))) halloc
  members b hb := by
    rcases Multiset.mem_add.mp hb with hb | hb
    · exact Or.inl (Multiset.mem_add.mpr (Or.inl hb))
    · exact (hg.members b hb).imp_left (fun hold => Multiset.mem_add.mpr (Or.inr hold))
  nodup := by
    obtain ⟨hnd, -, hdisj⟩ := Multiset.nodup_add.mp hrest.nodup
    refine Multiset.nodup_add.mpr ⟨hnd, hg.nodup, Multiset.disjoint_left.mpr ?_⟩
    intro b hb hnew
    rcases hg.members b hnew with hold | hfresh
    · exact Multiset.disjoint_left.mp hdisj hb hold
    · exact absurd (hrest.allocated b (Multiset.mem_add.mpr (Or.inl hb))) (not_lt.mpr hfresh)
  allocated b hb := by
    rcases Multiset.mem_add.mp hb with hb | hb
    · exact lt_of_lt_of_le (hrest.allocated b (Multiset.mem_add.mpr (Or.inl hb))) (hg.arena b.1)
    · exact hg.allocated b hb
  arena := hg.arena
  root := hg.root
  depth := hg.depth

end Grown

section Node
variable [LinearOrder K] [BoundedOrder K] {P : Ptr → Prop} {h h' : Heap T N K V}
  {old new : Multiset (InnerPtr T)} {d k : ℕ} {a b : InnerPtr T} {t : T} {u key : K}
  {c toInsert : NodePtr T} {v : V}

omit [LinearOrder K] [BoundedOrder K] in
theorem Apart.of_le (hold : h.Apart old) (hle : new ≤ old) : h.Apart new :=
  ⟨Multiset.nodup_of_le hle hold.nodup, fun b hb => hold.allocated b (Multiset.mem_of_le hle hb)⟩

omit [LinearOrder K] [BoundedOrder K] in
theorem Grown.of_le (fresh : Multiset (InnerPtr T)) (hold : h.Apart old)
    (hle : new ≤ fresh + old) (hnd : fresh.Nodup)
    (hfresh : ∀ b ∈ fresh, h.arena b.1 ≤ b.2 ∧ b.2 < h'.arena b.1)
    (hframe : ∀ b, b ∉ old → b.2 < h.arena b.1 → h'.inner b = h.inner b)
    (harena : ∀ t, h.arena t ≤ h'.arena t) (hroot : h'.root = h.root)
    (hdepth : h'.depth = h.depth) : Grown h h' old new where
  frame := hframe
  members b hb := by
    rcases Multiset.mem_add.mp (Multiset.mem_of_le hle hb) with hb | hb
    · exact Or.inr (hfresh b hb).1
    · exact Or.inl hb
  nodup := by
    refine Multiset.nodup_of_le hle (Multiset.nodup_add.mpr ⟨hnd, hold.nodup, ?_⟩)
    refine Multiset.disjoint_left.mpr ?_
    intro b hb hmem
    exact absurd (hold.allocated b hmem) (not_lt.mpr (hfresh b hb).1)
  allocated b hb := by
    rcases Multiset.mem_add.mp (Multiset.mem_of_le hle hb) with hb | hb
    · exact (hfresh b hb).2
    · exact lt_of_lt_of_le (hold.allocated b hb) (harena b.1)
  arena := harena
  root := hroot
  depth := hdepth

omit [LinearOrder K] [BoundedOrder K] in
theorem bind_mono {cs cs' : Multiset (NodePtr T)} (hle : cs ≤ cs')
    (f : NodePtr T → Multiset (InnerPtr T)) : cs.bind f ≤ cs'.bind f := by
  obtain ⟨u, rfl⟩ := Multiset.le_iff_exists_add.mp hle
  rw [Multiset.add_bind]
  exact Multiset.le_add_right _ _

/-- The children of a node that is written anew stand where they stood. -/
theorem rebuilt {cs : Multiset (NodePtr T)} (hcs : h.Apart (a ::ₘ cs.bind (h.nodes d)))
    (hframe : ∀ b, b ≠ a → b.2 < h.arena b.1 → h'.inner b = h.inner b) (hc : c ∈ cs) :
    h'.nodes d c = h.nodes d c ∧ h'.denote d c = h.denote d c := by
  refine agree fun b hb => hframe b ?_ ?_
  · rintro rfl
    exact (Multiset.nodup_cons.mp hcs.nodup).1 (Multiset.mem_bind.mpr ⟨c, hc, hb⟩)
  · exact hcs.allocated b (Multiset.mem_cons_of_mem (Multiset.mem_bind.mpr ⟨c, hc, hb⟩))

theorem innerAt_congr {n : TreeInner K (NodePtr T)} (hn : h'.inner b = n)
    (hchild : ∀ c ∈ n.childrens, h'.nodes d c = h.nodes d c ∧ h'.denote d c = h.denote d c) :
    h'.innerAt d b = n.map id (h.denote d) ∧
      h'.nodes (d + 1) (.inner b) =
        b ::ₘ (n.childrens : Multiset (NodePtr T)).bind (h.nodes d) := by
  constructor
  · rw [innerAt, hn, TreeInner.map, TreeInner.map,
      List.map_congr_left fun c hc => (hchild c hc).2]
  · rw [nodes_inner, hn]
    exact congrArg (b ::ₘ ·) (Multiset.bind_congr fun c hc => (hchild c hc).1)

theorem keyHom_id : KeyHom (id : K → K) where
  eq _ _ := rfl
  ne _ _ := rfl
  lt _ _ := rfl
  gt _ _ := rfl
  ge _ _ := rfl
  invalid := rfl
  weak := strictWeak_of_key id

theorem asLeaf_related (h : Heap T N K V) (c : NodePtr T) :
    Related (fun p q => q = p ∧ c = .leaf p) c.asLeaf (h.denote 0 c).asLeaf := by
  cases c with
  | leaf p => exact Related.ok ⟨rfl, rfl⟩
  | inner a => exact Related.error _

theorem asInner_related (h : Heap T N K V) (d : ℕ) (c : NodePtr T) :
    Related (fun b n => n = h.innerAt d b ∧ c = .inner b) c.asInner
      (h.denote (d + 1) c).asInner := by
  cases c with
  | leaf p => exact Related.error _
  | inner a => exact Related.ok ⟨rfl, rfl⟩

theorem mem_leaves_child {p : Ptr} (hc : c ∈ (h.inner a).childrens)
    (hp : p ∈ (h.denote d c).leaves d) :
    p ∈ RawPtr.leaves (d + 1) (.inner (h.innerAt d a)) :=
  List.mem_flatMap.mpr ⟨h.denote d c, List.mem_map_of_mem hc, hp⟩

theorem innerAt_findChildrenIdx : (h.innerAt d a).findChildrenIdx key =
    (h.inner a).findChildrenIdx key :=
  (h.inner a).findChildrenIdx_map _ keyHom_id key

theorem innerAt_child :
    (h.innerAt d a).childrens[k]? = ((h.inner a).childrens[k]?).map (h.denote d) :=
  List.getElem?_map

variable [DecidableEq T]

theorem insertToMe_sim (hcs : h.Apart (a ::ₘ (toInsert ::ₘ
      ((h.inner a).childrens : Multiset (NodePtr T))).bind (h.nodes d))) :
    Sim P (PtrTree.insertToMe t a k u toInsert) h
      ((h.innerAt d a).insertToMe N k u (h.denote d toInsert))
      (fun b r h' => h'.leaf = h.leaf ∧ h'.innerAt d a = b.1 ∧ b.2 = r.map (h'.innerAt d) ∧
        Grown h h' (a ::ₘ (toInsert ::ₘ
            ((h.inner a).childrens : Multiset (NodePtr T))).bind (h.nodes d))
          (h'.nodes (d + 1) (.inner a) + r.elim 0 (fun s => h'.nodes (d + 1) (.inner s)))) := by
  refine .skip loadInner_ends ?_
  have hrel := (h.inner a).insertToMe_map (N := N) (h.denote d) keyHom_id k u toInsert
  rw [← bind_pure (((h.innerAt d a).insertToMe N k u (h.denote d toInsert)))]
  refine (Code.Sim.related hrel).bind ?_
  rintro _ ⟨n, sib⟩ h' ⟨hok, rfl, rfl⟩
  have hkids := TreeInner.insertToMe_childrens hok
  cases sib with
  | none =>
    rw [Option.elim_none, add_zero] at hkids
    have hframe : ∀ b, b ≠ a → b.2 < h'.arena b.1 → (h'.setInner a n).inner b = h'.inner b :=
      fun b hb _ => Function.update_of_ne hb _ _
    obtain ⟨hat, hnodes⟩ := innerAt_congr (d := d) (Function.update_self a n h'.inner)
      (fun c hc => rebuilt hcs hframe (Multiset.mem_of_le hkids hc))
    refine .of_ends ((storeInner_ends n).bind (.pure none)) ⟨rfl, hat, rfl, ?_⟩
    refine .of_le 0 hcs ?_ Multiset.nodup_zero (by simp) ?_ (fun _ => le_rfl) rfl rfl
    · rw [hnodes, Option.elim_none, add_zero, zero_add]
      exact Multiset.cons_le_cons a (bind_mono hkids _)
    · exact fun b hb halloc => hframe b (fun he => hb (he ▸ Multiset.mem_cons_self _ _)) halloc
  | some s =>
    rw [Option.elim_some] at hkids
    let new : InnerPtr T := (t, h'.arena t)
    have hne : a ≠ new := by
      rintro rfl
      exact lt_irrefl _ (hcs.allocated new (Multiset.mem_cons_self _ _))
    have hframe : ∀ b, b ≠ a → b.2 < h'.arena b.1 →
        ((h'.alloc t s).setInner a n).inner b = h'.inner b := by
      intro b hb halloc
      have hnew : b ≠ new := by
        rintro rfl
        exact lt_irrefl _ halloc
      exact (Function.update_of_ne hb _ _).trans (Function.update_of_ne hnew _ _)
    have hself : ((h'.alloc t s).setInner a n).inner new = s :=
      (Function.update_of_ne hne.symm _ _).trans (Function.update_self _ _ _)
    obtain ⟨hat, hnodes⟩ := innerAt_congr (d := d) (Function.update_self a n (h'.alloc t s).inner)
      (fun c hc => rebuilt hcs hframe (Multiset.mem_of_le hkids (Multiset.mem_add.mpr (Or.inl hc))))
    obtain ⟨hat', hnodes'⟩ := innerAt_congr (d := d) hself
      (fun c hc => rebuilt hcs hframe (Multiset.mem_of_le hkids (Multiset.mem_add.mpr (Or.inr hc))))
    have harena : ∀ u, h'.arena u ≤ ((h'.alloc t s).setInner a n).arena u := by
      intro u
      by_cases hu : u = t
      · subst hu
        simp [setInner, alloc]
      · simp [setInner, alloc, hu]
    refine .of_ends ((newInner_ends s).bind ((storeInner_ends n).bind (.pure (some new))))
      ⟨rfl, hat, congrArg some hat'.symm, ?_⟩
    refine .of_le {new} hcs ?_ (Multiset.nodup_singleton _) ?_ ?_ harena rfl rfl
    · rw [hnodes, Option.elim_some, hnodes', Multiset.cons_add, Multiset.add_cons,
        Multiset.cons_swap, ← Multiset.add_bind]
      exact Multiset.cons_le_cons new (Multiset.cons_le_cons a (bind_mono hkids _))
    · intro b hb
      obtain rfl := Multiset.mem_singleton.mp hb
      simp [new, setInner, alloc]
    · exact fun b hb halloc => hframe b (fun he => hb (he ▸ Multiset.mem_cons_self _ _)) halloc

/-- What `insert` of the node at `a` leaves, beside what the insert into the tree returns. -/
structure Inserted (h : Heap T N K V) (d : ℕ) (a : InnerPtr T)
    (b : Mem N K V × TreeInner K (RawPtr K) × Option (TreeInner K (RawPtr K)) × Bool)
    (r : Option (InnerPtr T) × Bool) (h' : Heap T N K V) : Prop where
  leaf : h'.leaf = b.1
  this : h'.innerAt d a = b.2.1
  sib : b.2.2.1 = r.1.map (h'.innerAt d)
  split : r.2 = b.2.2.2
  grown : Grown h h' (h.nodes (d + 1) (.inner a))
    (h'.nodes (d + 1) (.inner a) + r.1.elim 0 (fun s => h'.nodes (d + 1) (.inner s)))

variable [StdSort] {candidate : Option Ptr}

theorem insert_sim_one (hcand : ∀ c, candidate = some c → P c)
    (hown : h.Apart (h.nodes 1 (.inner a)))
    (hP : ∀ p ∈ RawPtr.leaves 1 (.inner (h.innerAt 0 a)), P p) :
    Sim P (PtrTree.insert t 1 a key v candidate) h ((h.innerAt 0 a).insert 1 h.leaf key v candidate)
      (Inserted h 0 a) := by
  refine .skip loadInner_ends ?_
  simp only [TreeInner.insert, innerAt_findChildrenIdx, innerAt_child]
  refine (Code.Sim.related (TreeInner.need_map _ _ _)).bind ?_
  rintro _ child h ⟨hchild, rfl, rfl⟩
  have hmem := List.mem_of_getElem? (need_eq_ok.mp hchild)
  refine (Code.Sim.related (asLeaf_related h child)).bind ?_
  rintro leaf _ h ⟨-, ⟨rfl, rfl⟩, rfl⟩
  have hleaf : P leaf := hP leaf (mem_leaves_child hmem (by simp [RawPtr.leaves]))
  refine (rawInsert_sim hleaf hcand).bind ?_
  rintro ⟨m, _⟩ split _ ⟨rfl, rfl⟩
  have hsame : Grown h (h.setLeaf m) (h.nodes 1 (.inner a)) (h.nodes 1 (.inner a)) :=
    .refl h hown m
  cases split with
  | false =>
    refine .pure ⟨rfl, by simp, rfl, rfl, ?_⟩
    simpa using hsame
  | true =>
    cases candidate with
    | none => exact .fail _
    | some c =>
      refine .skip (.lift (need_some _ _)) (.skip (loadLeaf_ends (hcand c rfl)) ?_)
      simp only [need_some, ok_bind, if_true]
      refine (Code.Sim.lift (Q := fun x y h' => x = y ∧ h' = h.setLeaf m) _
        (fun _ _ => ⟨rfl, rfl⟩)).bind ?_
      rintro upKey _ _ ⟨rfl, rfl⟩
      have hkids : a ::ₘ (NodePtr.leaf c ::ₘ (((h.setLeaf m).inner a).childrens : Multiset _)).bind
          ((h.setLeaf m).nodes 0) = h.nodes 1 (.inner a) := by
        rw [Multiset.cons_bind, nodes_leaf, zero_add, nodes_inner]
        simp only [setLeaf_nodes]
        rfl
      have hhand := insertToMe_sim (P := P) (t := t) (k := (h.inner a).findChildrenIdx key)
        (u := upKey) (hkids ▸ hsame.apart)
      rw [setLeaf_innerAt, denote_leaf, hkids] at hhand
      refine hhand.bind ?_
      rintro ⟨this, sib⟩ r h' ⟨hm, hthis, hsib, hgrown⟩
      exact .pure ⟨hm, hthis, hsib, rfl, hsame.trans hgrown⟩

omit [LinearOrder K] [BoundedOrder K] [DecidableEq T] [StdSort] in
theorem nodes_child {i : InnerPtr T} {l₁ l₂ : List (NodePtr T)}
    (hcs : (h.inner a).childrens = l₁ ++ .inner i :: l₂) :
    h.nodes (d + 2) (.inner a) =
      a ::ₘ ((l₁ ++ l₂ : List (NodePtr T)) : Multiset (NodePtr T)).bind (h.nodes (d + 1)) +
        h.nodes (d + 1) (.inner i) := by
  rw [nodes_inner, hcs, Multiset.coe_eq_coe.mpr List.perm_middle, ← Multiset.cons_coe,
    Multiset.cons_bind, add_comm, Multiset.cons_add]

omit [StdSort] [DecidableEq T] in
/-- A child of the node at `a` has become what the insert below left; the other children and the
node itself are as they were. -/
theorem Inserted.parent {i : InnerPtr T} {h₁ : Heap T N K V}
    {b : Mem N K V × TreeInner K (RawPtr K) × Option (TreeInner K (RawPtr K)) × Bool}
    {r : Option (InnerPtr T) × Bool} (hins : Inserted h d i b r h₁)
    (hown : h.Apart (h.nodes (d + 2) (.inner a)))
    (hk : (h.inner a).childrens[k]? = some (.inner i)) :
    h₁.innerAt (d + 1) a = { h.innerAt (d + 1) a with
      childrens := (h.innerAt (d + 1) a).childrens.set k (.inner b.2.1) } ∧
    Grown h h₁ (h.nodes (d + 2) (.inner a)) (h₁.nodes (d + 2) (.inner a) +
      r.1.elim 0 (fun s => h₁.nodes (d + 1) (.inner s))) := by
  obtain ⟨hlt, hget⟩ := List.getElem?_eq_some_iff.mp hk
  obtain ⟨l₁, l₂, hcs, hlen⟩ : ∃ l₁ l₂, (h.inner a).childrens = l₁ ++ .inner i :: l₂ ∧
      l₁.length = k := by
    refine ⟨(h.inner a).childrens.take k, (h.inner a).childrens.drop (k + 1), ?_, ?_⟩
    · rw [← hget, List.getElem_cons_drop, List.take_append_drop]
    · rw [List.length_take]
      omega
  have hold := nodes_child (d := d) hcs
  rw [hold] at hown
  obtain ⟨hrest, -, hdisj⟩ := Multiset.nodup_add.mp hown.nodup
  have hout : ∀ x ∈ a ::ₘ ((l₁ ++ l₂ : List (NodePtr T)) : Multiset _).bind (h.nodes (d + 1)),
      h₁.inner x = h.inner x := fun x hx =>
    hins.grown.frame x (Multiset.disjoint_left.mp hdisj hx)
      (hown.allocated x (Multiset.mem_add.mpr (Or.inl hx)))
  have hself : h₁.inner a = h.inner a := hout a (Multiset.mem_cons_self _ _)
  have hother : ∀ c ∈ l₁ ++ l₂, h₁.nodes (d + 1) c = h.nodes (d + 1) c ∧
      h₁.denote (d + 1) c = h.denote (d + 1) c := fun c hc =>
    agree fun x hx => hout x (Multiset.mem_cons_of_mem (Multiset.mem_bind.mpr ⟨c, hc, hx⟩))
  constructor
  · have hmap : (h₁.inner a).childrens.map (h₁.denote (d + 1)) =
        ((h.inner a).childrens.map (h.denote (d + 1))).set k (.inner b.2.1) := by
      rw [hself, hcs, List.map_append, List.map_append, List.map_cons, List.map_cons,
        List.map_congr_left fun c hc => (hother c (List.mem_append_left _ hc)).2,
        List.map_congr_left fun c hc => (hother c (List.mem_append_right _ hc)).2,
        List.set_append_right _ _ (by simp [hlen]), denote_inner, hins.this]
      simp [hlen]
    rw [innerAt, TreeInner.map, hmap, hself]
    rfl
  · rw [hold, nodes_child (hself ▸ hcs), Multiset.bind_congr fun c hc => (hother c hc).1,
      add_assoc]
    exact hins.grown.frameRule hown

/-- `insert` of the node at `a`, by induction on the depth. -/
theorem insert_sim (hcand : ∀ c, candidate = some c → P c) (d : ℕ) (a : InnerPtr T)
    (h : Heap T N K V) (hown : h.Apart (h.nodes (d + 1) (.inner a)))
    (hP : ∀ p ∈ RawPtr.leaves (d + 1) (.inner (h.innerAt d a)), P p) :
    Sim P (PtrTree.insert t (d + 1) a key v candidate) h
      ((h.innerAt d a).insert (d + 1) h.leaf key v candidate) (Inserted h d a) := by
  induction d generalizing a h with
  | zero => exact insert_sim_one hcand hown hP
  | succ d ih =>
    refine .skip loadInner_ends ?_
    simp only [TreeInner.insert, innerAt_findChildrenIdx, innerAt_child]
    refine (Code.Sim.related (TreeInner.need_map _ _ _)).bind ?_
    rintro _ child h ⟨hchild, rfl, rfl⟩
    have hchild := need_eq_ok.mp hchild
    have hmem := List.mem_of_getElem? hchild
    refine (Code.Sim.related (asInner_related h d child)).bind ?_
    rintro _ i h ⟨-, ⟨rfl, rfl⟩, rfl⟩
    have hbelow : h.Apart (h.nodes (d + 1) (.inner i)) := by
      refine hown.of_le (le_trans ?_ (Multiset.le_cons_self _ _))
      exact Multiset.le_bind _ hmem
    refine (ih i h hbelow fun p hp => hP p (mem_leaves_child hmem hp)).bind ?_
    rintro ⟨m, inner, newIn, whetherSplit⟩ ⟨newIn', split⟩ h₁ hins
    obtain ⟨hat, hgrown⟩ := hins.parent hown hchild
    obtain ⟨rfl, -, rfl, rfl, -⟩ := hins
    dsimp only at hat hgrown ⊢
    rw [← hat]
    cases newIn' with
    | none => exact .pure ⟨rfl, rfl, rfl, rfl, hgrown⟩
    | some s =>
      refine .skip loadInner_ends ?_
      have hkids : a ::ₘ (NodePtr.inner s ::ₘ ((h₁.inner a).childrens : Multiset _)).bind
          (h₁.nodes (d + 1)) = h₁.nodes (d + 2) (.inner a) + h₁.nodes (d + 1) (.inner s) := by
        rw [Multiset.cons_bind, ← Multiset.add_cons, ← nodes_inner, add_comm]
      have hhand := insertToMe_sim (P := P) (t := t) (k := (h.inner a).findChildrenIdx key)
        (u := (h₁.inner s).upKey) (hkids ▸ hgrown.apart)
      rw [denote_inner, hkids] at hhand
      refine hhand.bind ?_
      rintro ⟨this, sib⟩ r h₂ ⟨hm, hthis, hsib, hgrown'⟩
      exact .pure ⟨hm, hthis, hsib, rfl, hgrown.trans hgrown'⟩

end Node
end Heap
end XStore.Xkv
