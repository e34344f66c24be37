import XStore.Xkv.KeyMap

/-! The inner nodes and the whole tree over the image of an ordered key type, and runs of
inserts into it. -/
namespace XStore.Xkv
open XStore.Lib
variable {N : ℕ} {K₁ K V C C' : Type} [LinearOrder K₁] [BoundedOrder K₁] [KeyType K] {φ : K₁ → K}

namespace TreeInner
variable (f : C → C') (n : TreeInner K₁ C)

theorem findChildrenIdx_map (h : KeyHom φ) (k : K₁) :
    (n.map φ f).findChildrenIdx (φ k) = n.findChildrenIdx k := by
  simp only [findChildrenIdx, map, List.findIdx_map, Function.comp_def, h.lt, KeyType.lt_ofOrder]

theorem new_map (h : KeyHom φ) : (new : TreeInner K C') = (new : TreeInner K₁ C).map φ f := by
  simp only [new, map, h.invalid, List.map_nil, KeyType.invalid_ofOrder]

theorem newRoot_map (h : KeyHom φ) (k : K₁) (l r : C) :
    newRoot (φ k) (f l) (f r) = (newRoot k l r).map φ f := by
  simp only [newRoot, map, h.invalid, List.map_cons, List.map_nil, KeyType.invalid_ofOrder]

omit [LinearOrder K₁] [BoundedOrder K₁] [KeyType K] in
theorem insertAtPos_map (k : K₁) (p : C) (pos : ℕ) :
    Related (fun n₁ n => n = n₁.map φ f) (n.insertAtPos N k p pos)
      ((n.map φ f).insertAtPos N (φ k) (f p) pos) := by
  simp only [insertAtPos, map, List.length_map]
  split
  · refine Related.ok ?_
    simp only [List.map_insertIdx]
  · exact Related.error _

theorem copyAfterNTo_map (h : KeyHom φ) (i : ℕ) :
    Related (fun n₁ n => n = n₁.map φ f) (n.copyAfterNTo new i)
      ((n.map φ f).copyAfterNTo new i) := by
  refine Related.bind_same (fun _ => Related.pure ?_)
  simp only [new, map, h.invalid, List.map_drop, KeyType.invalid_ofOrder]

omit [LinearOrder K₁] [BoundedOrder K₁] [KeyType K] in
theorem need_map {α β : Type} (g : α → β) (o : Option α) (e : Fault) :
    Related (fun a b => b = g a) (need o e) (need (o.map g) e) := by
  cases o with
  | none => exact Related.error e
  | some a => exact Related.ok rfl

omit [LinearOrder K₁] [BoundedOrder K₁] [KeyType K] in
theorem setNumKeys_map (i : ℕ) : (n.map φ f).setNumKeys i = (n.setNumKeys i).map φ f := by
  simp only [setNumKeys, map, List.map_take]

theorem insertToMe_map (h : KeyHom φ) (k : ℕ) (up : K₁) (c : C) :
    Related (fun r₁ r => r = Prod.map (map φ f) (Option.map (map φ f)) r₁)
      (n.insertToMe N k up c) ((n.map φ f).insertToMe N k (φ up) (f c)) := by
  have hfull : (n.map φ f).full N = n.full N := by simp only [full, map, List.length_map]
  simp only [insertToMe, h.invalid, h.ne, hfull, KeyType.ne_ofOrder, KeyType.invalid_ofOrder]
  refine Related.bind_same (fun _ => ?_)
  split
  · refine (copyAfterNTo_map f n h _).bind ?_
    rintro sib₁ sib rfl
    have hup : (n.map φ f).keys[(N + 1) / 2 - 1]? = (n.keys[(N + 1) / 2 - 1]?).map φ :=
      List.getElem?_map
    rw [hup]
    refine (need_map φ _ _).bind ?_
    rintro newUp₁ newUp rfl
    simp only [h.ge, KeyType.ge_ofOrder, setNumKeys_map]
    split
    · refine Related.bind_same (fun _ => ?_)
      refine (insertAtPos_map f { sib₁ with upKey := newUp₁ } up c _).bind ?_
      rintro s₁ s rfl
      exact Related.pure rfl
    · refine (insertAtPos_map f _ up c k).bind ?_
      rintro n₁ n rfl
      exact Related.pure rfl
  · refine (insertAtPos_map f n up c k).bind ?_
    rintro n₁ n rfl
    exact Related.pure rfl

end TreeInner

section Tree
variable {S : Ptr → Prop} {m₁ : Mem N K₁ V} {m : Mem N K V}

omit [LinearOrder K₁] [BoundedOrder K₁] [KeyType K] in
theorem asLeaf_map (t : RawPtr K₁) : (t.map φ).asLeaf = t.asLeaf := by
  cases t with
  | leaf p => rfl
  | inner n =>
    rw [RawPtr.map_inner]
    rfl

omit [LinearOrder K₁] [BoundedOrder K₁] [KeyType K] in
theorem getElem?_map (n : TreeInner K₁ (RawPtr K₁)) (i : ℕ) :
    (n.map φ (RawPtr.map φ)).childrens[i]? = (n.childrens[i]?).map (RawPtr.map φ) :=
  List.getElem?_map

theorem findLeafFrom_map (h : KeyHom φ) (key : K₁) (d : ℕ) (t : RawPtr K₁) :
    XTree.findLeafFrom (φ key) d (t.map φ) = XTree.findLeafFrom key d t := by
  induction d generalizing t with
  | zero => exact asLeaf_map t
  | succ d ih =>
    cases t with
    | leaf p => rfl
    | inner n =>
      rw [RawPtr.map_inner]
      simp only [XTree.findLeafFrom, RawPtr.asInner, TreeInner.findChildren, ok_bind,
        getElem?_map, n.findChildrenIdx_map _ h]
      cases n.childrens[n.findChildrenIdx key]? with
      | none => rfl
      | some c => exact ih c

/-- What the insert into a subtree returns: the memory, the node, its new sibling, and whether a
leaf split. -/
def InsertSim (φ : K₁ → K) (S : Ptr → Prop)
    (r₁ : Mem N K₁ V × TreeInner K₁ (RawPtr K₁) × Option (TreeInner K₁ (RawPtr K₁)) × Bool)
    (r : Mem N K V × TreeInner K (RawPtr K) × Option (TreeInner K (RawPtr K)) × Bool) : Prop :=
  MemSim φ S r₁.1 r.1 ∧ r.2.1 = r₁.2.1.map φ (RawPtr.map φ) ∧
    r.2.2.1 = r₁.2.2.1.map (TreeInner.map φ (RawPtr.map φ)) ∧ r.2.2.2 = r₁.2.2.2

/-- The leaf that the key leads to is one of those in `S`, and its keys are distinct if it is
full. -/
def LeafOk (S : Ptr → Prop) (m₁ : Mem N K₁ V) (p : Ptr) : Prop :=
  S p ∧ ((m₁ p).keys.Full → Function.Injective (m₁ p).keys.keys)

omit [LinearOrder K₁] [BoundedOrder K₁] [KeyType K] in
theorem firstKey_map (n : XNode N K₁ V) :
    Related (fun a b => b = φ a) n.firstKey (n.map φ).firstKey := by
  unfold XNode.firstKey
  split
  · exact Related.ok rfl
  · exact Related.error _

omit [LinearOrder K₁] [BoundedOrder K₁] [KeyType K] in
theorem firstKey_sim {m₁ : Mem N K₁ V} {m : Mem N K V} (hm : MemSim φ S m₁ m) {c : Ptr}
    (hc : S c) : Related (fun a b => b = φ a) (m₁ c).firstKey (m c).firstKey := by
  rw [hm c hc]
  exact firstKey_map (m₁ c)

omit [LinearOrder K₁] [BoundedOrder K₁] [KeyType K] in
theorem setChild_map (n i₁ : TreeInner K₁ (RawPtr K₁)) (idx : ℕ) :
    (⟨(n.map φ (RawPtr.map φ)).keys, (n.map φ (RawPtr.map φ)).childrens.set idx
        (.inner (i₁.map φ (RawPtr.map φ))), (n.map φ (RawPtr.map φ)).upKey⟩ :
      TreeInner K (RawPtr K)) =
      TreeInner.map φ (RawPtr.map φ) ⟨n.keys, n.childrens.set idx (.inner i₁), n.upKey⟩ := by
  simp only [TreeInner.map, List.map_set, RawPtr.map_inner]

theorem handUp_map (h : KeyHom φ) {m₁ : Mem N K₁ V} {m : Mem N K V} (hm : MemSim φ S m₁ m)
    (n : TreeInner K₁ (RawPtr K₁)) (k : ℕ) (up : K₁) (c : RawPtr K₁) (split : Bool) :
    Related (InsertSim φ S)
      (do
        let (this, newSib) ← n.insertToMe N k up c
        pure (m₁, this, newSib, split) : Res _)
      (do
        let (this, newSib) ← (n.map φ (RawPtr.map φ)).insertToMe N k (φ up) (c.map φ)
        pure (m, this, newSib, split)) := by
  refine (n.insertToMe_map _ h k up c).bind ?_
  rintro ⟨n₁, sib₁⟩ r rfl
  exact Related.pure ⟨hm, rfl, rfl, rfl⟩

theorem insert_map [StdSort] (h : KeyHom φ) (hm : MemSim φ S m₁ m) {cand : Option Ptr}
    (hcand : ∀ c, cand = some c → S c) (d : ℕ) (n : TreeInner K₁ (RawPtr K₁)) (key : K₁) (v : V)
    (hleaf : ∀ p, XTree.findLeafFrom key d (.inner n) = .ok p → LeafOk S m₁ p) :
    Related (InsertSim φ S) (n.insert d m₁ key v cand)
      ((n.map φ (RawPtr.map φ)).insert d m (φ key) v cand) := by
  induction d using Nat.twoStepInduction generalizing n with
  | zero => exact Related.error _
  | one =>
    simp only [TreeInner.insert, getElem?_map, n.findChildrenIdx_map _ h]
    cases hchild : n.childrens[n.findChildrenIdx key]? with
    | none => exact Related.error _
    | some child =>
      simp only [Option.map_some, need_some, ok_bind, asLeaf_map]
      cases child with
      | inner _ => exact Related.error _
      | leaf p =>
        obtain ⟨hp, hinj⟩ := hleaf p (by
          simp [XTree.findLeafFrom, RawPtr.asInner, TreeInner.findChildren, hchild, RawPtr.asLeaf])
        refine (rawInsert_map h hm hp hcand hinj key v).bind ?_
        rintro ⟨m₁', split⟩ ⟨m', split'⟩ ⟨(hm' : MemSim φ S m₁' m'), (rfl : split' = split)⟩
        cases split' with
        | false => exact Related.pure ⟨hm', rfl, rfl, rfl⟩
        | true =>
          cases cand with
          | none => exact Related.error _
          | some c =>
            refine (firstKey_sim hm' (hcand c rfl)).bind ?_
            rintro up _ rfl
            exact handUp_map h hm' n _ up (.leaf c) true
  | more d _ ih =>
    simp only [TreeInner.insert, getElem?_map, n.findChildrenIdx_map _ h]
    cases hchild : n.childrens[n.findChildrenIdx key]? with
    | none => exact Related.error _
    | some child =>
      cases child with
      | leaf _ => exact Related.error _
      | inner i =>
        have hbelow : ∀ p, XTree.findLeafFrom key (d + 1) (.inner i) = .ok p → LeafOk S m₁ p := by
          intro p hp
          refine hleaf p ?_
          rw [XTree.findLeafFrom]
          simp only [RawPtr.asInner, TreeInner.findChildren, hchild, need_some, ok_bind, hp]
        simp only [Option.map_some, need_some, ok_bind, RawPtr.map_inner, RawPtr.asInner]
        refine (ih i hbelow).bind ?_
        rintro ⟨m₁', i₁, sib₁, split⟩ ⟨m', i', sib', split'⟩ ⟨hm', hi, hsib, hsplit⟩
        simp only at hm' hi hsib hsplit
        subst hi hsib hsplit
        rw [setChild_map]
        generalize (⟨n.keys, n.childrens.set (n.findChildrenIdx key) (.inner i₁), n.upKey⟩ :
          TreeInner K₁ (RawPtr K₁)) = n₁
        cases sib₁ with
        | none => exact Related.pure ⟨hm', rfl, rfl, rfl⟩
        | some s =>
          have hup := handUp_map h hm' n₁ (n.findChildrenIdx key) s.upKey (.inner s) split'
          rw [RawPtr.map_inner] at hup
          exact hup

end Tree
end XStore.Xkv
