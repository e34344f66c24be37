import XStore.Xkv.LeafSplit
import XStore.Xkv.Route

/-! `insert` as a change of one leaf followed, if that leaf split, by the way back up. -/
namespace XStore.Xkv
open XStore.Lib
variable {N : ℕ} {K V : Type} [LinearOrder K] [BoundedOrder K]
variable [StdSort] {m m' : Mem N K V} {x up : K} {v : V} {p c : Ptr} {d : ℕ}

def TreeInner.toLink (r : TreeInner K (RawPtr K) × Option (TreeInner K (RawPtr K))) :
    RawPtr K × Option (K × RawPtr K) :=
  (.inner r.1, r.2.map (fun s => (s.upKey, .inner s)))

omit [StdSort] in
theorem findLeafFrom_zero {t : RawPtr K} (h : XTree.findLeafFrom x 0 t = .ok p) : t = .leaf p := by
  cases t with
  | leaf q => exact congrArg RawPtr.leaf (Except.ok.inj h)
  | inner n => cases h

omit [StdSort] in
theorem findLeafFrom_succ {t : RawPtr K} (h : XTree.findLeafFrom x (d + 1) t = .ok p) :
    ∃ n, t = .inner n := by
  obtain ⟨n, hn, -⟩ := bind_eq_ok.mp h
  exact ⟨n, RawPtr.eq_inner_of_asInner hn⟩

omit [StdSort] in
theorem findLeafFrom_inner {n : TreeInner K (RawPtr K)}
    (h : XTree.findLeafFrom x (d + 1) (.inner n) = .ok p) :
    ∃ child, n.childrens[n.findChildrenIdx x]? = some child ∧
      XTree.findLeafFrom x d child = .ok p := by
  simp only [XTree.findLeafFrom, RawPtr.asInner, TreeInner.findChildren, ok_bind] at h
  cases hchild : n.childrens[n.findChildrenIdx x]? with
  | none => simp [hchild] at h
  | some child => exact ⟨child, rfl, by simpa [hchild] using h⟩

omit [StdSort] in
/-- A leaf with a hole exports nothing, and neither does any node above it. -/
theorem exported_none {lu : Ptr → Option K} {t : RawPtr K}
    (hfind : XTree.findLeafFrom x d t = .ok p) (hp : lu p = none) :
    exported N lu x d t = none ∧ ¬ Collides N lu x d t := by
  induction d generalizing t with
  | zero =>
    obtain rfl := findLeafFrom_zero hfind
    exact ⟨hp, by simp [Collides]⟩
  | succ d ih =>
    obtain ⟨n, rfl⟩ := findLeafFrom_succ hfind
    obtain ⟨child, hchild, hleaf⟩ := findLeafFrom_inner hfind
    obtain ⟨hexp, hcol⟩ := ih hleaf
    refine ⟨by simp [exported, hchild, hexp], ?_⟩
    rintro ⟨e, he, hcol' | ⟨up, mid, hup, -⟩⟩
    · obtain rfl := Option.some.inj (hchild.symm.trans he)
      exact hcol hcol'
    · obtain rfl := Option.some.inj (hchild.symm.trans he)
      rw [hexp] at hup
      cases hup

theorem insert_room {n : TreeInner K (RawPtr K)} {cand : Option Ptr}
    (hfind : XTree.findLeafFrom x (d + 1) (.inner n) = .ok p)
    (hraw : rawInsert m p x v cand = .ok (m', false)) :
    n.insert (d + 1) m x v cand = .ok (m', n, none, false) := by
  induction d generalizing n with
  | zero =>
    obtain ⟨child, hchild, hleaf⟩ := findLeafFrom_inner hfind
    obtain rfl := findLeafFrom_zero hleaf
    simp [TreeInner.insert, hchild, RawPtr.asLeaf, hraw]
  | succ d ih =>
    obtain ⟨child, hchild, hleaf⟩ := findLeafFrom_inner hfind
    obtain ⟨n₁, rfl⟩ := findLeafFrom_succ hleaf
    have hset : n.childrens.set (n.findChildrenIdx x) (.inner n₁) = n.childrens :=
      set_of_getElem? hchild
    simp [TreeInner.insert, hchild, RawPtr.asInner, ih hleaf, hset]

theorem insert_split {n : TreeInner K (RawPtr K)}
    (hfind : XTree.findLeafFrom x (d + 1) (.inner n) = .ok p)
    (hraw : rawInsert m p x v (some c) = .ok (m', true))
    (hup : (m' c).firstKey = .ok up) :
    ∃ res : Res (TreeInner K (RawPtr K) × Option (TreeInner K (RawPtr K))),
      n.insert (d + 1) m x v (some c) = res.map (fun r => (m', r.1, r.2, true)) ∧
      link N (d + 1) (.inner n) x up c = res.map TreeInner.toLink := by
  induction d generalizing n with
  | zero =>
    obtain ⟨child, hchild, hleaf⟩ := findLeafFrom_inner hfind
    obtain rfl := findLeafFrom_zero hleaf
    have hset : n.childrens.set (n.findChildrenIdx x) (.leaf p) = n.childrens :=
      set_of_getElem? hchild
    refine ⟨n.insertToMe N (n.findChildrenIdx x) up (.leaf c), ?_, ?_⟩
    · simp only [TreeInner.insert, hchild, need_some, ok_bind, RawPtr.asLeaf, hraw, hup, if_true]
      cases n.insertToMe N (n.findChildrenIdx x) up (.leaf c) <;> rfl
    · simp only [link, RawPtr.asInner, RawPtr.asLeaf, hchild, need_some, ok_bind, pure_eq_ok,
        hset]
      cases n.insertToMe N (n.findChildrenIdx x) up (.leaf c) <;> rfl
  | succ d ih =>
    obtain ⟨child, hchild, hleaf⟩ := findLeafFrom_inner hfind
    obtain ⟨n₁, rfl⟩ := findLeafFrom_succ hleaf
    obtain ⟨res, hins, hlink⟩ := ih hleaf
    cases res with
    | error e =>
      refine ⟨.error e, ?_, ?_⟩
      · simp [TreeInner.insert, hchild, RawPtr.asInner, hins, Except.map]
      · unfold link
        simp [hchild, RawPtr.asInner, hlink, Except.map]
    | ok r =>
      obtain ⟨n₂, sib⟩ := r
      cases sib with
      | none =>
        refine ⟨.ok ({ n with
          childrens := n.childrens.set (n.findChildrenIdx x) (.inner n₂) }, none), ?_, ?_⟩
        · simp [TreeInner.insert, hchild, RawPtr.asInner, hins, Except.map]
        · unfold link
          simp [hchild, RawPtr.asInner, hlink, Except.map, TreeInner.toLink]
      | some s =>
        refine ⟨TreeInner.insertToMe N
          { n with childrens := n.childrens.set (n.findChildrenIdx x) (.inner n₂) }
          (n.findChildrenIdx x) s.upKey (.inner s), ?_, ?_⟩
        · simp only [TreeInner.insert, hchild, RawPtr.asInner, hins, Except.map, need_some,
            ok_bind]
          cases TreeInner.insertToMe N _ (n.findChildrenIdx x) s.upKey (RawPtr.inner s) <;> rfl
        · unfold link
          simp only [hchild, RawPtr.asInner, hlink, Except.map, TreeInner.toLink, need_some,
            ok_bind, Option.map_some]
          cases TreeInner.insertToMe N _ (n.findChildrenIdx x) s.upKey (RawPtr.inner s) <;> rfl

/-- The tree over what comes back from its root: a root that split gets a parent. -/
def XTree.grow (d : ℕ) : RawPtr K × Option (K × RawPtr K) → XTree K
  | (root, none) => ⟨d, some root⟩
  | (root, some (up, s)) => ⟨d + 1, some (.inner (.newRoot up root s))⟩

theorem insertCore_room {root : RawPtr K}
    (hfind : XTree.findLeafFrom x d root = .ok p)
    (hraw : rawInsert m p x v (some c) = .ok (m', false)) :
    XTree.insertCore m ⟨d, some root⟩ x v (some c) = .ok (m', ⟨d, some root⟩, false) := by
  cases d with
  | zero =>
    obtain rfl := findLeafFrom_zero hfind
    simp [XTree.insertCore, RawPtr.asLeaf, hraw]
  | succ d =>
    obtain ⟨n, rfl⟩ := findLeafFrom_succ hfind
    simp [XTree.insertCore, RawPtr.asInner, insert_room hfind hraw]

theorem insertCore_split {root : RawPtr K}
    (hfind : XTree.findLeafFrom x d root = .ok p)
    (hraw : rawInsert m p x v (some c) = .ok (m', true))
    (hup : (m' c).firstKey = .ok up) :
    XTree.insertCore m ⟨d, some root⟩ x v (some c) =
      (link N d root x up c).map (fun res => (m', XTree.grow d res, true)) := by
  cases d with
  | zero =>
    obtain rfl := findLeafFrom_zero hfind
    simp [XTree.insertCore, RawPtr.asLeaf, hraw, hup, link, Except.map, XTree.grow]
  | succ d =>
    obtain ⟨n, rfl⟩ := findLeafFrom_succ hfind
    obtain ⟨res, hins, hlink⟩ := insert_split hfind hraw hup
    rw [hlink]
    cases res with
    | error e => simp [XTree.insertCore, RawPtr.asInner, hins, Except.map]
    | ok r =>
      obtain ⟨n', sib⟩ := r
      cases sib <;>
        simp [XTree.insertCore, RawPtr.asInner, hins, Except.map, XTree.grow, TreeInner.toLink]

end XStore.Xkv
