import XStore.Xkv.Chain
import XStore.Xkv.Spare
import Mathlib.Data.List.Pairwise

/-! A tree seen from an earlier one. Splits only ever move keys to the right: what was a leaf
stays in the chain, in front of the leaves that were split off its keys, and counts its own
splits in its incarnation. -/
namespace XStore.Xkv
open XStore.Lib
variable {N : ℕ} {K V : Type} [LinearOrder K] [BoundedOrder K]

omit [LinearOrder K] [BoundedOrder K] in
theorem XTree.findLeaf_iff [KeyType K] {t : XTree K} {root : RawPtr K} {k : K} {p : Ptr}
    (hroot : t.root = some root) :
    t.findLeaf k = .ok (some p) ↔ XTree.findLeafFrom k t.depth root = .ok p := by
  simp only [XTree.findLeaf, hroot]
  cases h : XTree.findLeafFrom k t.depth root <;> simp

theorem Shape.routed {Q : K → K → Ptr → Prop} {r : K → K → Prop} {lb d : ℕ} {lo hi : K}
    {t : RawPtr K} (hr : Bound r) (hQ : ∀ a b p, Q a b p → r a b) (h : Shape N Q lb d lo hi t) :
    Shape N (fun a b p => Q a b p ∧ lo ≤ a ∧ b ≤ hi ∧
      ∀ x, a ≤ x → x < b → XTree.findLeafFrom x d t = .ok p) lb d lo hi t := by
  induction d generalizing lb lo hi t with
  | zero =>
    obtain ⟨p, rfl⟩ := h.eq_leaf
    exact ⟨h, le_rfl, le_rfl, fun x _ _ => rfl⟩
  | succ d ih =>
    obtain ⟨n, rfl, hlb, hN, hf⟩ := h.eq_inner
    refine ⟨hlb, hN, (hf.scan (fun _ _ _ => fences_le hr hQ)).imp ?_⟩
    rintro a b c - ⟨hs, hlo, hhi, hscan⟩
    refine (ih hs).imp ?_
    rintro a' b' p - ⟨hp, ha, hb, hfind⟩
    refine ⟨hp, hlo.trans ha, hb.trans hhi, fun x hax hxb => ?_⟩
    have hchild : n.childrens[n.findChildrenIdx x]? = some c :=
      hscan x (ha.trans hax) (hxb.trans_le hb)
    simp [XTree.findLeafFrom, RawPtr.asInner, TreeInner.findChildren, hchild, hfind x hax hxb]

/-- What at most `n` inserts made of the leaves of an earlier tree. The leaf `p` has split
`splits p` times, and `off p` are the leaves that its keys are in by now, behind it in the
chain. -/
structure Descends (m₀ : Mem N K V) (d₀ : ℕ) (root₀ : RawPtr K) (m : Mem N K V) (d : ℕ)
    (root : RawPtr K) (n : ℕ) (off : Ptr → List Ptr) (splits : Ptr → ℕ) : Prop where
  leaves : root.leaves d = (root₀.leaves d₀).flatMap (fun p => p :: off p)
  home : ∀ x, x ≠ ⊤ → ∃ p ∈ root₀.leaves d₀, ∃ q ∈ p :: off p,
    XTree.findLeafFrom x d₀ root₀ = .ok p ∧ XTree.findLeafFrom x d root = .ok q
  incarnation : ∀ p ∈ root₀.leaves d₀,
    (m p).getIncarnation = (m₀ p).getIncarnation + UInt16.ofNat (splits p)
  unsplit : ∀ p ∈ root₀.leaves d₀, splits p = 0 → off p = [] ∧ (m₀ p).entries ≤ (m p).entries
  fewSplits : ∀ p, splits p ≤ n
  fewLeaves : (root.leaves d).length ≤ (root₀.leaves d₀).length + n

namespace Descends
variable {m₀ m m₁ : Mem N K V} {d₀ d d₁ n n₁ : ℕ} {root₀ root root₁ : RawPtr K}
  {off off₁ : Ptr → List Ptr} {splits splits₁ : Ptr → ℕ} {p q : Ptr}

theorem mem_leaves (h : Descends m₀ d₀ root₀ m d root n off splits)
    (hp : p ∈ root₀.leaves d₀) (hq : q ∈ p :: off p) : q ∈ root.leaves d := by
  rw [h.leaves]
  exact List.mem_flatMap.mpr ⟨p, hp, hq⟩

theorem congr (h : Descends m₀ d₀ root₀ m d root n off splits)
    (heq : ∀ p ∈ root.leaves d, m₁ p = m p) : Descends m₀ d₀ root₀ m₁ d root n off splits where
  leaves := h.leaves
  home := h.home
  incarnation p hp := by
    rw [heq p (h.mem_leaves hp (by simp))]
    exact h.incarnation p hp
  unsplit p hp hs := by
    rw [heq p (h.mem_leaves hp (by simp))]
    exact h.unsplit p hp hs
  fewSplits := h.fewSplits
  fewLeaves := h.fewLeaves

theorem trans (h : Descends m₀ d₀ root₀ m d root n off splits)
    (h₁ : Descends m d root m₁ d₁ root₁ n₁ off₁ splits₁) :
    Descends m₀ d₀ root₀ m₁ d₁ root₁ (n + n₁)
      (fun p => off₁ p ++ (off p).flatMap (fun q => q :: off₁ q))
      (fun p => splits p + splits₁ p) where
  leaves := by
    rw [h₁.leaves, h.leaves, List.flatMap_assoc]
    simp only [List.flatMap_cons, List.cons_append]
  home x hx := by
    obtain ⟨p, hp, q, hq, hfind, hfind'⟩ := h.home x hx
    obtain ⟨q', -, s, hs, hmid, hlast⟩ := h₁.home x hx
    obtain rfl : q = q' := Except.ok.inj (hfind'.symm.trans hmid)
    refine ⟨p, hp, s, ?_, hfind, hlast⟩
    have hmem : s ∈ (p :: off p).flatMap (fun q => q :: off₁ q) :=
      List.mem_flatMap.mpr ⟨q, hq, hs⟩
    simpa only [List.flatMap_cons, List.cons_append] using hmem
  incarnation p hp := by
    rw [h₁.incarnation p (h.mem_leaves hp (by simp)), h.incarnation p hp, UInt16.ofNat_add,
      UInt16.add_assoc]
  unsplit p hp hs := by
    obtain ⟨hoff, hle⟩ := h.unsplit p hp (by omega)
    obtain ⟨hoff₁, hle₁⟩ := h₁.unsplit p (h.mem_leaves hp (by simp)) (by omega)
    exact ⟨by rw [hoff, hoff₁]; rfl, hle.trans hle₁⟩
  fewSplits p := by
    have := h.fewSplits p
    have := h₁.fewSplits p
    omega
  fewLeaves := by
    have := h.fewLeaves
    have := h₁.fewLeaves
    omega

theorem notMem (h : Descends m₀ d₀ root₀ m d root n off splits) (hnd : (root.leaves d).Nodup)
    (hp : p ∈ root₀.leaves d₀) (hq : q ∈ off p) : q ∉ root₀.leaves d₀ := by
  intro hold
  rw [h.leaves, List.nodup_flatMap] at hnd
  by_cases hqp : q = p
  · exact (List.nodup_cons.mp (hnd.1 p hp)).1 (hqp ▸ hq)
  · have : Std.Symm (Function.onFun List.Disjoint (fun p => p :: off p)) :=
      ⟨fun _ _ hdisj => hdisj.symm⟩
    exact hnd.2.forall hold hp hqp (List.mem_cons_self ..) (List.mem_cons_of_mem p hq)

theorem find_iff (h : Descends m₀ d₀ root₀ m d root n off splits) (hnd : (root.leaves d).Nodup)
    (hp : p ∈ root₀.leaves d₀) (hoff : off p = []) {x : K} (hx : x ≠ ⊤) :
    XTree.findLeafFrom x d₀ root₀ = .ok p ↔ XTree.findLeafFrom x d root = .ok p := by
  obtain ⟨p', hp', q, hq, hfind, hfind'⟩ := h.home x hx
  rw [hfind, hfind']
  simp only [Except.ok.injEq]
  constructor
  · rintro rfl
    simpa [hoff] using hq
  · rintro rfl
    cases List.mem_cons.mp hq with
    | inl heq => exact heq.symm
    | inr hmem => exact absurd hp (h.notMem hnd hp' hmem)

theorem off_length (h : Descends m₀ d₀ root₀ m d root n off splits)
    (hp : p ∈ root₀.leaves d₀) : (off p).length ≤ n := by
  obtain ⟨before, after, hsplit⟩ := List.append_of_mem hp
  have hfew := h.fewLeaves
  have hlong : ∀ ps : List Ptr, ps.length ≤ (ps.flatMap (fun p => p :: off p)).length := by
    intro ps
    induction ps with
    | nil => exact le_rfl
    | cons q ps ih =>
      rw [List.flatMap_cons, List.length_append, List.length_cons, List.length_cons]
      omega
  have hb := hlong before
  have ha := hlong after
  rw [h.leaves, hsplit, List.flatMap_append, List.flatMap_cons] at hfew
  simp only [List.length_append, List.length_cons] at hfew
  omega

/-- Fewer inserts than there are incarnations: an unchanged one means that no split happened. -/
theorem splits_eq_zero (h : Descends m₀ d₀ root₀ m d root n off splits) (hn : n < 2 ^ 16)
    (hp : p ∈ root₀.leaves d₀) (hinc : (m p).getIncarnation = (m₀ p).getIncarnation) :
    splits p = 0 := by
  have hfew := h.fewSplits p
  have hnum := congrArg UInt16.toNat ((h.incarnation p hp).symm.trans hinc)
  have hlt := (m₀ p).getIncarnation.toNat_lt
  rw [UInt16.toNat_add, UInt16.toNat_ofNat'] at hnum
  omega

end Descends

theorem flatMap_update (ps : List Ptr) (p : Ptr) (qs : List Ptr) (h : p ∉ ps) :
    ps.flatMap (fun q => q :: Function.update (fun _ => []) p qs q) = ps := by
  induction ps with
  | nil => rfl
  | cons q ps ih =>
    have hq : q ≠ p := fun he => h (by simp [he])
    rw [List.flatMap_cons, ih (fun hp => h (List.mem_cons_of_mem q hp)),
      Function.update_of_ne hq]
    rfl

section Step
variable [StdSort] {r : K → K → Prop} {m : Mem N K V} {d : ℕ} {root : RawPtr K}
  {ops : Multiset (K × V)} {key : K} {v : V} {c : Ptr}

omit [StdSort] in
theorem TreeInv.descends_same (hN : 2 ≤ N) (hr : Bound r) (h : TreeInv r m d root ops)
    {m' : Mem N K V} (hsame : ∀ p ∈ root.leaves d, (m' p).getIncarnation = (m p).getIncarnation ∧
      (m p).entries ≤ (m' p).entries) (n : ℕ) :
    Descends m d root m' d root n (fun _ => []) (fun _ => 0) where
  leaves := by rw [List.flatMap_singleton']
  home x hx := by
    obtain ⟨R⟩ := h.shape.route hN hr (Cell.fences r) bot_le (lt_top_iff_ne_top.mpr hx)
    exact ⟨R.leaf, R.mem_leaf, R.leaf, List.mem_cons_self .., R.found, R.found⟩
  incarnation p hp := (hsame p hp).1.trans (UInt16.add_zero _).symm
  unsplit p hp _ := ⟨rfl, (hsame p hp).2⟩
  fewSplits _ := Nat.zero_le n
  fewLeaves := Nat.le_add_right _ n

/-- An insert into a full leaf: the new leaf takes keys of that leaf only. -/
theorem TreeInv.descends_split (hN : 2 ≤ N) (hr : Bound r) (h : TreeInv r m d root ops)
    (hkey : key ≠ ⊤) (hnew : (∀ a, ¬ r a a) → key ∉ ops.map Prod.fst) (hc : c ∉ root.leaves d)
    (hfresh : ∀ i, (m c).keys.keys i = ⊤)
    (R : Route N r (fun a b p => Cell r m a b p ∧ ⊥ ≤ a ∧ b ≤ ⊤ ∧
      ∀ x, a ≤ x → x < b → XTree.findLeafFrom x d root = .ok p) 1 d ⊥ ⊤ root key)
    (hfull : (m R.leaf).entries.card = N) {res : Mem N K V × XTree K × Bool}
    (hres : XTree.insertCore m ⟨d, some root⟩ key v (some c) = .ok res) :
    ∃ root', res.2.1.root = some root' ∧ Descends m d root res.1 res.2.1.depth root' 1
      (Function.update (fun _ => []) R.leaf [c]) (Function.update (fun _ => 0) R.leaf 1) := by
  obtain ⟨pivot, hs, -, hhang⟩ := R.split_ok hN hr hkey hc hfresh hfull hres
  have hdist : (∀ a, ¬ r a a) → (((key, v) ::ₘ ops).map Prod.fst).Nodup := by
    intro hirr
    rw [Multiset.map_cons, Multiset.nodup_cons]
    exact ⟨hnew hirr, h.distinct hirr⟩
  obtain ⟨hleft, hright⟩ :=
    hs.halves.cells hN hr R.holds.1 R.le R.lt (h.distinct_leaf R hdist)
  set off : Ptr → List Ptr := Function.update (fun _ => []) R.leaf [c] with hoff
  have hself : off R.leaf = [c] := Function.update_self _ _ _
  -- every leaf of the new tree has keys of one old leaf only
  obtain ⟨root', hroot', hshape, hleaves⟩ := hhang
    (fun a b q => r a b ∧ ∀ x, a ≤ x → x < b → ∃ p ∈ root.leaves d, q ∈ p :: off p ∧
      XTree.findLeafFrom x d root = .ok p)
    (fun _ _ _ hq => hq.1)
    (fun a b q hq hcell => ⟨hcell.1.1, fun x hax hxb =>
      ⟨q, R.mem_of_mem hq, List.mem_cons_self .., hcell.2.2.2 x hax hxb⟩⟩)
    ⟨hleft.1, fun x hax hxp => ⟨R.leaf, R.mem_leaf, List.mem_cons_self ..,
      R.holds.2.2.2 x hax (hxp.trans_le (hr.le hright.1))⟩⟩
    ⟨hright.1, fun x hpx hxb => ⟨R.leaf, R.mem_leaf, by simp [hself],
      R.holds.2.2.2 x ((hr.le hleft.1).trans hpx) hxb⟩⟩
  have hother := ne_of_nodup_middle (R.leaves_eq ▸ h.nodup)
  have hcp : ∀ p ∈ root.leaves d, p ≠ c := fun p hp he => hc (he ▸ hp)
  refine ⟨root', hroot', ?_, fun x hx => ?_, fun p hp => ?_, fun p hp hsplits => ?_,
    fun p => ?_, ?_⟩
  · have hb := flatMap_update R.before R.leaf [c]
      (fun hp => hother _ (List.mem_append_left _ hp) rfl)
    have ha := flatMap_update R.after R.leaf [c]
      (fun hp => hother _ (List.mem_append_right _ hp) rfl)
    rw [hleaves, R.leaves_eq, List.flatMap_append, List.flatMap_cons, hb, ha, hself]
    rfl
  · obtain ⟨S⟩ := hshape.route hN hr (fun _ _ _ hq => hq.1) bot_le (lt_top_iff_ne_top.mpr hx)
    obtain ⟨p, hp, hq, hfind⟩ := S.holds.2 x S.le S.lt
    exact ⟨p, hp, S.leaf, hq, hfind, S.found⟩
  · by_cases hpl : p = R.leaf
    · rw [hpl, Function.update_self]
      exact hs.halves.incarnation.1
    · rw [Function.update_of_ne hpl, hs.frame p hpl (hcp p hp)]
      exact (UInt16.add_zero _).symm
  · have hpl : p ≠ R.leaf := by
      rintro rfl
      simp at hsplits
    rw [hs.frame p hpl (hcp p hp), hoff, Function.update_of_ne hpl]
    exact ⟨rfl, le_rfl⟩
  · by_cases hpl : p = R.leaf
    · rw [hpl, Function.update_self]
    · rw [Function.update_of_ne hpl]
      exact Nat.zero_le 1
  · rw [hleaves, R.leaves_eq]
    simp only [List.length_append, List.length_cons]
    omega

/-- One insert: the leaf that the key leads to took the entry, or split with the new leaf. -/
theorem TreeInv.descends (hN : 2 ≤ N) (hr : Bound r) (h : TreeInv r m d root ops)
    (hkey : key ≠ ⊤) (hnew : (∀ a, ¬ r a a) → key ∉ ops.map Prod.fst) (hc : c ∉ root.leaves d)
    (hfresh : ∀ i, (m c).keys.keys i = ⊤) {res : Mem N K V × XTree K × Bool}
    (hres : XTree.insertCore m ⟨d, some root⟩ key v (some c) = .ok res) :
    ∃ root' off splits, res.2.1.root = some root' ∧
      Descends m d root res.1 res.2.1.depth root' 1 off splits := by
  have hrouted := h.shape.routed hr (Cell.fences r)
  obtain ⟨R⟩ := hrouted.route hN hr (fun a b p hp => hp.1.1) bot_le (lt_top_iff_ne_top.mpr hkey)
  cases (m R.leaf).card_entries_le.lt_or_eq with
  | inl hroom =>
    obtain ⟨n', hadd, hroom'⟩ := R.room hkey hroom v c
    obtain rfl := Except.ok.inj (hroom'.symm.trans hres)
    refine ⟨root, _, _, rfl, h.descends_same hN hr (fun p _ => ?_) 1⟩
    change (Function.update m R.leaf n' p).getIncarnation = _ ∧
      _ ≤ (Function.update m R.leaf n' p).entries
    by_cases hp : p = R.leaf
    · rw [hp, Function.update_self, hadd.entries]
      exact ⟨hadd.incarnation, Multiset.le_cons_self _ _⟩
    · rw [Function.update_of_ne hp]
      exact ⟨rfl, le_rfl⟩
  | inr hfull =>
    obtain ⟨root', hroot', hdesc⟩ := h.descends_split hN hr hkey hnew hc hfresh R hfull hres
    exact ⟨root', _, _, hroot', hdesc⟩

variable [Inhabited V] {w w' : World N K V TrivalAlloc}

omit [LinearOrder K] [BoundedOrder K] in
theorem insertCore_of_insert [KeyType K] (hpre : w.preAllocLeafNode = some c)
    (hins : w.insert key v = .ok w') :
    ∃ res, w.tree.insertCore w.mem key v (some c) = .ok res ∧ w'.tree = res.2.1 ∧
      ∀ p, p ≠ w.alloc.allocated → w'.mem p = res.1 p := by
  unfold World.insert World.insertWAlloc at hins
  simp only [hpre, pure_eq_ok, ok_bind] at hins
  obtain ⟨⟨w₁, b⟩, hcall, hw⟩ := bind_eq_ok.mp hins
  obtain ⟨res, hres, hcall⟩ := bind_eq_ok.mp hcall
  obtain rfl := Except.ok.inj hw
  refine ⟨res, hres, ?_⟩
  obtain ⟨m, t, ret⟩ := res
  cases ret with
  | false =>
    obtain ⟨rfl, -⟩ := Prod.mk.inj (Except.ok.inj hcall)
    exact ⟨rfl, fun p _ => rfl⟩
  | true =>
    simp only [if_true, World.takePreAllocedLeaf, World.initPreAllocedLeaf, AllocTrait.alloc,
      ok_bind, Except.ok.injEq, Prod.mk.injEq] at hcall
    obtain ⟨rfl, -⟩ := hcall
    exact ⟨rfl, fun p hp => Function.update_of_ne hp _ _⟩

theorem WorldInv.descends (hN : 2 ≤ N) (hr : Bound r) (h : WorldInv r w root ops)
    (hkey : key ≠ ⊤) (hnew : (∀ a, ¬ r a a) → key ∉ ops.map Prod.fst)
    (hins : w.insert key v = .ok w') :
    ∃ root' off splits, WorldInv r w' root' ((key, v) ::ₘ ops) ∧
      Descends w.mem w.tree.depth root w'.mem w'.tree.depth root' 1 off splits := by
  obtain ⟨hbad, hgood⟩ := h.insert hN hr hkey hnew v
  have hcol : ¬ w.Collides key := by
    intro hcol
    rw [hbad hcol] at hins
    cases hins
  obtain ⟨w₁, root₁, hins₁, hinv⟩ := hgood hcol
  obtain rfl := Except.ok.inj (hins₁.symm.trans hins)
  obtain ⟨c, hpre, hclt, hc, hfresh⟩ := h.spare
  have htree : w.tree = ⟨w.tree.depth, some root⟩ := by rw [← h.root_eq]
  obtain ⟨res, hres, htree', hmem⟩ := insertCore_of_insert hpre hins
  rw [htree] at hres
  have hleaves := (h.tree.handed hN hr hkey hnew hc hfresh hres).leaves
  obtain ⟨root', off, splits, hroot', hdesc⟩ := h.tree.descends hN hr hkey hnew hc hfresh hres
  rw [XTree.leaves_of_root hroot', XTree.leaves_of_root rfl] at hleaves
  have hroot₁ := hinv.root_eq
  rw [htree', hroot'] at hroot₁
  obtain rfl := Option.some.inj hroot₁
  refine ⟨root', off, splits, hinv, ?_⟩
  rw [htree']
  refine hdesc.congr (fun p hp => hmem p ?_)
  rcases (hleaves p).mp hp with hp | ⟨-, rfl⟩
  · exact (h.allocated p hp).ne
  · exact hclt.ne

theorem WorldInv.descends_all (hN : 2 ≤ N) (h : WorldInv (fun a b => a ≤ b ∧ a ≠ ⊤) w root ops)
    (new : List (K × V)) (hkeys : ∀ op ∈ new, op.1 ≠ ⊤) (hrun : w.insertAll new = .ok w') :
    ∃ root' off splits, WorldInv (fun a b => a ≤ b ∧ a ≠ ⊤) w' root' (↑new + ops) ∧
      Descends w.mem w.tree.depth root w'.mem w'.tree.depth root' new.length off splits := by
  induction new generalizing w root ops with
  | nil =>
    obtain rfl : w = w' := Except.ok.inj hrun
    exact ⟨root, _, _, by simpa using h, h.tree.descends_same hN Bound.le_ne_top
      (fun _ _ => ⟨rfl, le_rfl⟩) 0⟩
  | cons op new ih =>
    have hkey := hkeys op (by simp)
    rw [World.insertAll, List.foldlM_cons] at hrun
    obtain ⟨w₁, hins, hrest⟩ := bind_eq_ok.mp hrun
    have hirr : ¬ ∀ a : K, ¬ (a ≤ a ∧ a ≠ ⊤) := fun hall => hall op.1 ⟨le_rfl, hkey⟩
    obtain ⟨root₁, off₁, splits₁, hinv, hfirst⟩ :=
      h.descends hN Bound.le_ne_top hkey (fun hall => absurd hall hirr) hins
    obtain ⟨root', off, splits, hinv', hlast⟩ :=
      ih hinv (fun op hop => hkeys op (List.mem_cons_of_mem _ hop)) hrest
    refine ⟨root', _, _, ?_, List.length_cons ▸ Nat.add_comm new.length 1 ▸ hfirst.trans hlast⟩
    rw [← Multiset.cons_coe, Multiset.cons_add, ← Multiset.add_cons]
    exact hinv'

end Step

section Reach
variable {m₀ m : Mem N K V} {d₀ d n : ℕ} {root₀ root : RawPtr K} {off : Ptr → List Ptr}
  {splits : Ptr → ℕ} {p q : Ptr}

/-- The links lead from a leaf to every leaf that was split off its keys, over such leaves
only. -/
theorem Descends.reach (h : Descends m₀ d₀ root₀ m d root n off splits)
    (hlinked : Linked (fun p => (m p).next) (root.leaves d)) (hp : p ∈ root₀.leaves d₀)
    (hq : q ∈ p :: off p) : ∃ i ≤ n,
      (follow (fun p => (m p).next) (i + 1) (some p)).getLast? = some q ∧
      ∀ l ∈ (follow (fun p => (m p).next) (i + 1) (some p)).tail, l ∈ off p := by
  rw [h.leaves] at hlinked
  obtain ⟨rest, hrest⟩ := hlinked.of_flatMap hp
  obtain ⟨i, hi, rfl⟩ := List.mem_iff_getElem.mp hq
  have hlen := h.off_length hp
  have hpath := hrest.follow_take (i + 1)
  rw [List.length_cons] at hi
  have hshort : (p :: off p ++ rest).take (i + 1) = (p :: off p).take (i + 1) :=
    List.take_append_of_le_length (by rw [List.length_cons]; omega)
  rw [hshort, List.cons_append, List.head?_cons] at hpath
  refine ⟨i, by omega, ?_, ?_⟩
  · rw [hpath, List.getLast?_take]
    simp
  · rw [hpath]
    intro l hl
    exact List.mem_of_mem_take (by simpa using hl)

variable [StdSort] [Inhabited V] {ops new : List (K × V)} {w w' : World N K V TrivalAlloc}

theorem World.insertAll_inv (hN : 2 ≤ N) (hrun : (World.init m).insertAll ops = .ok w)
    (hne : ops ≠ []) (hkeys : ∀ op ∈ ops, op.1 ≠ ⊤) :
    ∃ root, WorldInv (fun a b => a ≤ b ∧ a ≠ ⊤) w root ↑ops := by
  rcases Ready.insertAll_iff hN (Or.inl ⟨m, rfl, rfl⟩) ops hkeys with
    ⟨⟨w₁, hrun₁, hready⟩, -⟩ | ⟨herr, -⟩
  · obtain rfl := Except.ok.inj (hrun₁.symm.trans hrun)
    rw [add_zero] at hready
    rcases hready with ⟨m', -, hzero⟩ | ⟨root, hinv⟩
    · exact absurd (Multiset.coe_eq_zero _ |>.mp hzero) hne
    · exact ⟨root, hinv⟩
  · rw [hrun] at herr
    cases herr

theorem Built.descends (hN : 2 ≤ N) (hw : Built w ops) (hrun' : w.insertAll new = .ok w')
    (hnew : ∀ op ∈ new, op.1 ≠ ⊤) :
    ∃ root root' off splits, w.tree.root = some root ∧ w'.tree.root = some root' ∧
      (root'.leaves w'.tree.depth).Nodup ∧
      Descends w.mem w.tree.depth root w'.mem w'.tree.depth root' new.length off splits := by
  obtain ⟨m, hrun⟩ := hw.run
  obtain ⟨root, h⟩ := World.insertAll_inv hN hrun hw.ne hw.keys
  obtain ⟨root', off, splits, h', hdesc⟩ := h.descends_all hN new hnew hrun'
  exact ⟨root, root', off, splits, h.root_eq, h'.root_eq, h'.tree.nodup, hdesc⟩

theorem Built.insertAll (hw : Built w ops) (hrun : w.insertAll new = .ok w')
    (hkeys : ∀ op ∈ new, op.1 ≠ ⊤) (hd : ((ops ++ new).map Prod.fst).Nodup) :
    Built w' (ops ++ new) := by
  obtain ⟨m, hm⟩ := hw.run
  refine ⟨⟨m, ?_⟩, List.append_ne_nil_of_left_ne_nil hw.ne _, ?_, hd⟩
  · rw [World.insertAll, List.foldlM_append]
    exact (congrArg (fun r => r >>= _) hm).trans hrun
  · intro op hop
    cases List.mem_append.mp hop with
    | inl hop => exact hw.keys op hop
    | inr hop => exact hkeys op hop

/-- A client that knows the tree of an earlier moment finds the leaf of every key: from the
leaf that led to it then, along the links, over leaves that are new since. It follows at most
one link for each insert that went in since then. -/
theorem stale_leaf_reaches (hN : 2 ≤ N) (hrun : (World.init m).insertAll ops = .ok w)
    (hrun' : w.insertAll new = .ok w') (hne : ops ≠ []) (hkeys : ∀ op ∈ ops ++ new, op.1 ≠ ⊤)
    {x : K} (hx : x ≠ ⊤) :
    ∃ p q, w.tree.findLeaf x = .ok (some p) ∧ w'.tree.findLeaf x = .ok (some q) ∧
      ∃ i ≤ new.length, ∃ path, follow (fun p => (w'.mem p).next) (i + 1) (some p) = path ∧
        path.getLast? = some q ∧ ∀ l ∈ path.tail, l ∈ w'.tree.leaves ∧ l ∉ w.tree.leaves := by
  obtain ⟨root, h⟩ := World.insertAll_inv hN hrun hne
    (fun op hop => hkeys op (List.mem_append_left _ hop))
  obtain ⟨root', off, splits, h', hdesc⟩ :=
    h.descends_all hN new (fun op hop => hkeys op (List.mem_append_right _ hop)) hrun'
  obtain ⟨p, hp, q, hq, hfind, hfind'⟩ := hdesc.home x hx
  obtain ⟨i, hi, hlast, htail⟩ := hdesc.reach h'.tree.linked hp hq
  refine ⟨p, q, XTree.findLeaf_of_root h.root_eq hfind, XTree.findLeaf_of_root h'.root_eq hfind',
    i, hi, _, rfl, hlast, fun l hl => ?_⟩
  rw [XTree.leaves_of_root h.root_eq, XTree.leaves_of_root h'.root_eq]
  have hoff := htail l hl
  exact ⟨hdesc.mem_leaves hp (List.mem_cons_of_mem p hoff), hdesc.notMem h'.tree.nodup hp hoff⟩

omit [StdSort] in
/-- Three keys in leaves of two: the last one splits the only leaf. -/
theorem stale_leaf_reaches_three :
    letI := insertionStdSort
    ∃ w w' : World 2 XKey ℕ TrivalAlloc, ∃ p q, w.tree.findLeaf 3 = .ok (some p) ∧
      w'.tree.findLeaf 3 = .ok (some q) ∧
      ∃ i ≤ 1, ∃ path, follow (fun p => (w'.mem p).next) (i + 1) (some p) = path ∧
        path.getLast? = some q ∧ ∀ l ∈ path.tail, l ∈ w'.tree.leaves ∧ l ∉ w.tree.leaves := by
  let : StdSort := insertionStdSort
  obtain ⟨w, hrun, hready⟩ := Ready.insertAll (le_refl 2) (K := XKey) (V := ℕ)
    (Or.inl ⟨fun _ => XNode.new, rfl, rfl⟩) [(1, 10), (3, 30)] (by decide) (by decide)
  obtain ⟨w', hrun', -⟩ := hready.insertAll (le_refl 2) [(2, 20)] (by decide) (by decide)
  exact ⟨w, w', stale_leaf_reaches (le_refl 2) hrun hrun' (by simp) (by decide) (by decide)⟩

/-- A leaf with the incarnation that it had at an earlier moment, fewer than 2^16 inserts ago,
has its keys still: the searches that end in it are the same, and it lost no entry. -/
theorem stale_leaf_current (hN : 2 ≤ N) (hrun : (World.init m).insertAll ops = .ok w)
    (hrun' : w.insertAll new = .ok w') (hne : ops ≠ []) (hkeys : ∀ op ∈ ops ++ new, op.1 ≠ ⊤)
    (hnew : new.length < 2 ^ 16) (hp : p ∈ w.tree.leaves)
    (hinc : (w'.mem p).getIncarnation = (w.mem p).getIncarnation) :
    (∀ x, x ≠ ⊤ → (w.tree.findLeaf x = .ok (some p) ↔ w'.tree.findLeaf x = .ok (some p))) ∧
      (w.mem p).entries ≤ (w'.mem p).entries := by
  obtain ⟨root, h⟩ := World.insertAll_inv hN hrun hne
    (fun op hop => hkeys op (List.mem_append_left _ hop))
  obtain ⟨root', off, splits, h', hdesc⟩ :=
    h.descends_all hN new (fun op hop => hkeys op (List.mem_append_right _ hop)) hrun'
  rw [XTree.leaves_of_root h.root_eq] at hp
  obtain ⟨hoff, hle⟩ := hdesc.unsplit p hp (hdesc.splits_eq_zero hnew hp hinc)
  refine ⟨fun x hx => ?_, hle⟩
  rw [XTree.findLeaf_iff h.root_eq, XTree.findLeaf_iff h'.root_eq]
  exact hdesc.find_iff h'.tree.nodup hp hoff hx

omit [StdSort] in
/-- The second insert finds a free slot in the only leaf. -/
theorem stale_leaf_current_two :
    letI := insertionStdSort
    ∃ w w' : World 2 XKey ℕ TrivalAlloc, (∀ x : XKey, x ≠ ⊤ →
        (w.tree.findLeaf x = .ok (some 0) ↔ w'.tree.findLeaf x = .ok (some 0))) ∧
      (w.mem 0).entries ≤ (w'.mem 0).entries := by
  let : StdSort := insertionStdSort
  obtain ⟨w, hrun, hready⟩ := Ready.insertAll (le_refl 2) (K := XKey) (V := ℕ)
    (Or.inl ⟨fun _ => XNode.new, rfl, rfl⟩) [(1, 10)] (by decide) (by decide)
  obtain ⟨w', hrun', -⟩ := hready.insertAll (le_refl 2) [(2, 20)] (by decide) (by decide)
  have hboth : ((World.init (fun _ => XNode.new : Mem 2 XKey ℕ)).insertAll [(1, 10)] >>= fun w =>
      w.insertAll [(2, 20)] >>= fun w' => pure (w.tree.leaves, (w.mem 0).getIncarnation,
        (w'.mem 0).getIncarnation)) = .ok ([0], 0, 0) := by decide +kernel
  rw [hrun, ok_bind, hrun', ok_bind, pure_eq_ok, Except.ok.injEq, Prod.mk.injEq,
    Prod.mk.injEq] at hboth
  obtain ⟨hleaves, hinc, hinc'⟩ := hboth
  exact ⟨w, w', stale_leaf_current (le_refl 2) hrun hrun' (by simp) (by decide) (by decide)
    (by rw [hleaves]; simp) (hinc'.trans hinc.symm)⟩

end Reach
end XStore.Xkv
