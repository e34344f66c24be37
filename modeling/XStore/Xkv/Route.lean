import XStore.Xkv.Shape

/-! The search path of a key: the leaf it ends in, what stands left and right of that leaf,
and what hanging a new leaf beside it does to the tree above. -/
namespace XStore.Xkv
open XStore.Lib
variable {N : ℕ} {K V : Type} [LinearOrder K] [BoundedOrder K]
variable {Q : K → K → Ptr → Prop} {r : K → K → Prop} {lb d : ℕ} {lo hi : K} {t : RawPtr K}
variable {Q' : K → K → Ptr → Prop} {n : TreeInner K (RawPtr K)} {x up : K} {c s : RawPtr K}

/-- The leaf that `find_leaf` ends in: its fences `a ≤ x < b` and its neighbours. -/
structure Route (N : ℕ) (r : K → K → Prop) (Q : K → K → Ptr → Prop) (lb d : ℕ) (lo hi : K)
    (t : RawPtr K) (x : K) where
  leaf : Ptr
  before : List Ptr
  after : List Ptr
  a : K
  b : K
  found : XTree.findLeafFrom x d t = .ok leaf
  leaves_eq : t.leaves d = before ++ leaf :: after
  holds : Q a b leaf
  le : a ≤ x
  lt : x < b
  lo_le : lo ≤ a
  le_hi : b ≤ hi
  before_le : ∀ q ∈ before, ∃ a' b', Q a' b' q ∧ b' ≤ a
  after_ge : ∀ q ∈ after, ∃ a' b', Q a' b' q ∧ b ≤ a'
  keep : ∀ Q' : K → K → Ptr → Prop, (∀ a b, ∀ q ∈ before ++ after, Q a b q → Q' a b q) →
    Q' a b leaf → Shape N Q' lb d lo hi t
  relink : ∀ (Q' : K → K → Ptr → Prop) (leafUp : Ptr → Option K) (up : K) (c : Ptr),
    (∀ a b q, Q' a b q → r a b) → (∀ a b, ∀ q ∈ before ++ after, Q a b q → Q' a b q) →
    Q' a up leaf → Q' up b c →
    up ≠ ⊤ → leafUp leaf = some up →
    (Collides N leafUp x d t → link N d t x up c = .error (.assert .splitThreshold)) ∧
    (¬ Collides N leafUp x d t → ∃ res, link N d t x up c = .ok res ∧
      Relinked N Q' lb d lo hi res ∧ relinkedLeaves d res = before ++ leaf :: c :: after ∧
      res.2.map Prod.fst = exported N leafUp x d t)

namespace Route
variable (R : Route N r Q lb d lo hi t x)
include R

theorem mem_leaf : R.leaf ∈ t.leaves d := by
  rw [R.leaves_eq]
  simp

theorem mem_of_mem {q : Ptr} (hq : q ∈ R.before ++ R.after) : q ∈ t.leaves d := by
  rw [R.leaves_eq]
  rcases List.mem_append.mp hq with hq | hq <;> simp [hq]

end Route

theorem Shape.exported_lt (hr : Bound r) (hQ : ∀ a b p, Q a b p → r a b)
    {leafUp : Ptr → Option K} {x up : K}
    (hup : ∀ a b p, Q a b p → leafUp p = some up → r up b)
    (h : Shape N Q lb d lo hi t) (he : exported N leafUp x d t = some up) : r up hi := by
  cases d with
  | zero =>
    obtain ⟨p, rfl⟩ := h.eq_leaf
    exact hup lo hi p h he
  | succ d =>
    obtain ⟨n, rfl, -, -, h⟩ := h.eq_inner
    unfold exported at he
    split at he
    · split at he
      · have := hr.isTrans
        exact ((h.chain r (fun _ _ _ => fences hr hQ)).2.2 up (List.mem_of_getElem? he)).2
      · cases he
    · cases he

omit [BoundedOrder K] in
theorem focus_getElem (f : Fence.Focus (Shape N Q (halfKeys N) d) lo hi n.keys n.childrens x)
    (i : ℕ) (s : K) (hs : n.keys[i]? = some s) :
    (i < f.left.length → s ≤ f.a) ∧ (f.left.length ≤ i → f.b ≤ s) := by
  rw [f.keys_eq] at hs
  constructor
  · intro hi
    rw [List.getElem?_append_left hi] at hs
    exact f.left_le s (List.mem_of_getElem? hs)
  · intro hi
    rw [List.getElem?_append_right hi] at hs
    exact f.right_ge s (List.mem_of_getElem? hs)

theorem focus_idx (f : Fence.Focus (Shape N Q (halfKeys N) d) lo hi n.keys n.childrens x) :
    n.findChildrenIdx x = f.left.length := by
  rw [f.left_length]
  rfl

theorem focus_child (f : Fence.Focus (Shape N Q (halfKeys N) d) lo hi n.keys n.childrens x) :
    n.childrens[n.findChildrenIdx x]? = some f.cell := by
  have h : (f.before ++ f.cell :: f.after)[f.before.length]? = some f.cell := by simp
  rw [focus_idx f, ← f.before_length]
  exact (congrArg (fun cs => cs[f.before.length]?) f.cells_eq).trans h

omit [BoundedOrder K] in
theorem focus_set (f : Fence.Focus (Shape N Q (halfKeys N) d) lo hi n.keys n.childrens x)
    (c : RawPtr K) : n.childrens.set f.left.length c = f.before ++ c :: f.after := by
  rw [← f.before_length]
  refine (congrArg (fun cs => cs.set f.before.length c) f.cells_eq).trans ?_
  simp

/-- One inner node on the way back up: the child at the focus became `c` and handed up the
separator `up` and its sibling `s`. -/
theorem insertToMe_relinked (hN : 2 ≤ N) (hr : Bound r) (hQ' : ∀ a b p, Q' a b p → r a b)
    (f : Fence.Focus (Shape N Q (halfKeys N) d) lo hi n.keys n.childrens x)
    (hlb : lb ≤ n.keys.length) (hKN : n.keys.length ≤ N) (hup : up ≠ ⊤)
    (hold : ∀ a b, ∀ e ∈ f.before ++ f.after, Shape N Q (halfKeys N) d a b e →
      Shape N Q' (halfKeys N) d a b e)
    (hnew : Fence (Shape N Q' (halfKeys N) d) f.a f.b [up] [c, s])
    (hok : ∀ mid, n.keys.length = N → n.keys[halfKeys N]? = some mid → x < mid → up < mid) :
    ∃ n' sib, { n with childrens := n.childrens.set f.left.length c }.insertToMe N
        f.left.length up s = .ok (n', sib) ∧
      Relinked N Q' lb (d + 1) lo hi (.inner n', sib.map (fun s => (s.upKey, .inner s))) ∧
      relinkedLeaves (d + 1) (.inner n', sib.map (fun s => (s.upKey, .inner s))) =
        (f.before ++ c :: s :: f.after).flatMap (RawPtr.leaves d) ∧
      sib.map TreeInner.upKey =
        (if n.keys.length = N then n.keys[halfKeys N]? else none) := by
  let n₁ : TreeInner K (RawPtr K) := { n with childrens := n.childrens.set f.left.length c }
  have hkl := congrArg List.length f.keys_eq
  have hbl := f.before_length
  rw [List.length_append] at hkl
  have hk : f.left.length ≤ n.keys.length := by omega
  have hset : n₁.childrens = f.before ++ c :: f.after := focus_set f c
  have hks : n.keys.insertIdx f.left.length up = f.left ++ [up] ++ f.right := by
    refine (congrArg (fun ks => ks.insertIdx f.left.length up) f.keys_eq).trans ?_
    simpa using insertIdx_append_right f.left f.right 0 up
  have hcs : n₁.childrens.insertIdx (f.left.length + 1) s = f.before ++ [c, s] ++ f.after := by
    rw [hset, ← hbl, insertIdx_append_right]
    simp
  have hfence := f.refill _ [up] [c, s] hold hnew
  rw [← hks, ← hcs] at hfence
  have hleaves : f.before ++ c :: s :: f.after = f.before ++ [c, s] ++ f.after := by simp
  rw [hleaves, ← hcs]
  by_cases hfull : n.keys.length = N
  · have hhalf : halfKeys N < n.keys.length := by unfold halfKeys; omega
    have hmid := List.getElem?_eq_getElem hhalf
    obtain ⟨hleft, hright⟩ := focus_getElem f _ _ hmid
    have haup : f.a ≤ up := hnew.1.fences_le hr hQ'
    have hlen : n₁.childrens.length = N + 1 := by
      have h := congrArg List.length hset
      have hfl := hfence.length
      simp only [List.length_append, List.length_cons] at h
      rw [List.length_insertIdx_of_le_length hk, hcs] at hfl
      simp only [List.length_append, List.length_cons, List.length_nil] at hfl
      omega
    obtain ⟨n', sib, heq, hsib, hholds⟩ := n₁.insertToMe_full f.left.length up s hN hup hfull
      hlen _ hmid (by omega)
      (fun hlt => by
        by_contra hgt
        exact absurd (hleft (by omega)) (not_le.mpr (lt_of_le_of_lt haup hlt)))
      (fun hle => by
        by_contra hgt
        have hx := lt_of_lt_of_le f.lt (hright (by omega))
        exact absurd hle (not_le.mpr (hok _ hfull hmid hx)))
    obtain ⟨hkeys, hchildren, hlen', hn, hs, hln, hls⟩ := hholds
    refine ⟨n', some sib, heq, ?_, ?_, ?_⟩
    · rw [← hkeys, ← hchildren, Fence.append_iff sib.upKey _ _ hlen'] at hfence
      exact ⟨⟨hln, hn, hfence.1⟩, hls, hs, hfence.2⟩
    · rw [← hchildren, List.flatMap_append]
      rfl
    · rw [if_pos hfull, hmid, ← hsib]
      rfl
  · obtain ⟨n', heq, hkeys, hchildren, hn, hln⟩ := n₁.insertToMe_room (N := N) f.left.length up s
      hup hk (lt_of_le_of_ne hKN hfull)
    refine ⟨n', none, heq, ?_, ?_, ?_⟩
    · refine ⟨hlb.trans hln.le, hn, ?_⟩
      rw [hkeys, hchildren]
      exact hfence
    · rw [← hchildren]
      rfl
    · rw [if_neg hfull]
      rfl

omit [BoundedOrder K] in
/-- What holds of the leaves beside the route holds of the children beside the focus. -/
theorem route_hold (f : Fence.Focus (Shape N Q (halfKeys N) d) lo hi n.keys n.childrens x)
    {before after : List Ptr}
    (hother : ∀ a b, ∀ q ∈ f.before.flatMap (RawPtr.leaves d) ++ before ++
      (after ++ f.after.flatMap (RawPtr.leaves d)), Q a b q → Q' a b q) :
    ∀ a b, ∀ e ∈ f.before ++ f.after, Shape N Q (halfKeys N) d a b e →
      Shape N Q' (halfKeys N) d a b e := by
  intro a b e he
  refine Shape.imp (fun a b q hq => hother a b q ?_)
  simp only [List.mem_append, List.mem_flatMap] at he ⊢
  cases he with
  | inl he => exact Or.inl (Or.inl ⟨e, he, hq⟩)
  | inr he => exact Or.inr (Or.inr ⟨e, he, hq⟩)

theorem link_leaf (p : Ptr) (x up : K) (c : Ptr) :
    link N 0 (.leaf p) x up c = .ok (.leaf p, some (up, .leaf c)) := rfl

theorem collides_inner {leafUp : Ptr → Option K}
    (f : Fence.Focus (Shape N Q (halfKeys N) d) lo hi n.keys n.childrens x) :
    Collides N leafUp x (d + 1) (.inner n) ↔ Collides N leafUp x d f.cell ∨
      ∃ up mid, exported N leafUp x d f.cell = some up ∧ n.keys.length = N ∧
        n.keys[halfKeys N]? = some mid ∧ x < mid ∧ mid ≤ up := by
  constructor
  · rintro ⟨e, he, h⟩
    obtain rfl := Option.some.inj ((focus_child f).symm.trans he)
    exact h
  · exact fun h => ⟨f.cell, focus_child f, h⟩

theorem link_inner_kept
    (f : Fence.Focus (Shape N Q (halfKeys N) d) lo hi n.keys n.childrens x)
    (hlb : lb ≤ n.keys.length) (hKN : n.keys.length ≤ N)
    (hold : ∀ a b, ∀ e ∈ f.before ++ f.after, Shape N Q (halfKeys N) d a b e →
      Shape N Q' (halfKeys N) d a b e)
    {p : Ptr} (heq : link N d f.cell x up p = .ok (c, none))
    (hrel : Relinked N Q' (halfKeys N) d f.a f.b (c, none)) :
    ∃ res, link N (d + 1) (.inner n) x up p = .ok res ∧
      Relinked N Q' lb (d + 1) lo hi res ∧
      relinkedLeaves (d + 1) res = f.before.flatMap (RawPtr.leaves d) ++
        relinkedLeaves d (c, none) ++ f.after.flatMap (RawPtr.leaves d) ∧ res.2 = none := by
  have hchild := focus_child f
  have hidx := focus_idx f
  have hfence := f.refill _ [] [c] hold hrel
  have hcs : n.childrens.set f.left.length c = f.before ++ [c] ++ f.after := by
    rw [focus_set f, List.append_assoc, List.singleton_append]
  refine ⟨(.inner { n with childrens := n.childrens.set f.left.length c }, none), ?_, ?_, ?_, rfl⟩
  · rw [hidx] at hchild
    simp [link, RawPtr.asInner, hidx, hchild, heq]
  · refine ⟨hlb, hKN, ?_⟩
    change Fence _ lo hi n.keys (n.childrens.set f.left.length c)
    rw [hcs]
    simpa [← f.keys_eq] using hfence
  · change (n.childrens.set f.left.length c).flatMap (RawPtr.leaves d) = _
    rw [hcs]
    simp [relinkedLeaves]

theorem link_inner_error (hN : 2 ≤ N)
    (f : Fence.Focus (Shape N Q (halfKeys N) d) lo hi n.keys n.childrens x) {p : Ptr} {mid up' : K}
    (heq : link N d f.cell x up p = .ok (c, some (up', s))) (hup' : up' ≠ ⊤)
    (hfull : n.keys.length = N) (hmid : n.keys[halfKeys N]? = some mid) (hlt : x < mid)
    (hle : mid ≤ up') :
    link N (d + 1) (.inner n) x up p = .error (.assert .splitThreshold) := by
  have hchild := focus_child f
  have hidx := focus_idx f
  have hk : f.left.length ≤ halfKeys N := by
    by_contra hgt
    have hmida := (focus_getElem f _ mid hmid).1 (by omega)
    exact absurd (hmida.trans f.le) (not_le.mpr hlt)
  rw [hidx] at hchild
  have herr := TreeInner.insertToMe_error
    { n with childrens := n.childrens.set f.left.length c } f.left.length up' s hN hup'
    hfull mid hmid hle hk
  simp [link, RawPtr.asInner, hidx, hchild, heq, herr]

theorem link_inner (hN : 2 ≤ N) (hr : Bound r) (hQ' : ∀ a b p, Q' a b p → r a b)
    (f : Fence.Focus (Shape N Q (halfKeys N) d) lo hi n.keys n.childrens x)
    (hlb : lb ≤ n.keys.length) (hKN : n.keys.length ≤ N)
    (hold : ∀ a b, ∀ e ∈ f.before ++ f.after, Shape N Q (halfKeys N) d a b e →
      Shape N Q' (halfKeys N) d a b e)
    {leafUp : Ptr → Option K} {p : Ptr} {ps : List Ptr}
    (hbad : Collides N leafUp x d f.cell →
      link N d f.cell x up p = .error (.assert .splitThreshold))
    (hgood : ¬ Collides N leafUp x d f.cell → ∃ res, link N d f.cell x up p = .ok res ∧
      Relinked N Q' (halfKeys N) d f.a f.b res ∧ relinkedLeaves d res = ps ∧
      res.2.map Prod.fst = exported N leafUp x d f.cell) :
    (Collides N leafUp x (d + 1) (.inner n) →
      link N (d + 1) (.inner n) x up p = .error (.assert .splitThreshold)) ∧
    (¬ Collides N leafUp x (d + 1) (.inner n) →
      ∃ res, link N (d + 1) (.inner n) x up p = .ok res ∧
      Relinked N Q' lb (d + 1) lo hi res ∧
      relinkedLeaves (d + 1) res = f.before.flatMap (RawPtr.leaves d) ++ ps ++
        f.after.flatMap (RawPtr.leaves d) ∧
      res.2.map Prod.fst = exported N leafUp x (d + 1) (.inner n)) := by
  have hchild := focus_child f
  have hidx := focus_idx f
  rw [collides_inner f]
  by_cases hcol : Collides N leafUp x d f.cell
  · refine ⟨fun _ => ?_, fun hnot => absurd (Or.inl hcol) hnot⟩
    simp [link, RawPtr.asInner, hchild, hbad hcol]
  obtain ⟨⟨c, new⟩, heq, hrel, hleaves, hexp⟩ := hgood hcol
  have hexport : exported N leafUp x (d + 1) (.inner n) =
      if (exported N leafUp x d f.cell).isSome ∧ n.keys.length = N then n.keys[halfKeys N]?
      else none := by
    simp only [exported, hchild]
  rw [hexport, ← hexp, ← hleaves]
  cases new with
  | none =>
    constructor
    · rintro (hcol' | ⟨up', mid, he, -⟩)
      · exact absurd hcol' hcol
      · cases he
    · intro _
      obtain ⟨res, hlink, hrel', hleaves', hnone⟩ := link_inner_kept f hlb hKN hold heq hrel
      exact ⟨res, hlink, hrel', hleaves', by rw [hnone]; rfl⟩
  | some new =>
    obtain ⟨up', s⟩ := new
    have hup' : up' ≠ ⊤ := hr.ne_top (Shape.fences hr hQ' hrel.2)
    constructor
    · rintro (hcol' | ⟨up₁, mid, he, hfull, hmid, hlt, hle⟩)
      · exact absurd hcol' hcol
      · obtain rfl : up' = up₁ := Option.some.inj he
        exact link_inner_error hN f heq hup' hfull hmid hlt hle
    · intro hnot
      have hok : ∀ mid, n.keys.length = N → n.keys[halfKeys N]? = some mid → x < mid →
          up' < mid := by
        intro mid hfull hmid hlt
        by_contra hge
        exact hnot (Or.inr ⟨up', mid, rfl, hfull, hmid, hlt, le_of_not_gt hge⟩)
      obtain ⟨n', sib, hins, hrel', hleaves', hup₁⟩ :=
        insertToMe_relinked hN hr hQ' f hlb hKN hup' hold hrel hok
      refine ⟨_, ?_, hrel', ?_, ?_⟩
      · rw [hidx] at hchild
        simp [link, RawPtr.asInner, hidx, hchild, heq, hins]
      · rw [hleaves']
        simp [relinkedLeaves]
      · simp only [Option.map_some, Option.isSome_some, true_and]
        rw [← hup₁, Option.map_map]
        rfl

/-- The descent by one level: the route inside the focused child, with the leaves of the
other children left and right of it. -/
theorem Shape.route (hN : 2 ≤ N) (hr : Bound r) (hQ : ∀ a b p, Q a b p → r a b)
    (h : Shape N Q lb d lo hi t) (hlo : lo ≤ x) (hhi : x < hi) :
    Nonempty (Route N r Q lb d lo hi t x) := by
  induction d generalizing lb lo hi t with
  | zero =>
    obtain ⟨p, rfl⟩ := h.eq_leaf
    exact ⟨{ leaf := p, before := [], after := [], a := lo, b := hi
             found := rfl, leaves_eq := rfl, holds := h, le := hlo, lt := hhi
             lo_le := le_rfl, le_hi := le_rfl, before_le := by simp, after_ge := by simp
             keep := fun Q' _ hp => hp
             relink := fun Q' leafUp up c _ _ hl hc _ hup =>
               ⟨fun hcol => absurd hcol (by simp [Collides]), fun _ =>
                 ⟨(.leaf p, some (up, .leaf c)), link_leaf p x up c, ⟨hl, hc⟩, rfl, hup.symm⟩⟩ }⟩
  | succ d ih =>
    obtain ⟨n, rfl, hlb, hKN, hf⟩ := h.eq_inner
    obtain ⟨f⟩ := hf.focus (fun _ _ _ => fences_le hr hQ) x hlo hhi
    obtain ⟨R⟩ := ih f.holds f.le f.lt
    have hchild := focus_child f
    refine ⟨{ leaf := R.leaf
              before := f.before.flatMap (RawPtr.leaves d) ++ R.before
              after := R.after ++ f.after.flatMap (RawPtr.leaves d)
              a := R.a, b := R.b, found := ?_, leaves_eq := ?_, holds := R.holds
              le := R.le, lt := R.lt
              lo_le := f.lo_le.trans R.lo_le, le_hi := R.le_hi.trans f.le_hi
              before_le := ?_, after_ge := ?_, keep := ?_, relink := ?_ }⟩
    · simp [XTree.findLeafFrom, RawPtr.asInner, TreeInner.findChildren, hchild, R.found]
    · have hl := congrArg (List.flatMap (RawPtr.leaves d)) f.cells_eq
      simpa [RawPtr.leaves, R.leaves_eq] using hl
    · intro q hq
      cases List.mem_append.mp hq with
      | inl hq =>
        obtain ⟨e, he, hq⟩ := List.mem_flatMap.mp hq
        obtain ⟨a', b', hs, hle⟩ := f.before_le e he
        obtain ⟨a₁, b₁, hq, -, hle₁⟩ := hs.leaf_of_mem hr hQ q hq
        exact ⟨a₁, b₁, hq, hle₁.trans (hle.trans R.lo_le)⟩
      | inr hq => exact R.before_le q hq
    · intro q hq
      cases List.mem_append.mp hq with
      | inl hq => exact R.after_ge q hq
      | inr hq =>
        obtain ⟨e, he, hq⟩ := List.mem_flatMap.mp hq
        obtain ⟨a', b', hs, hge⟩ := f.after_ge e he
        obtain ⟨a₁, b₁, hq, hge₁, -⟩ := hs.leaf_of_mem hr hQ q hq
        exact ⟨a₁, b₁, hq, (R.le_hi.trans hge).trans hge₁⟩
    · intro Q' hother hp
      have hcell := R.keep Q' (fun a b q hq => hother a b q (by simp at hq ⊢; tauto)) hp
      have hold := route_hold f hother
      have hfence := f.refill _ [] [f.cell] hold hcell
      refine ⟨hlb, hKN, ?_⟩
      simpa [← f.keys_eq, ← f.cells_eq] using hfence
    · intro Q' leafUp up c hQ' hother hl hc hup hleafUp
      obtain ⟨hbad, hgood⟩ := R.relink Q' leafUp up c hQ'
        (fun a b q hq => hother a b q (by simp at hq ⊢; tauto)) hl hc hup hleafUp
      have h := link_inner hN hr hQ' f hlb hKN (route_hold f hother) hbad hgood
      simp only [List.append_assoc, List.cons_append] at h ⊢
      exact h

/-- With strictly ascending fences no insert collides: what a child hands up lies below every
separator to its right. -/
theorem Shape.not_collides (hr : Bound r) (hirr : ∀ a, ¬ r a a)
    (hQ : ∀ a b p, Q a b p → r a b) {leafUp : Ptr → Option K}
    (hup : ∀ a b p up, Q a b p → leafUp p = some up → r up b)
    (h : Shape N Q lb d lo hi t) (hlo : lo ≤ x) (hhi : x < hi) : ¬ Collides N leafUp x d t := by
  induction d generalizing lb lo hi t with
  | zero => simp [Collides]
  | succ d ih =>
    obtain ⟨n, rfl, -, -, hf⟩ := h.eq_inner
    obtain ⟨f⟩ := hf.focus (fun _ _ _ => fences_le hr hQ) x hlo hhi
    rintro ⟨e, he, hcol | ⟨up, mid, hexp, -, hmid, hlt, hle⟩⟩
    · obtain rfl := Option.some.inj ((focus_child f).symm.trans he)
      exact ih f.holds f.le f.lt hcol
    · obtain rfl := Option.some.inj ((focus_child f).symm.trans he)
      have hb := f.holds.exported_lt hr hQ (fun a b p => hup a b p up) hexp
      obtain ⟨hleft, hright⟩ := focus_getElem f _ mid hmid
      by_cases hk : halfKeys N < f.left.length
      · exact absurd ((hleft hk).trans f.le) (not_le.mpr hlt)
      · have hmb := hr.trans_le ((hright (by omega)).trans hle) hb
        exact hirr _ hmb

end XStore.Xkv
