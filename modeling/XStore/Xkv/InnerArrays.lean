import XStore.Lib.Slots
import XStore.Xkv.KeyMapTree

/-! The inner node as it stands in memory: arrays with slots that are not in use, and
`num_keys` in one byte. The sequences of `TreeInner` are what its used slots hold. -/
namespace XStore.Xkv
open XStore.Lib
variable {N : ℕ} {K C : Type}

/-- A slot of `childrens` may be null. -/
structure InnerArrays (N : ℕ) (K C : Type) where
  keys : Fin N → K
  upKey : K
  childrens : Fin (N + 1) → Option C
  numKeys : UInt8

namespace InnerArrays

section Model
variable [KeyType K]

/-- The constructor, on a block that holds anything: it writes no separator and leaves out the
last child. -/
def new (block : InnerArrays N K C) : InnerArrays N K C where
  keys := block.keys
  upKey := KeyType.invalid
  childrens i := if i.val < N then none else block.childrens i
  numKeys := 0

def empty (n : InnerArrays N K C) : Bool := n.numKeys == 0

def full (n : InnerArrays N K C) : Bool := n.numKeys.toNat == N

/-- Separator and child `i` go to the slots `i - n` of `next`; `copied` counts them. -/
def copyEntry (this : InnerArrays N K C) (n : ℕ) (next : InnerArrays N K C × ℕ) (i : ℕ) :
    Res (InnerArrays N K C × ℕ) := do
  let (next, copied) := next
  let k ← need (readSlot this.keys i) .outOfRange
  let ks ← need (writeSlot next.keys (i - n) k) .outOfRange
  let c ← need (readSlot this.childrens i) .outOfRange
  let cs ← need (writeSlot next.childrens (i - n) c) .outOfRange
  pure ({ next with keys := ks, childrens := cs }, copied + 1)

/-- The loop leaves out the last child, which has no separator behind it; it is set at the end. -/
def copyAfterNTo (this next : InnerArrays N K C) (n : ℕ) : Res (InnerArrays N K C) := do
  ensure next.empty .siblingEmpty
  let (next, copied) ←
    (List.range' n (this.numKeys.toNat - n)).foldlM (this.copyEntry n) (next, 0)
  let next := { next with numKeys := UInt8.ofNat copied }
  let c ← need (readSlot this.childrens this.numKeys.toNat) .outOfRange
  let cs ← need (writeSlot next.childrens next.numKeys.toNat c) .outOfRange
  pure { next with childrens := cs }

def shiftFrom (pos : ℕ) : ℕ → InnerArrays N K C → Res (InnerArrays N K C)
  | 0, this => pure this
  | i + 1, this =>
    if i + 1 > pos then do
      let k ← need (readSlot this.keys i) .outOfRange
      let ks ← need (writeSlot this.keys (i + 1) k) .outOfRange
      let c ← need (readSlot this.childrens (i + 1)) .outOfRange
      let cs ← need (writeSlot this.childrens (i + 2) c) .outOfRange
      shiftFrom pos i { this with keys := ks, childrens := cs }
    else pure this

def insertAtPos (this : InnerArrays N K C) (k : K) (p : Option C) (pos : ℕ) :
    Res (InnerArrays N K C) := do
  let this ← shiftFrom pos this.numKeys.toNat this
  let ks ← need (writeSlot this.keys pos k) .outOfRange
  let cs ← need (writeSlot this.childrens (pos + 1) p) .outOfRange
  pure { this with keys := ks, childrens := cs, numKeys := this.numKeys + 1 }

/-- The part of `insert` under "should insert to me"; `block` is the memory that a new sibling
is built in. -/
def insertToMe (this block : InnerArrays N K C) (k : ℕ) (upKey : K) (toInsert : Option C) :
    Res (InnerArrays N K C × Option (InnerArrays N K C)) :=
  match toInsert with
  | none => pure (this, none)
  | some _ => do
    ensure (KeyType.ne upKey KeyType.invalid) .upKeyValid
    if this.full then
      let threshod := (N + 1) / 2
      let newSib ← this.copyAfterNTo (new block) threshod
      let this := { this with numKeys := UInt8.ofNat (threshod - 1) }
      let newUp ← need (readSlot this.keys (threshod - 1)) .outOfRange
      let newSib := { newSib with upKey := newUp }
      if KeyType.ge upKey newSib.upKey then
        ensure (threshod ≤ k) .splitThreshold
        let newSib ← newSib.insertAtPos upKey toInsert (k - threshod)
        pure (this, some newSib)
      else
        let this ← this.insertAtPos upKey toInsert k
        pure (this, some newSib)
    else
      let this ← this.insertAtPos upKey toInsert k
      pure (this, none)

end Model

def separators (n : InnerArrays N K C) : List K := firstSlots n.keys n.numKeys.toNat

def children (n : InnerArrays N K C) : List (Option C) :=
  firstSlots n.childrens (n.numKeys.toNat + 1)

def view (n : InnerArrays N K C) : TreeInner K (Option C) where
  keys := n.separators
  childrens := n.children
  upKey := n.upKey

structure Stands (n : InnerArrays N K C) (t : TreeInner K (Option C)) : Prop where
  capacity : n.numKeys.toNat ≤ N
  view : n.view = t

section View
variable (n : InnerArrays N K C)

theorem length_separators (hm : n.numKeys.toNat ≤ N) : n.separators.length = n.numKeys.toNat :=
  length_firstSlots _ hm

theorem length_children (hm : n.numKeys.toNat ≤ N) :
    n.children.length = n.numKeys.toNat + 1 :=
  length_firstSlots _ (by omega)

theorem Stands.length_keys {n : InnerArrays N K C} {t : TreeInner K (Option C)}
    (h : n.Stands t) : t.keys.length = n.numKeys.toNat := by
  rw [← h.view]
  exact n.length_separators h.capacity

theorem toNat_ofNat_numKeys (hN : N ≤ 255) {i : ℕ} (hi : i ≤ N) : (UInt8.ofNat i).toNat = i := by
  rw [UInt8.toNat_ofNat']
  exact Nat.mod_eq_of_lt (by omega)

theorem shiftFrom_eq (pos i : ℕ) (hi : i < N) :
    shiftFrom pos i n = .ok { n with
      keys := shifted pos i n.keys
      childrens := shifted (pos + 1) (i + 1) n.childrens } := by
  induction i generalizing n with
  | zero =>
    rw [shifted_of_le _ (Nat.zero_le pos), shifted_of_le _ (by omega)]
    rfl
  | succ i ih =>
    by_cases hpos : pos ≤ i
    · rw [shiftFrom, if_pos (by omega), readSlot_of_lt _ (by omega), need_some, ok_bind,
        writeSlot_of_lt _ hi, need_some, ok_bind, readSlot_of_lt _ (by omega), need_some,
        ok_bind, writeSlot_of_lt _ (by omega), need_some, ok_bind, ih _ (by omega)]
      simp only [shifted_step n.keys hpos hi,
        shifted_step n.childrens (Nat.succ_le_succ hpos) (Nat.succ_lt_succ hi)]
    · rw [shiftFrom, if_neg (by omega), shifted_of_le _ (by omega), shifted_of_le _ (by omega)]
      rfl

theorem insertAtPos_eq (k : K) (p : Option C) {pos : ℕ} (hpos : pos ≤ n.numKeys.toNat)
    (hm : n.numKeys.toNat < N) :
    n.insertAtPos k p pos = .ok {
      keys := Function.update (shifted pos n.numKeys.toNat n.keys) ⟨pos, by omega⟩ k
      upKey := n.upKey
      childrens := Function.update (shifted (pos + 1) (n.numKeys.toNat + 1) n.childrens)
        ⟨pos + 1, by omega⟩ p
      numKeys := n.numKeys + 1 } := by
  rw [insertAtPos, shiftFrom_eq n pos _ hm, ok_bind, writeSlot_of_lt _ (by omega), need_some,
    ok_bind, writeSlot_of_lt _ (by omega), need_some, ok_bind]
  rfl

theorem insertAtPos_stands (hN : N ≤ 255) {t t' : TreeInner K (Option C)} {k : K} {p : Option C}
    {pos : ℕ} (h : n.Stands t) (ht : t.insertAtPos N k p pos = .ok t') :
    ∃ n', n.insertAtPos k p pos = .ok n' ∧ n'.Stands t' := by
  have hlen := h.length_keys
  obtain ⟨hm, rfl⟩ := h
  unfold TreeInner.insertAtPos at ht
  split at ht
  · next hin =>
    obtain ⟨hpos, hroom⟩ := hin
    rw [hlen] at hpos hroom
    have hnum : (n.numKeys + 1).toNat = n.numKeys.toNat + 1 := by
      rw [UInt8.toNat_add]
      exact Nat.mod_eq_of_lt (by simp only [UInt8.toNat_one]; omega)
    refine ⟨_, n.insertAtPos_eq k p hpos hroom, ?_, ?_⟩
    · simp only [hnum]
      omega
    · cases ht
      simp only [view, separators, children, hnum, firstSlots_insertIdx n.keys hpos hroom,
        firstSlots_insertIdx n.childrens (Nat.succ_le_succ hpos) (Nat.succ_lt_succ hroom)]
  · cases ht

def copiedTo (next : InnerArrays N K C) (start cnt : ℕ) : InnerArrays N K C :=
  { next with
    keys := copied n.keys start cnt next.keys
    childrens := copied n.childrens start cnt next.childrens }

theorem copyEntry_eq (next : InnerArrays N K C) {start cnt : ℕ} (h : start + cnt < N) :
    n.copyEntry start (n.copiedTo next start cnt, cnt) (start + cnt) =
      .ok (n.copiedTo next start (cnt + 1), cnt + 1) := by
  rw [copyEntry, readSlot_of_lt _ h, need_some, ok_bind, Nat.add_sub_cancel_left,
    writeSlot_of_lt _ (by omega), need_some, ok_bind, readSlot_of_lt _ (by omega), need_some,
    ok_bind, writeSlot_of_lt _ (by omega), need_some, ok_bind]
  simp only [copiedTo, copied_step next.keys n.keys h,
    copied_step next.childrens n.childrens (Nat.lt_succ_of_lt h), pure_eq_ok]

theorem copyEntries_eq (next : InnerArrays N K C) (start cnt : ℕ) (h : start + cnt ≤ N) :
    (List.range' start cnt).foldlM (n.copyEntry start) (next, 0) =
      .ok (n.copiedTo next start cnt, cnt) := by
  induction cnt with
  | zero =>
    rw [copiedTo, copied_zero, copied_zero]
    rfl
  | succ cnt ih =>
    rw [List.range'_1_concat, List.foldlM_append, ih (by omega), ok_bind, List.foldlM_cons,
      n.copyEntry_eq next h]
    rfl

theorem copyAfterNTo_stands (hN : N ≤ 255) {t : TreeInner K (Option C)} (h : n.Stands t)
    (next : InnerArrays N K C) (hnext : next.numKeys = 0) (start : ℕ)
    (hstart : start ≤ t.keys.length) :
    ∃ s, n.copyAfterNTo next start = .ok s ∧ s.Stands {
      keys := t.keys.drop start
      childrens := t.childrens.drop start
      upKey := next.upKey } := by
  have hlen := h.length_keys
  obtain ⟨hm, rfl⟩ := h
  rw [hlen] at hstart
  obtain ⟨cnt, hcnt⟩ := Nat.exists_eq_add_of_le hstart
  have hsub : n.numKeys.toNat - start = cnt := by omega
  have hnum : (UInt8.ofNat cnt).toNat = cnt := toNat_ofNat_numKeys hN (by omega)
  have hempty : next.empty = true := by simp [empty, hnext]
  refine ⟨{ n.copiedTo next start cnt with
    childrens := Function.update (copied n.childrens start cnt next.childrens) ⟨cnt, by omega⟩
      (n.childrens ⟨start + cnt, by omega⟩)
    numKeys := UInt8.ofNat cnt }, ?_, by simp only [hnum]; omega, ?_⟩
  · rw [copyAfterNTo, hempty, ensure_true, ok_bind, hsub,
      n.copyEntries_eq next start cnt (by omega), ok_bind]
    simp only [copiedTo, hnum, hcnt]
    rw [readSlot_of_lt _ (by omega), need_some, ok_bind, writeSlot_of_lt _ (by omega), need_some,
      ok_bind]
    rfl
  · -- the children behind the copied ones: the last child of this node
    have hlast : (firstSlots n.childrens (start + cnt) ++
          [n.childrens ⟨start + cnt, by omega⟩]).drop start =
        (firstSlots n.childrens (start + cnt)).drop start ++
          [n.childrens ⟨start + cnt, by omega⟩] :=
      List.drop_append_of_le_length (by rw [length_firstSlots _ (by omega)]; omega)
    simp only [view, separators, children, copiedTo, hnum, hcnt]
    rw [firstSlots_push _ (by omega), firstSlots_copied _ _ (by omega),
      firstSlots_copied _ _ (by omega), firstSlots_succ _ (by omega), hlast]

theorem setNumKeys_stands (hN : N ≤ 255) {t : TreeInner K (Option C)} (h : n.Stands t) {i : ℕ}
    (hi : i ≤ t.keys.length) :
    Stands { n with numKeys := UInt8.ofNat i } (t.setNumKeys i) := by
  have hlen := h.length_keys
  obtain ⟨hm, rfl⟩ := h
  rw [hlen] at hi
  have hnum : (UInt8.ofNat i).toNat = i := toNat_ofNat_numKeys hN (by omega)
  constructor
  · simp only [hnum]
    omega
  · simp only [view, separators, children, TreeInner.setNumKeys, hnum, take_firstSlots _ hi,
      take_firstSlots _ (Nat.succ_le_succ hi)]

theorem readSlot_keys {t : TreeInner K (Option C)} (h : n.Stands t) {i : ℕ} {k : K}
    (hk : t.keys[i]? = some k) : readSlot n.keys i = some k := by
  obtain ⟨-, rfl⟩ := h
  simp only [view, separators, getElem?_firstSlots] at hk
  split at hk
  · exact hk
  · cases hk

theorem Stands.setUpKey {n : InnerArrays N K C} {t : TreeInner K (Option C)} (h : n.Stands t)
    (k : K) : Stands { n with upKey := k } { t with upKey := k } := by
  obtain ⟨hm, rfl⟩ := h
  exact ⟨hm, rfl⟩

theorem full_eq {t : TreeInner K (Option C)} (h : n.Stands t) : n.full = t.full N := by
  simp only [full, TreeInner.full, h.length_keys]

/-- Where the insertion into the sequences goes through, so does the one into the arrays, and
the arrays stand for its result. -/
theorem insertToMe_stands [KeyType K] (hN : 0 < N) (hN' : N ≤ 255) {t : TreeInner K (Option C)}
    (h : n.Stands t) (block : InnerArrays N K C) {k : ℕ} {up : K} {c : C}
    {r : TreeInner K (Option C) × Option (TreeInner K (Option C))}
    (ht : t.insertToMe N k up (some c) = .ok r) :
    ∃ n' s, n.insertToMe block k up (some c) = .ok (n', s) ∧ n'.Stands r.1 ∧
      Option.Rel Stands s r.2 := by
  unfold TreeInner.insertToMe at ht
  obtain ⟨u, hup, ht⟩ := bind_eq_ok.mp ht
  by_cases hfull : t.full N = true
  · have hlen : t.keys.length = N := by simpa [TreeInner.full] using hfull
    rw [if_pos hfull] at ht
    obtain ⟨sib, hsib, ht⟩ := bind_eq_ok.mp ht
    obtain ⟨mid, hmid, ht⟩ := bind_eq_ok.mp ht
    have hread := n.readSlot_keys h (need_eq_ok.mp hmid)
    obtain ⟨s, hs, hupper⟩ := n.copyAfterNTo_stands hN' h (new block) rfl ((N + 1) / 2)
      (by omega)
    obtain rfl : TreeInner.mk (t.keys.drop ((N + 1) / 2)) (t.childrens.drop ((N + 1) / 2))
        KeyType.invalid = sib := Except.ok.inj hsib
    have hsibling := hupper.setUpKey mid
    have hlower := n.setNumKeys_stands hN' h (i := (N + 1) / 2 - 1) (by omega)
    simp only [insertToMe, hup, ok_bind, n.full_eq h, hfull, if_true, hs, hread, need_some]
    dsimp only at ht
    split at ht
    · next hge =>
      obtain ⟨u', hk, ht⟩ := bind_eq_ok.mp ht
      obtain ⟨sib', hins, ht⟩ := bind_eq_ok.mp ht
      obtain ⟨s', hs', hstands⟩ := insertAtPos_stands _ hN' hsibling hins
      cases ht
      refine ⟨_, some s', ?_, hlower, Option.Rel.some hstands⟩
      rw [if_pos hge, hk, ok_bind, hs']
      rfl
    · next hge =>
      obtain ⟨low, hins, ht⟩ := bind_eq_ok.mp ht
      obtain ⟨n', hn', hstands⟩ := insertAtPos_stands _ hN' hlower hins
      cases ht
      refine ⟨n', _, ?_, hstands, Option.Rel.some hsibling⟩
      rw [if_neg hge, hn']
      rfl
  · rw [if_neg hfull] at ht
    obtain ⟨t', hins, ht⟩ := bind_eq_ok.mp ht
    obtain ⟨n', hn', hstands⟩ := n.insertAtPos_stands hN' h hins
    cases ht
    refine ⟨n', none, ?_, hstands, Option.Rel.none⟩
    simp only [insertToMe, hup, ok_bind, n.full_eq h, hfull, hn']
    rfl

end View

section Order
variable [LinearOrder K] [BoundedOrder K]

theorem insertToMe_node {K' : Type} [KeyType K'] {φ : K → K'} (hφ : KeyHom φ) (hN : 0 < N)
    (hN' : N ≤ 255) {n : InnerArrays N K' C} {t t' : TreeInner K C} {s : Option (TreeInner K C)}
    {k : ℕ} {up : K} {c : C} (h : n.Stands (t.map φ some)) (block : InnerArrays N K' C)
    (ht : t.insertToMe N k up c = .ok (t', s)) :
    ∃ n' s', n.insertToMe block k (φ up) (some c) = .ok (n', s') ∧ n'.Stands (t'.map φ some) ∧
      Option.Rel Stands s' (s.map (TreeInner.map φ some)) := by
  obtain ⟨r, hr, hmap⟩ := (TreeInner.insertToMe_map some t hφ k up c).exists_ok ht
  subst hmap
  exact n.insertToMe_stands hN hN' h block hr

omit [BoundedOrder K] in
theorem le_of_getElem? {ks : List K} (h : ks.Pairwise (fun a b => a ≤ b)) {i j : ℕ} {a b : K}
    (hij : i ≤ j) (hi : ks[i]? = some a) (hj : ks[j]? = some b) : a ≤ b := by
  obtain ⟨hil, rfl⟩ := List.getElem?_eq_some_iff.mp hi
  obtain ⟨hjl, rfl⟩ := List.getElem?_eq_some_iff.mp hj
  cases hij.lt_or_eq with
  | inl hlt => exact List.pairwise_iff_getElem.mp h i j hil hjl hlt
  | inr heq =>
    subst heq
    exact le_rfl

omit [BoundedOrder K] in
/-- A separator that stands right of separator `k - 1` and left of separator `k` is below
another one exactly if that stands right of it. -/
theorem side_of_separator {ks : List K} (hsorted : ks.Pairwise (fun a b => a ≤ b)) {i k : ℕ}
    {mid up : K} (hk : k ≤ ks.length) (hlow : 0 < k → ∀ s ∈ ks[k - 1]?, s < up)
    (hhigh : ∀ s ∈ ks[k]?, up < s) (hmid : ks[i]? = some mid) :
    (up < mid → k ≤ i) ∧ (mid ≤ up → i < k) := by
  obtain ⟨hi, -⟩ := List.getElem?_eq_some_iff.mp hmid
  constructor
  · intro hlt
    by_contra hgt
    have hprev := List.getElem?_eq_getElem (show k - 1 < ks.length by omega)
    have hle := le_of_getElem? hsorted (show i ≤ k - 1 by omega) hmid hprev
    exact absurd (hlow (by omega) _ hprev) (not_lt.mpr (hlt.le.trans hle))
  · intro hle
    by_contra hgt
    have hnext := List.getElem?_eq_getElem (show k < ks.length by omega)
    have hle' := le_of_getElem? hsorted (show k ≤ i by omega) hnext hmid
    exact absurd (hhigh _ hnext) (not_lt.mpr (hle'.trans hle))

theorem insertToMe_room (hN' : N ≤ 255) (n block : InnerArrays N K C) (k : ℕ) (up : K) (c : C)
    (hm : n.numKeys.toNat < N) (hk : k ≤ n.numKeys.toNat) (hup : up ≠ ⊤) :
    ∃ n', n.insertToMe block k up (some c) = .ok (n', none) ∧
      n'.numKeys.toNat = n.numKeys.toNat + 1 ∧
      n'.separators = n.separators.insertIdx k up ∧
      n'.children = n.children.insertIdx (k + 1) (some c) := by
  have hlen := n.length_separators hm.le
  obtain ⟨t', ht, hholds⟩ := n.view.insertToMe_room (N := N) k up (some c) hup
    (by simp only [view]; omega) (by simp only [view]; omega)
  obtain ⟨n', s, hins, hstands, hrel⟩ :=
    n.insertToMe_stands (by omega) hN' ⟨hm.le, rfl⟩ block ht
  cases hrel
  obtain ⟨hcap, rfl⟩ := hstands
  obtain ⟨hks, hcs, -, -⟩ := hholds
  refine ⟨n', hins, ?_, hks, hcs⟩
  have hlen' := congrArg List.length hks
  rw [List.length_insertIdx_of_le_length (by simp only [view]; omega)] at hlen'
  simp only [view, n'.length_separators hcap, hlen] at hlen'
  exact hlen'

theorem insertToMe_full (hN : 2 ≤ N) (hN' : N ≤ 255) (n block : InnerArrays N K C) (k : ℕ)
    (up : K) (c : C) (hm : n.numKeys.toNat = N)
    (hsorted : n.separators.Pairwise (fun a b => a ≤ b)) (hk : k ≤ n.numKeys.toNat)
    (hlow : 0 < k → ∀ s ∈ n.separators[k - 1]?, s < up)
    (hhigh : ∀ s ∈ n.separators[k]?, up < s) (hup : up ≠ ⊤) :
    ∃ n' s, n.insertToMe block k up (some c) = .ok (n', some s) ∧
      n'.separators ++ s.upKey :: s.separators = n.separators.insertIdx k up ∧
      n'.children ++ s.children = n.children.insertIdx (k + 1) (some c) ∧
      n'.numKeys.toNat ≤ N ∧ s.numKeys.toNat ≤ N := by
  have hlen := n.length_separators hm.le
  have hhalf : halfKeys N < n.separators.length := by
    unfold halfKeys
    omega
  have hmid := List.getElem?_eq_getElem hhalf
  obtain ⟨hleft, hright⟩ := side_of_separator hsorted (by omega) hlow hhigh hmid
  obtain ⟨t', sib, ht, -, hholds⟩ := n.view.insertToMe_full k up (some c) hN hup
    (by simp only [view]; omega) (by simp only [view, n.length_children hm.le]; omega) _ hmid
    (by omega) hleft hright
  obtain ⟨n', s, hins, hstands, hrel⟩ :=
    n.insertToMe_stands (by omega) hN' ⟨hm.le, rfl⟩ block ht
  cases hrel with
  | some hsib =>
    obtain ⟨hcap, rfl⟩ := hstands
    obtain ⟨hcap', rfl⟩ := hsib
    obtain ⟨hks, hcs, -⟩ := hholds
    exact ⟨n', _, hins, hks, hcs, hcap, hcap'⟩

/-- A separator and a child from a split of child `k` go into the node, or into the node and
its new sibling, and leave the order of all the others as it was. -/
theorem insertToMe_sequence (hN : 2 ≤ N) (hN' : N ≤ 255) (n block : InnerArrays N K C) (k : ℕ)
    (up : K) (c : C) (hsorted : n.separators.Pairwise (fun a b => a ≤ b))
    (hk : k ≤ n.numKeys.toNat)
    (hlow : 0 < k → ∀ s ∈ n.separators[k - 1]?, s < up)
    (hhigh : ∀ s ∈ n.separators[k]?, up < s) (hup : up ≠ ⊤) :
    (n.numKeys.toNat < N → ∃ n', n.insertToMe block k up (some c) = .ok (n', none) ∧
      n'.numKeys.toNat = n.numKeys.toNat + 1 ∧
      n'.separators = n.separators.insertIdx k up ∧
      n'.children = n.children.insertIdx (k + 1) (some c)) ∧
    (n.numKeys.toNat = N → ∃ n' s, n.insertToMe block k up (some c) = .ok (n', some s) ∧
      n'.separators ++ s.upKey :: s.separators = n.separators.insertIdx k up ∧
      n'.children ++ s.children = n.children.insertIdx (k + 1) (some c) ∧
      n'.numKeys.toNat ≤ N ∧ s.numKeys.toNat ≤ N) := by
  constructor
  · intro hroom
    exact n.insertToMe_room hN' block k up c hroom hk hup
  · intro hfull
    exact n.insertToMe_full hN hN' block k up c hfull hsorted hk hlow hhigh hup

theorem insertToMe_sequence_three :
    letI n : InnerArrays 3 XKey ℕ := ⟨fun i => if i = 0 then 10 else if i = 1 then 20 else 30, ⊤,
      fun i => some i.val, 3⟩
    ∃ n' s, n.insertToMe n 2 25 (some 9) = .ok (n', some s) ∧
      n'.separators ++ s.upKey :: s.separators = [10, 20, 25, 30] ∧
      n'.children ++ s.children = [some 0, some 1, some 2, some 9, some 3] ∧
      n'.numKeys.toNat ≤ 3 ∧ s.numKeys.toNat ≤ 3 := by
  have hlow : ∀ s ∈ some (20 : XKey), s < 25 := by simp
  have hhigh : ∀ s ∈ some (30 : XKey), 25 < s := by simp
  exact (insertToMe_sequence (by decide) (by decide) _ _ 2 25 9 (by decide) (by decide)
    (fun _ => hlow) hhigh (by decide)).2 (by decide)

end Order
end InnerArrays
end XStore.Xkv
