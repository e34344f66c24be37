import XStore.Xkv.Lookup

/-! The leaf that `insert_core` is handed. It hangs in the tree afterwards exactly if the call
returns true, and that is if the tree had no root or the leaf of the key had no free slot. -/
namespace XStore.Xkv
open XStore.Lib
variable {N : ℕ} {K V : Type} [LinearOrder K] [BoundedOrder K]

def XTree.leaves (t : XTree K) : List Ptr :=
  match t.root with
  | some root => root.leaves t.depth
  | none => []

def XTree.Takes (m : Mem N K V) (t : XTree K) (k : K) : Prop :=
  t.root = none ∨ ∃ p, t.findLeaf k = .ok (some p) ∧ (m p).numKeys = N

def XTree.Collides (m : Mem N K V) [StdSort] (t : XTree K) (k : K) : Prop :=
  ∃ root, t.root = some root ∧ Xkv.Collides N (leafUp m) k t.depth root

/-- The tree holds the entries `ops`; without entries it has no root. -/
def Stands (r : K → K → Prop) (m : Mem N K V) (t : XTree K) (ops : Multiset (K × V)) : Prop :=
  (t = XTree.new ∧ ops = 0) ∨ ∃ root, t.root = some root ∧ TreeInv r m t.depth root ops

/-- What becomes of the handed leaf `c`, and of all leaves that are not in the tree. -/
structure Handed (m : Mem N K V) (t : XTree K) (k : K) (c : Ptr)
    (res : Mem N K V × XTree K × Bool) : Prop where
  taken : res.2.2 = true ↔ t.Takes m k
  leaves : ∀ p, p ∈ res.2.1.leaves ↔ p ∈ t.leaves ∨ res.2.2 = true ∧ p = c
  spare : res.2.2 = false → res.1 c = m c
  frame : ∀ p, p ∉ t.leaves → p ≠ c → res.1 p = m p

section Leaves
variable {r : K → K → Prop} {m m' : Mem N K V} {t : XTree K} {ops : Multiset (K × V)}

omit [LinearOrder K] [BoundedOrder K] in
theorem XTree.leaves_of_root {root : RawPtr K} (h : t.root = some root) :
    t.leaves = root.leaves t.depth := by
  rw [XTree.leaves, h]

omit [LinearOrder K] [BoundedOrder K] in
@[simp] theorem XTree.leaves_new : (XTree.new : XTree K).leaves = [] := rfl

theorem Stands.congr (h : Stands r m t ops) (heq : ∀ p ∈ t.leaves, m' p = m p) :
    Stands r m' t ops := by
  cases h with
  | inl hnew => exact Or.inl hnew
  | inr h =>
    obtain ⟨root, hroot, hinv⟩ := h
    rw [XTree.leaves_of_root hroot] at heq
    exact Or.inr ⟨root, hroot, hinv.congr heq⟩

theorem Stands.nodup (h : Stands r m t ops) : t.leaves.Nodup := by
  cases h with
  | inl hnew => simp [hnew.1]
  | inr h =>
    obtain ⟨root, hroot, hinv⟩ := h
    rw [XTree.leaves_of_root hroot]
    exact hinv.nodup

theorem Stands.get (hN : 2 ≤ N) (h : Stands (fun a b => a < b) m t ops) {k : K} {v : V}
    (hk : k ≠ ⊤) (hop : (k, v) ∈ ops) : t.get m k = .ok (some v) := by
  cases h with
  | inl hnew =>
    rw [hnew.2] at hop
    exact absurd hop (Multiset.notMem_zero _)
  | inr h =>
    obtain ⟨root, hroot, hinv⟩ := h
    have htree : t = ⟨t.depth, some root⟩ := by rw [← hroot]
    rw [htree]
    exact (hinv.get hN hk).1 v hop

theorem Stands.not_collides [StdSort] (h : Stands (fun a b => a < b) m t ops) {k : K}
    (hk : k ≠ ⊤) : ¬ t.Collides m k := by
  intro hcol
  obtain ⟨root, hroot, hcol⟩ := hcol
  cases h with
  | inl hnew =>
    rw [hnew.1] at hroot
    cases hroot
  | inr h =>
    obtain ⟨root', hroot', hinv⟩ := h
    obtain rfl := Option.some.inj (hroot'.symm.trans hroot)
    exact hinv.not_collides hk hcol

end Leaves

section Insert
variable [StdSort] {r : K → K → Prop} {m : Mem N K V} {d : ℕ} {root : RawPtr K} {t : XTree K}
  {ops : Multiset (K × V)} {key : K} {v : V} {c : Ptr}

omit [StdSort] in
theorem takes_iff {p : Ptr} (hfind : XTree.findLeafFrom key d root = .ok p) :
    XTree.Takes m ⟨d, some root⟩ key ↔ (m p).entries.card = N := by
  have hleaf : XTree.findLeaf ⟨d, some root⟩ key = .ok (some p) := by
    simp [XTree.findLeaf, hfind]
  rw [XTree.Takes, hleaf, ← numKeys_eq_card]
  constructor
  · intro h
    cases h with
    | inl hnone => cases hnone
    | inr h =>
      obtain ⟨q, hq, hfull⟩ := h
      obtain rfl := Option.some.inj (Except.ok.inj hq)
      exact hfull
  · exact fun hfull => Or.inr ⟨p, rfl, hfull⟩

theorem TreeInv.handed (hN : 2 ≤ N) (hr : Bound r) (h : TreeInv r m d root ops) (hkey : key ≠ ⊤)
    (hnew : (∀ a, ¬ r a a) → key ∉ ops.map Prod.fst) (hc : c ∉ root.leaves d)
    (hfresh : ∀ i, (m c).keys.keys i = ⊤) {res : Mem N K V × XTree K × Bool}
    (hres : XTree.insertCore m ⟨d, some root⟩ key v (some c) = .ok res) :
    Handed m ⟨d, some root⟩ key c res := by
  obtain ⟨R⟩ := h.shape.route hN hr (Cell.fences r) bot_le (lt_top_iff_ne_top.mpr hkey)
  have htakes := takes_iff (m := m) R.found
  have hout : ∀ p, p ∉ root.leaves d → p ≠ R.leaf := fun p hp he => hp (he ▸ R.mem_leaf)
  cases (m R.leaf).card_entries_le.lt_or_eq with
  | inl hroom =>
    obtain ⟨n', -, hroom'⟩ := R.room hkey hroom v c
    obtain rfl := Except.ok.inj (hroom'.symm.trans hres)
    refine ⟨?_, by simp [XTree.leaves], fun _ => ?_, fun p hp _ => ?_⟩
    · rw [htakes]
      simp [hroom.ne]
    · exact Function.update_of_ne (hout c hc) _ _
    · exact Function.update_of_ne (hout p hp) _ _
  | inr hfull =>
    obtain ⟨pivot, hs, hret, hshape⟩ := R.split_ok hN hr hkey hc hfresh hfull hres
    have hdist : (∀ a, ¬ r a a) → (((key, v) ::ₘ ops).map Prod.fst).Nodup := by
      intro hirr
      rw [Multiset.map_cons, Multiset.nodup_cons]
      exact ⟨hnew hirr, h.distinct hirr⟩
    obtain ⟨hleft, hright⟩ :=
      hs.halves.cells hN hr R.holds R.le R.lt (h.distinct_leaf R hdist)
    obtain ⟨root', hroot', -, hleaves⟩ := hshape (fun a b _ => r a b) (fun _ _ _ h => h)
      (fun a b q _ hcell => hcell.1) hleft.1 hright.1
    refine ⟨?_, ?_, fun hfalse => ?_, fun p hp hpc => ?_⟩
    · rw [htakes]
      exact ⟨fun _ => hfull, fun _ => hret⟩
    · intro p
      rw [XTree.leaves_of_root hroot', hleaves, hret]
      change _ ↔ p ∈ root.leaves d ∨ _
      rw [R.leaves_eq]
      by_cases hpc : p = c <;> simp [hpc]
    · rw [hret] at hfalse
      cases hfalse
    · exact hs.frame p (hout p hp) hpc

variable [Inhabited V]

/-- `insert_core` with a fresh leaf: the ASSERT on the split threshold fails, or the entry goes
in and the leaf is taken where the tree needs one. -/
theorem Stands.insertCore (hN : 2 ≤ N) (hr : Bound r) (h : Stands r m t ops) (hkey : key ≠ ⊤)
    (hnew : (∀ a, ¬ r a a) → key ∉ ops.map Prod.fst) (hc : c ∉ t.leaves)
    (hfresh : m c = XNode.new) (v : V) :
    (t.Collides m key →
      XTree.insertCore m t key v (some c) = .error (.assert .splitThreshold)) ∧
    (¬ t.Collides m key → ∃ res, XTree.insertCore m t key v (some c) = .ok res ∧
      Stands r res.1 res.2.1 ((key, v) ::ₘ ops) ∧ Handed m t key c res) := by
  cases h with
  | inl hempty =>
    obtain ⟨rfl, rfl⟩ := hempty
    constructor
    · intro hcol
      obtain ⟨root, hroot, -⟩ := hcol
      cases hroot
    · intro _
      obtain ⟨n', hres, hinv⟩ := insertCore_new hN hr hkey hfresh v
      refine ⟨_, hres, Or.inr ⟨_, rfl, hinv⟩, ?_, ?_, ?_, ?_⟩
      · exact ⟨fun _ => Or.inl rfl, fun _ => rfl⟩
      · simp [XTree.leaves, XTree.new, RawPtr.leaves]
      · intro hfalse
        cases hfalse
      · exact fun p _ hp => Function.update_of_ne hp _ _
  | inr h =>
    obtain ⟨root, hroot, hinv⟩ := h
    have htree : t = ⟨t.depth, some root⟩ := by rw [← hroot]
    have hfresh' : ∀ i, (m c).keys.keys i = ⊤ := by
      rw [hfresh]
      exact fun i => rfl
    rw [XTree.leaves_of_root hroot] at hc
    obtain ⟨hbad, hgood⟩ := hinv.insertCore hN hr hkey hnew hc hfresh' v
    rw [← htree] at hbad hgood
    constructor
    · intro hcol
      obtain ⟨root', hroot', hcol⟩ := hcol
      obtain rfl := Option.some.inj (hroot.symm.trans hroot')
      exact hbad hcol
    · intro hnot
      obtain ⟨res, hres, hstep⟩ := hgood (fun hcol => hnot ⟨root, hroot, hcol⟩)
      obtain ⟨root', hroot', hinv', -⟩ := hstep.inv
      refine ⟨res, hres, Or.inr ⟨root', hroot', hinv'⟩, ?_⟩
      rw [htree] at hres ⊢
      exact hinv.handed hN hr hkey hnew hc hfresh' hres

end Insert
end XStore.Xkv
