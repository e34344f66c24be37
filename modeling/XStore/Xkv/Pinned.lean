import XStore.Xkv.Spare

/-! Keys that may repeat. The search for a key goes right of every separator equal to it, so
it finds the key only because each separator stays the key of some entry right of it. -/
namespace XStore.Xkv
open XStore.Lib
variable {N : ℕ} {K V : Type} [LinearOrder K] [BoundedOrder K]

/-- A leaf that holds an entry at its lower fence, unless it is the first leaf. -/
def PinnedCell (first : Ptr) (m : Mem N K V) (lo hi : K) (p : Ptr) : Prop :=
  Cell (fun a b => a ≤ b ∧ a ≠ ⊤) m lo hi p ∧ (p = first ∨ ∃ e ∈ (m p).entries, e.1 = lo)

def Pinned (m : Mem N K V) (d : ℕ) (root : RawPtr K) : Prop :=
  ∃ first rest, root.leaves d = first :: rest ∧ Shape N (PinnedCell first m) 1 d ⊥ ⊤ root

/-- The tree holds the entries `ops`, whose keys may repeat, and a search finds every key. -/
def Keeps (m : Mem N K V) (t : XTree K) (ops : Multiset (K × V)) : Prop :=
  Stands (fun a b => a ≤ b ∧ a ≠ ⊤) m t ops ∧
    ∀ root, t.root = some root → Pinned m t.depth root

section Pinned
variable {m m' : Mem N K V} {d : ℕ} {root : RawPtr K} {ops : Multiset (K × V)} {first p c : Ptr}
  {lo hi key pivot : K} {v : V}

theorem PinnedCell.fences (first : Ptr) (m : Mem N K V) :
    ∀ a b p, PinnedCell first m a b p → a ≤ b ∧ a ≠ ⊤ :=
  fun _ _ _ h => h.1.1

theorem PinnedCell.congr (h : m' p = m p) (hp : PinnedCell first m lo hi p) :
    PinnedCell first m' lo hi p :=
  ⟨hp.1.congr h, by rw [h]; exact hp.2⟩

theorem Pinned.congr (h : Pinned m d root) (heq : ∀ p ∈ root.leaves d, m' p = m p) :
    Pinned m' d root := by
  obtain ⟨first, rest, hleaves, hshape⟩ := h
  exact ⟨first, rest, hleaves, hshape.imp (fun _ _ p hp hc => hc.congr (heq p hp))⟩

theorem PinnedCell.add {n' : XNode N K V} (hadd : Added (m p) n' key v) (hself : m' p = n')
    (hlo : lo ≤ key) (hhi : key < hi) (h : PinnedCell first m lo hi p) :
    PinnedCell first m' lo hi p := by
  refine ⟨⟨h.1.1, ?_⟩, ?_⟩
  · rw [hself, hadd.entries]
    intro e he
    cases Multiset.mem_cons.mp he with
    | inl heq =>
      rw [heq]
      exact ⟨hlo, Bound.le_ne_top.of_lt hhi⟩
    | inr he => exact h.1.2 e he
  · rw [hself, hadd.entries]
    cases h.2 with
    | inl hfirst => exact Or.inl hfirst
    | inr hpin =>
      obtain ⟨e, he, heq⟩ := hpin
      exact Or.inr ⟨e, Multiset.mem_cons_of_mem he, heq⟩

/-- The left half keeps an entry at the old fence, the right half has one at the pivot. -/
theorem SplitInto.pinned [StdSort] (hN : 2 ≤ N) {cand : XNode N K V}
    (hs : SplitInto key v c (m p) (m' p) cand (m' c) pivot) (hlo : lo ≤ key) (hhi : key < hi)
    (h : PinnedCell first m lo hi p) :
    PinnedCell first m' lo pivot p ∧ PinnedCell first m' pivot hi c := by
  have hd : (∀ a : K, ¬ (a ≤ a ∧ a ≠ ⊤)) → (((key, v) ::ₘ (m p).entries).map Prod.fst).Nodup :=
    fun hirr => absurd ⟨le_rfl, hhi.ne_top⟩ (hirr key)
  obtain ⟨hleft, hright⟩ := hs.cells hN Bound.le_ne_top h.1 hlo hhi hd
  refine ⟨⟨hleft, ?_⟩, hright, Or.inr ?_⟩
  · cases h.2 with
    | inl hfirst => exact Or.inl hfirst
    | inr hpin =>
      refine Or.inr ?_
      have hge := hleft.2
      obtain ⟨e, he, heq⟩ := hpin
      have hmem : e ∈ (m' p).entries + (m' c).entries := by
        rw [hs.entries]
        exact Multiset.mem_cons_of_mem he
      cases Multiset.mem_add.mp hmem with
      | inl he' => exact ⟨e, he', heq⟩
      | inr he' =>
        -- the old entry went over, so the pivot is the old fence and all that stayed is at it
        have hpos : 0 < (m' p).entries.card := by
          have := hs.left_count
          omega
        obtain ⟨e₀, he₀⟩ := Multiset.card_pos_iff_exists_mem.mp hpos
        have hle : e₀.1 ≤ lo := (hs.left_le e₀ he₀).trans (heq ▸ hs.right_ge e he')
        exact ⟨e₀, he₀, le_antisymm hle (hge e₀ he₀).1⟩
  · obtain ⟨u, hu⟩ := hs.pivot_mem
    exact ⟨(pivot, u), hu, rfl⟩

theorem Pinned.insertCore [StdSort] (hN : 2 ≤ N) (h : Pinned m d root)
    (hnd : (root.leaves d).Nodup) (hkey : key ≠ ⊤) (hc : c ∉ root.leaves d)
    (hfresh : ∀ i, (m c).keys.keys i = ⊤)
    {res : Mem N K V × XTree K × Bool}
    (hres : XTree.insertCore m ⟨d, some root⟩ key v (some c) = .ok res) :
    ∀ root', res.2.1.root = some root' → Pinned res.1 res.2.1.depth root' := by
  obtain ⟨first, rest, hleaves, hshape⟩ := h
  obtain ⟨R⟩ := hshape.route hN Bound.le_ne_top (PinnedCell.fences first m) bot_le
    (lt_top_iff_ne_top.mpr hkey)
  have hother := ne_of_nodup_middle (R.leaves_eq ▸ hnd)
  intro root' hroot'
  cases (m R.leaf).card_entries_le.lt_or_eq with
  | inl hroom =>
    obtain ⟨n', hadd, hroom'⟩ := R.room hkey hroom v c
    obtain rfl := Except.ok.inj (hroom'.symm.trans hres)
    obtain rfl := Option.some.inj hroot'
    refine ⟨first, rest, hleaves, R.keep _ (fun a b q hq hcell => hcell.congr ?_)
      (R.holds.add hadd (Function.update_self _ _ _) R.le R.lt)⟩
    exact Function.update_of_ne (hother q hq) _ _
  | inr hfull =>
    obtain ⟨pivot, hs, -, hnew⟩ := R.split_ok hN Bound.le_ne_top hkey hc hfresh hfull hres
    obtain ⟨hleft, hright⟩ := hs.halves.pinned hN R.le R.lt R.holds
    have hold : ∀ a b, ∀ q ∈ R.before ++ R.after, PinnedCell first m a b q →
        PinnedCell first res.1 a b q :=
      fun a b q hq hcell => hcell.congr (R.frame hnd hc hs q hq)
    obtain ⟨root₁, hroot₁, hshape', hleaves'⟩ :=
      hnew _ (PinnedCell.fences first res.1) hold hleft hright
    obtain rfl := Option.some.inj (hroot₁.symm.trans hroot')
    -- the first leaf stays the first: the new one stands right of another
    have hsplice : ∃ rest', R.before ++ R.leaf :: c :: R.after = first :: rest' := by
      have heq := R.leaves_eq.symm.trans hleaves
      cases hb : R.before with
      | nil =>
        rw [hb] at heq
        exact ⟨c :: R.after, congrArg (fun p => p :: c :: R.after) (List.cons.inj heq).1⟩
      | cons q before =>
        rw [hb] at heq
        exact ⟨before ++ R.leaf :: c :: R.after,
          congrArg (fun p => p :: (before ++ R.leaf :: c :: R.after)) (List.cons.inj heq).1⟩
    obtain ⟨rest', hrest'⟩ := hsplice
    exact ⟨first, rest', hleaves'.trans hrest', hshape'⟩

theorem Pinned.find (hN : 2 ≤ N) (h : Pinned m d root) (hnd : (root.leaves d).Nodup)
    (hkey : key ≠ ⊤)
    (hop : (key, v) ∈ entriesOf m (root.leaves d)) :
    ∃ p ∈ root.leaves d, XTree.findLeafFrom key d root = .ok p ∧ ∃ u, (key, u) ∈ (m p).entries := by
  obtain ⟨first, rest, hleaves, hshape⟩ := h
  obtain ⟨R⟩ := hshape.route hN Bound.le_ne_top (PinnedCell.fences first m) bot_le
    (lt_top_iff_ne_top.mpr hkey)
  refine ⟨R.leaf, R.mem_leaf, R.found, ?_⟩
  obtain ⟨q, hq, hv⟩ := (mem_entriesOf _).mp hop
  rw [R.leaves_eq, List.mem_append, List.mem_cons] at hq
  cases hq with
  | inl hbefore =>
    -- a copy left of the leaf stands at its upper fence, so the leaf is pinned to the key
    obtain ⟨a', b', hcell, hle⟩ := R.before_le q hbefore
    have heq : R.a = key := le_antisymm R.le ((hcell.1.2 _ hv).2.1.trans hle)
    cases R.holds.2 with
    | inl hfirst =>
      rw [R.leaves_eq] at hleaves hnd
      have hmem : first ∈ R.before := by
        obtain ⟨b, bs, hbs⟩ := List.exists_cons_of_ne_nil (List.ne_nil_of_mem hbefore)
        rw [hbs] at hleaves ⊢
        obtain ⟨rfl, -⟩ := List.cons.inj hleaves
        exact List.mem_cons_self
      exact absurd hfirst.symm
        (ne_of_nodup_middle hnd first (List.mem_append_left _ hmem))
    | inr hpin =>
      obtain ⟨⟨k, u⟩, he, hk⟩ := hpin
      obtain rfl : k = key := hk.trans heq
      exact ⟨u, he⟩
  | inr hafter =>
    cases hafter with
    | inl hself =>
      rw [hself] at hv
      exact ⟨v, hv⟩
    | inr hafter =>
      obtain ⟨a', b', hcell, hge⟩ := R.after_ge q hafter
      exact absurd (hge.trans (hcell.1.2 _ hv).1) (not_le.mpr R.lt)

end Pinned

section Keeps
variable {m m' : Mem N K V} {t : XTree K} {ops : Multiset (K × V)} {key : K} {v : V} {c : Ptr}

theorem Keeps.new : Keeps m XTree.new (0 : Multiset (K × V)) := by
  refine ⟨Or.inl ⟨rfl, rfl⟩, fun root hroot => ?_⟩
  cases hroot

theorem Keeps.congr (h : Keeps m t ops) (heq : ∀ p ∈ t.leaves, m' p = m p) : Keeps m' t ops := by
  refine ⟨h.1.congr heq, fun root hroot => (h.2 root hroot).congr ?_⟩
  rw [← XTree.leaves_of_root hroot]
  exact heq

theorem Keeps.ne_top (h : Keeps m t ops) (hop : (key, v) ∈ ops) : key ≠ ⊤ := by
  cases h.1 with
  | inl hnew =>
    rw [hnew.2] at hop
    exact absurd hop (Multiset.notMem_zero _)
  | inr hroot =>
    obtain ⟨root, -, hinv⟩ := hroot
    rw [← hinv.entries, mem_entriesOf] at hop
    obtain ⟨p, -, he⟩ := hop
    exact (m p).entries_ne_top he

/-- A stored key is found with one of the values that it was inserted with. -/
theorem Keeps.get (hN : 2 ≤ N) (h : Keeps m t ops) (hop : (key, v) ∈ ops) :
    ∃ u, t.get m key = .ok (some u) ∧ (key, u) ∈ ops := by
  have hkey := h.ne_top hop
  cases h.1 with
  | inl hnew =>
    rw [hnew.2] at hop
    exact absurd hop (Multiset.notMem_zero _)
  | inr hroot =>
    obtain ⟨root, hroot, hinv⟩ := hroot
    obtain ⟨p, hp, hfind, u, hu⟩ :=
      (h.2 root hroot).find hN hinv.nodup hkey (hinv.entries ▸ hop)
    have hleaf : t.findLeaf key = .ok (some p) := by
      simp [XTree.findLeaf, hroot, hfind]
    obtain ⟨hsome, hnone⟩ := search_entries (m p) key hkey
    cases hs : (m p).search key with
    | none => exact absurd hu (hnone hs u)
    | some i =>
      refine ⟨(m p).values i, ?_, hinv.mem_entries hp (hsome i hs)⟩
      simp only [XTree.get, hleaf, ok_bind, need_some, hs, XNode.getValueRaw, pure_eq_ok]

variable [StdSort] [Inhabited V]

theorem Keeps.insertCore (hN : 2 ≤ N) (h : Keeps m t ops) (hkey : key ≠ ⊤) (hc : c ∉ t.leaves)
    (hfresh : m c = XNode.new) {res : Mem N K V × XTree K × Bool}
    (hres : XTree.insertCore m t key v (some c) = .ok res) :
    Keeps res.1 res.2.1 ((key, v) ::ₘ ops) ∧ Handed m t key c res := by
  have hirr : ¬ ∀ a : K, ¬ (a ≤ a ∧ a ≠ ⊤) := fun hall => hall key ⟨le_rfl, hkey⟩
  obtain ⟨hbad, hgood⟩ := h.1.insertCore hN Bound.le_ne_top hkey (fun hall => absurd hall hirr) hc
    hfresh v
  have hcol : ¬ t.Collides m key := by
    intro hcol
    rw [hbad hcol] at hres
    cases hres
  obtain ⟨res', hres', hstands, hhanded⟩ := hgood hcol
  obtain rfl := Except.ok.inj (hres'.symm.trans hres)
  refine ⟨⟨hstands, ?_⟩, hhanded⟩
  cases h.1 with
  | inl hnew =>
    obtain ⟨n', hres₁, hinv⟩ := insertCore_new hN Bound.le_ne_top hkey hfresh v
    rw [hnew.1, hres₁] at hres
    obtain rfl := Except.ok.inj hres
    intro root hroot
    obtain rfl := Option.some.inj hroot
    exact ⟨c, [], rfl, hinv.shape, Or.inl rfl⟩
  | inr hroot =>
    obtain ⟨root, hroot, hinv⟩ := hroot
    have htree : t = ⟨t.depth, some root⟩ := by rw [← hroot]
    have hfresh' : ∀ i, (m c).keys.keys i = ⊤ := by
      rw [hfresh]
      exact fun i => rfl
    rw [XTree.leaves_of_root hroot] at hc
    rw [htree] at hres
    exact (h.2 root hroot).insertCore hN hinv.nodup hkey hc hfresh' hres

end Keeps
end XStore.Xkv
