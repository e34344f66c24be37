import XStore.Xkv.XNode
import Mathlib.Algebra.Order.Group.Multiset
import Mathlib.Tactic.Linarith

/-! What an insert does to the leaves. A leaf is read as the multiset of its entries; the
order of the slots is forgotten. -/
namespace XStore.Xkv
open XStore.Lib
variable {N : ℕ} {K V : Type} [LinearOrder K] [BoundedOrder K]

def XNode.entries (n : XNode N K V) : Multiset (K × V) :=
  n.keys.occupied.val.map (fun i => (n.keys.keys i, n.values i))

namespace XNode
variable (n : XNode N K V)

theorem mem_entries (e : K × V) :
    e ∈ n.entries ↔ ∃ i, n.keys.keys i ≠ ⊤ ∧ (n.keys.keys i, n.values i) = e := by
  simp [entries]

theorem entries_ne_top {e : K × V} (h : e ∈ n.entries) : e.1 ≠ ⊤ := by
  obtain ⟨i, hi, rfl⟩ := n.mem_entries e |>.mp h
  exact hi

theorem card_entries : n.entries.card = n.keys.occupied.card := by
  simp [entries]

theorem card_entries_le : n.entries.card ≤ N := by
  rw [card_entries]
  exact (Finset.card_le_univ _).trans (by simp)

theorem full_iff : n.keys.Full ↔ n.entries.card = N := by
  rw [card_entries]
  constructor
  · intro h
    have hu : n.keys.occupied = Finset.univ := by
      ext i
      simp [h i]
    rw [hu, Finset.card_univ, Fintype.card_fin]
  · intro h i
    have hu : n.keys.occupied = Finset.univ := by
      apply Finset.eq_univ_of_card
      rw [h, Fintype.card_fin]
    have hi : i ∈ n.keys.occupied := by rw [hu]; exact Finset.mem_univ i
    simpa using hi

theorem entries_write {i : Fin N} {key : K} (v : V) (hi : n.keys.keys i = ⊤) (hk : key ≠ ⊤) :
    (valueUpdate { n with keys := { n.keys with keys := Function.update n.keys.keys i key } }
      i v).entries = (key, v) ::ₘ n.entries := by
  let n' := valueUpdate
    { n with keys := { n.keys with keys := Function.update n.keys.keys i key } } i v
  have hfree : i ∉ n.keys.occupied := by simp [hi]
  have hocc : n'.keys.occupied = insert i n.keys.occupied := by
    ext j
    by_cases hj : j = i
    · subst j
      simp [n', valueUpdate, hk]
    · simp [n', valueUpdate, hj]
  change n'.keys.occupied.val.map (fun j => (n'.keys.keys j, n'.values j)) = _
  rw [hocc, Finset.insert_val_of_notMem hfree, Multiset.map_cons]
  congr 1
  · simp [n', valueUpdate]
  · apply Multiset.map_congr rfl
    intro j hj
    have hji : j ≠ i := by
      rintro rfl
      exact hfree hj
    simp [n', valueUpdate, Function.update_of_ne hji]

theorem entries_clear {i : Fin N} (hi : n.keys.keys i ≠ ⊤) :
    (n.keys.keys i, n.values i) ::ₘ (n.clear i).entries = n.entries := by
  have hocc : (n.clear i).keys.occupied = n.keys.occupied.erase i := by
    ext j
    by_cases hj : j = i
    · subst j
      simp [clear, XNodeKeys.clear]
    · simp [clear, XNodeKeys.clear, hj]
  have hmem : i ∈ n.keys.occupied := by simpa using hi
  have hmap : (n.clear i).entries =
      (n.keys.occupied.erase i).val.map (fun j => (n.keys.keys j, n.values j)) := by
    change (n.clear i).keys.occupied.val.map _ = _
    rw [hocc]
    apply Multiset.map_congr rfl
    intro j hj
    have hji : j ≠ i := Finset.ne_of_mem_erase (Finset.mem_val.mp hj)
    simp [clear, XNodeKeys.clear, Function.update_of_ne hji]
  rw [hmap, Finset.erase_val, ← Multiset.map_cons (fun j => (n.keys.keys j, n.values j)),
    Multiset.cons_erase (by simpa using hmem)]
  rfl

end XNode

/-- `n'` is `n` with one more entry; what was in use stays where it was. -/
structure Added (n n' : XNode N K V) (key : K) (v : V) : Prop where
  entries : n'.entries = (key, v) ::ₘ n.entries
  kept : ∀ i, n.keys.keys i ≠ ⊤ → n'.keys.keys i = n.keys.keys i
  next : n'.next = n.next
  incarnation : n'.keys.incarnation = n.keys.incarnation

theorem XNode.addEntry_spec (n : XNode N K V) (key : K) (v : V) (hfree : n.entries.card < N)
    (hk : key ≠ ⊤) : ∃ n', n.addEntry key v = some n' ∧ Added n n' key v := by
  unfold addEntry
  cases h : n.keys.addKey key with
  | none =>
    have hfull := n.full_iff.mp ((n.keys.addKey_none_iff key).mp h)
    omega
  | some r =>
    obtain ⟨ks, i⟩ := r
    obtain ⟨hi, rfl⟩ := n.keys.addKey_some h
    refine ⟨_, rfl, n.entries_write v hi hk, ?_, rfl, rfl⟩
    intro j hj
    have hji : j ≠ i := by
      rintro rfl
      exact hj hi
    simp [valueUpdate, Function.update_of_ne hji]

theorem XNode.addEntry_none_iff (n : XNode N K V) (key : K) (v : V) :
    n.addEntry key v = none ↔ n.entries.card = N := by
  rw [← n.full_iff, ← n.keys.addKey_none_iff key]
  unfold addEntry
  split <;> simp_all

theorem rawInsertNull_spec (m : Mem N K V) (p : Ptr) (key : K) (v : V)
    (hfree : (m p).entries.card < N) (hk : key ≠ ⊤) :
    ∃ n', rawInsertNull m p key v = .ok (Function.update m p n', false) ∧
      Added (m p) n' key v := by
  obtain ⟨n', h, hadd⟩ := (m p).addEntry_spec key v hfree hk
  exact ⟨n', by simp [rawInsertNull, h], hadd⟩

/-- What moving the slots `is` does to the split leaf `t` and its candidate `c`. -/
structure Moved (pivot : K) (is : List (Fin N)) (t t' c c' : XNode N K V) : Prop where
  total : t'.entries + c'.entries = t.entries + c.entries
  cleared : ∀ i ∈ is, t'.keys.keys i ≤ pivot ∨ t'.keys.keys i = ⊤
  old : ∀ i, t'.keys.keys i ≠ ⊤ → t'.keys.keys i = t.keys.keys i
  low : ∀ i, t.keys.keys i ≤ pivot → t'.keys.keys i = t.keys.keys i
  high : ∀ e ∈ c'.entries, e ∈ c.entries ∨ pivot < e.1
  kept : ∀ i, c.keys.keys i ≠ ⊤ → c'.keys.keys i = c.keys.keys i
  next : t'.next = t.next ∧ c'.next = c.next
  incarnation : t'.keys.incarnation = t.keys.incarnation ∧
    c'.keys.incarnation = c.keys.incarnation

theorem Moved.refl (pivot : K) (t c : XNode N K V) : Moved pivot [] t t c c :=
  ⟨rfl, by simp, fun _ _ => rfl, fun _ _ => rfl, fun _ h => Or.inl h, fun _ _ => rfl,
    ⟨rfl, rfl⟩, ⟨rfl, rfl⟩⟩

/-- One turn of the loop. The candidate has a hole: the two leaves together hold at most `N`
entries and the slot that moves holds one of them. -/
theorem moveKey_spec (pivot : K) (this c : Ptr) (hne : this ≠ c) (m : Mem N K V) (i : Fin N)
    (hroom : (m this).entries.card + (m c).entries.card ≤ N) :
    ∃ t' c', moveKey pivot this c m i =
        .ok (Function.update (Function.update m this t') c c') ∧
      Moved pivot [i] (m this) t' (m c) c' := by
  by_cases hmove : (m this).keys.keys i ≠ ⊤ ∧ pivot < (m this).keys.keys i
  · obtain ⟨hi, hgt⟩ := hmove
    have hclear := (m this).entries_clear hi
    have hcard := congrArg Multiset.card hclear
    rw [Multiset.card_cons] at hcard
    obtain ⟨c', hc', hadd⟩ := rawInsertNull_spec m c ((m this).keys.keys i)
      ((m this).values i) (by omega) hi
    refine ⟨(m this).clear i, c', ?_, ?_⟩
    · have hcond : (KeyType.ne ((m this).getKey i) KeyType.invalid &&
          KeyType.gt ((m this).getKey i) pivot) = true := by
        simp [XNode.getKey, XNodeKeys.getKey, hi, hgt]
      unfold moveKey
      rw [if_pos hcond]
      change (rawInsertNull m c ((m this).keys.keys i) ((m this).values i) >>= _) = _
      rw [hc']
      simp [Function.update_of_ne hne, Function.update_comm hne]
    · refine ⟨?_, ?_, ?_, ?_, ?_, hadd.kept, ⟨rfl, hadd.next⟩, ⟨rfl, hadd.incarnation⟩⟩
      · rw [hadd.entries, Multiset.add_cons, ← Multiset.cons_add, hclear]
      · intro j hj
        obtain rfl := List.mem_singleton.mp hj
        exact Or.inr (by simp [XNode.clear, XNodeKeys.clear])
      · intro j hj
        by_cases hji : j = i
        · subst j
          simp [XNode.clear, XNodeKeys.clear] at hj
        · simp [XNode.clear, XNodeKeys.clear, Function.update_of_ne hji]
      · intro j hj
        have hji : j ≠ i := by
          rintro rfl
          exact absurd hgt (not_lt.mpr hj)
        simp [XNode.clear, XNodeKeys.clear, Function.update_of_ne hji]
      · intro e he
        rw [hadd.entries, Multiset.mem_cons] at he
        rcases he with rfl | he
        · exact Or.inr hgt
        · exact Or.inl he
  · refine ⟨m this, m c, ?_, ?_⟩
    · have hcond : (KeyType.ne ((m this).getKey i) KeyType.invalid &&
          KeyType.gt ((m this).getKey i) pivot) = false := by
        by_contra hc
        simp [XNode.getKey, XNodeKeys.getKey] at hc
        exact hmove hc
      unfold moveKey
      rw [if_neg (by rw [hcond]; exact Bool.false_ne_true)]
      simp
    · have h := Moved.refl pivot (m this) (m c)
      refine { h with cleared := ?_ }
      intro j hj
      obtain rfl := List.mem_singleton.mp hj
      by_cases htop : (m this).keys.keys j = ⊤
      · exact Or.inr htop
      · exact Or.inl (le_of_not_gt (fun hgt => hmove ⟨htop, hgt⟩))

theorem Moved.trans {pivot : K} {is js : List (Fin N)} {t t' t'' c c' c'' : XNode N K V}
    (h : Moved pivot is t t' c c') (h' : Moved pivot js t' t'' c' c'') :
    Moved pivot (is ++ js) t t'' c c'' := by
  refine ⟨h'.total.trans h.total, ?_, ?_, ?_, ?_, ?_, ?_, ?_⟩
  · intro i hi
    by_cases htop : t''.keys.keys i = ⊤
    · exact Or.inr htop
    · cases List.mem_append.mp hi with
      | inl hi =>
        have hsame := h'.old i htop
        rw [hsame]
        exact h.cleared i hi
      | inr hi => exact h'.cleared i hi
  · intro i hi
    have hsame := h'.old i hi
    rw [hsame]
    exact h.old i (hsame ▸ hi)
  · intro i hi
    have hsame := h.low i hi
    rw [h'.low i (hsame ▸ hi), hsame]
  · intro e he
    cases h'.high e he with
    | inl he => exact h.high e he
    | inr he => exact Or.inr he
  · intro i hi
    have hsame := h.kept i hi
    rw [h'.kept i (hsame ▸ hi), hsame]
  · exact ⟨h'.next.1.trans h.next.1, h'.next.2.trans h.next.2⟩
  · exact ⟨h'.incarnation.1.trans h.incarnation.1, h'.incarnation.2.trans h.incarnation.2⟩

/-- The whole loop, by induction on the slots still to visit. -/
theorem moveKeys_spec (pivot : K) (this c : Ptr) (hne : this ≠ c) (is : List (Fin N))
    (m : Mem N K V) (hroom : (m this).entries.card + (m c).entries.card ≤ N) :
    ∃ t' c', is.foldlM (moveKey pivot this c) m =
        .ok (Function.update (Function.update m this t') c c') ∧
      Moved pivot is (m this) t' (m c) c' := by
  induction is generalizing m with
  | nil =>
    exact ⟨m this, m c, by simp, Moved.refl pivot _ _⟩
  | cons i is ih =>
    obtain ⟨t₁, c₁, h₁, hm₁⟩ := moveKey_spec pivot this c hne m i hroom
    have htotal := congrArg Multiset.card hm₁.total
    simp only [Multiset.card_add] at htotal
    obtain ⟨t₂, c₂, h₂, hm₂⟩ := ih (Function.update (Function.update m this t₁) c c₁)
      (by simp [Function.update_of_ne hne]; omega)
    simp only [Function.update_self, Function.update_of_ne hne] at hm₂
    refine ⟨t₂, c₂, ?_, hm₁.trans hm₂⟩
    rw [List.foldlM_cons, h₁, ok_bind, h₂]
    simp [Function.update_comm hne]

theorem XNode.addEntry_fresh (n : XNode N K V) (hN : 0 < N) (key : K) (v : V)
    (hfresh : ∀ i, n.keys.keys i = ⊤) :
    ∃ n', n.addEntry key v = some n' ∧ n'.keys.keys ⟨0, hN⟩ = key := by
  refine ⟨_, by simp only [addEntry, n.keys.addKey_fresh hN key hfresh]; rfl, ?_⟩
  simp [valueUpdate]

theorem XNode.entries_fresh (n : XNode N K V) (hfresh : ∀ i, n.keys.keys i = ⊤) :
    n.entries = 0 := by
  have hocc : n.keys.occupied = ∅ := by
    ext i
    simp [hfresh i]
  simp [entries, hocc]

/-- The key that a split of this leaf would export: the key in its median slot. -/
def XNode.medianKey [StdSort] (n : XNode N K V) : Option K :=
  n.keys.findMedianKey.map n.keys.keys

/-- Occupied slots at or below the pivot stay, so a low count of slots bounds the entries. -/
theorem card_low_le {t t' : XNode N K V} {pivot : K} (i : Fin N)
    (hlow : ∀ j, j ≠ i → t.keys.keys j ≤ pivot → t'.keys.keys j = t.keys.keys j)
    (hfull : t.keys.Full) (hi : t.keys.keys i = pivot) :
    (Finset.univ.filter (fun j => t.keys.keys j ≤ pivot)).card ≤ t'.entries.card + 1 := by
  rw [XNode.card_entries, ← Finset.card_erase_add_one
    (by simp [hi] : i ∈ Finset.univ.filter (fun j => t.keys.keys j ≤ pivot))]
  apply Nat.add_le_add_right
  apply Finset.card_le_card
  intro j hj
  obtain ⟨hji, hj⟩ := Finset.mem_erase.mp hj
  have hle : t.keys.keys j ≤ pivot := by simpa using hj
  simpa [hlow j hji hle] using hfull j

/-- With distinct keys every slot that stays is strictly below the pivot. -/
theorem card_high_le {t t' : XNode N K V} {pivot : K} (i : Fin N)
    (hold : ∀ j, t'.keys.keys j ≠ ⊤ → j ≠ i ∧ t.keys.keys j ≤ pivot)
    (hinj : Function.Injective t.keys.keys) (hi : t.keys.keys i = pivot) :
    t'.entries.card + (Finset.univ.filter (fun j => pivot ≤ t.keys.keys j)).card ≤ N := by
  have hdisj : Disjoint t'.keys.occupied
      (Finset.univ.filter (fun j => pivot ≤ t.keys.keys j)) := by
    rw [Finset.disjoint_left]
    intro j hj hge
    obtain ⟨hji, hle⟩ := hold j (by simpa using hj)
    have heq : t.keys.keys j = t.keys.keys i := by
      rw [hi]
      exact le_antisymm hle (by simpa using hge)
    exact hji (hinj heq)
  rw [XNode.card_entries, ← Finset.card_union_of_disjoint hdisj]
  exact (Finset.card_le_univ _).trans (by simp)

/-- The full leaf `t` and the fresh candidate after the keys were moved: `t'` and `c'`. -/
structure Halves (t t' cand c' : XNode N K V) (pivot : K) : Prop where
  entries : t'.entries + c'.entries = t.entries
  left_le : ∀ e ∈ t'.entries, e.1 ≤ pivot
  right_ge : ∀ e ∈ c'.entries, pivot ≤ e.1
  first : ∃ i : Fin N, i.val = 0 ∧ c'.keys.keys i = pivot
  left_count : N / 2 ≤ t'.entries.card
  right_count : Function.Injective t.keys.keys → N / 2 ≤ c'.entries.card
  next : t'.next = t.next ∧ c'.next = cand.next
  incarnation : t'.keys.incarnation = t.keys.incarnation + 1 ∧
    c'.keys.incarnation = cand.keys.incarnation

section Split
variable [StdSort] (m : Mem N K V) (this c : Ptr)

theorem movePivot_spec (hN : 0 < N) (hne : this ≠ c) (i : Fin N)
    (hi : (m this).keys.keys i ≠ ⊤) (hfresh : ∀ j, (m c).keys.keys j = ⊤)
    (hmed : (m this).keys.findMedianKey = some i) :
    ∃ c₁, c₁.entries = {((m this).keys.keys i, (m this).values i)} ∧
      c₁.keys.keys ⟨0, hN⟩ = (m this).keys.keys i ∧ c₁.next = (m c).next ∧
      c₁.keys.incarnation = (m c).keys.incarnation ∧
      moveUpperKeys m this c = (do
        let m' ← (List.finRange N).foldlM (moveKey ((m this).keys.keys i) this c)
          (Function.update (Function.update m this ((m this).incIncarnation.clear i)) c c₁)
        pure (m', (m this).keys.keys i)) := by
  have hzero := (m c).entries_fresh hfresh
  obtain ⟨c₁, hc₁, hfirst⟩ :=
    (m c).addEntry_fresh hN ((m this).keys.keys i) ((m this).values i) hfresh
  obtain ⟨c₂, hc₂, hadd⟩ := (m c).addEntry_spec ((m this).keys.keys i) ((m this).values i)
    (by rw [hzero]; exact hN) hi
  obtain rfl : c₁ = c₂ := Option.some.inj (hc₁.symm.trans hc₂)
  refine ⟨c₁, ?_, hfirst, hadd.next, hadd.incarnation, ?_⟩
  · rw [hadd.entries, hzero]
    rfl
  · have hinc : (m this).incIncarnation.keys.findMedianKey = some i := hmed
    have hc : Function.update m this (m this).incIncarnation c = m c :=
      Function.update_of_ne hne.symm _ _
    have hins : rawInsertNull (Function.update m this (m this).incIncarnation) c
        ((m this).keys.keys i) ((m this).values i) =
        .ok (Function.update (Function.update m this (m this).incIncarnation) c c₁, false) := by
      simp only [rawInsertNull, hc, hc₁]
    simp only [moveUpperKeys, Function.update_self, hinc, need_some, ok_bind, XNode.getKey_eq,
      XNode.getValueRaw_eq, XNode.keys_incIncarnation, XNode.values_incIncarnation, hins,
      Bool.not_false, ensure_true, Function.update_comm hne, Function.update_idem]

theorem moveUpperKeys_spec (hN : 2 ≤ N) (hne : this ≠ c) (hfull : (m this).entries.card = N)
    (hfresh : ∀ i, (m c).keys.keys i = ⊤) :
    ∃ t' c' pivot, (m this).medianKey = some pivot ∧
      moveUpperKeys m this c =
        .ok (Function.update (Function.update m this t') c c', pivot) ∧
      Halves (m this) t' (m c) c' pivot := by
  have hpos : 0 < N := by omega
  have hslots := (m this).full_iff.mpr hfull
  obtain ⟨i, hmed, hlow, hhigh⟩ := (m this).keys.findMedianKey_spec hpos
  have hi := hslots i
  obtain ⟨c₁, hent₁, hfirst₁, hnext₁, hinc₁, heq⟩ :=
    movePivot_spec m this c hpos hne i hi hfresh hmed
  have hclear := (m this).incIncarnation.entries_clear hi
  set t₀ := (m this).incIncarnation.clear i with ht₀
  set pivot := (m this).keys.keys i with hpivot
  have hkeys₀ : ∀ j, j ≠ i → t₀.keys.keys j = (m this).keys.keys j := by
    intro j hji
    simp [ht₀, XNode.clear, XNodeKeys.clear, XNode.incIncarnation, Function.update_of_ne hji]
  have hcard₀ : t₀.entries.card + 1 = N :=
    ((Multiset.card_cons _ _).symm.trans (congrArg Multiset.card hclear)).trans hfull
  obtain ⟨t', c', hloop, hmv⟩ := moveKeys_spec pivot this c hne (List.finRange N)
    (Function.update (Function.update m this t₀) c c₁)
    (by simp [Function.update_of_ne hne, hent₁]; omega)
  simp only [Function.update_self, Function.update_of_ne hne] at hmv
  have hstay : ∀ j, t'.keys.keys j ≠ ⊤ → t'.keys.keys j ≤ pivot :=
    fun j hj => (hmv.cleared j (List.mem_finRange j)).resolve_right hj
  -- the slots that still hold a key: not the pivot's, and none above the pivot
  have hold : ∀ j, t'.keys.keys j ≠ ⊤ → j ≠ i ∧ (m this).keys.keys j ≤ pivot := by
    intro j hj
    have hsame := hmv.old j hj
    have hji : j ≠ i := by
      rintro rfl
      exact hj (hsame.trans (by simp [ht₀, XNode.clear, XNodeKeys.clear]))
    have hle := hstay j hj
    rw [hsame, hkeys₀ j hji] at hle
    exact ⟨hji, hle⟩
  have hkeep : ∀ j, j ≠ i → (m this).keys.keys j ≤ pivot →
      t'.keys.keys j = (m this).keys.keys j := by
    intro j hji hle
    rw [hmv.low j (by rw [hkeys₀ j hji]; exact hle), hkeys₀ j hji]
  have htotal : t'.entries + c'.entries = (m this).entries := by
    rw [hmv.total, hent₁, add_comm, Multiset.singleton_add]
    exact hclear
  refine ⟨t', c', pivot, by simp [XNode.medianKey, hmed, hpivot], ?_, ?_⟩
  · rw [heq, hloop]
    simp [Function.update_comm hne]
  · refine ⟨htotal, ?_, ?_, ⟨⟨0, hpos⟩, rfl, ?_⟩, ?_, ?_, ?_, ?_⟩
    · intro e he
      obtain ⟨j, hj, rfl⟩ := (t'.mem_entries e).mp he
      exact hstay j hj
    · intro e he
      cases hmv.high e he with
      | inl he =>
        rw [hent₁, Multiset.mem_singleton] at he
        rw [he]
      | inr he => exact he.le
    · rw [hmv.kept ⟨0, hpos⟩ (by rw [hfirst₁]; exact hi), hfirst₁]
    · have hcard := card_low_le i hkeep hslots rfl
      omega
    · intro hinj
      have hcard := card_high_le i hold hinj rfl
      have hsum := (Multiset.card_add _ _).symm.trans (congrArg Multiset.card htotal)
      omega
    · exact ⟨hmv.next.1, hmv.next.2.trans hnext₁⟩
    · exact ⟨hmv.incarnation.1, hmv.incarnation.2.trans hinc₁⟩

structure SplitInto (key : K) (v : V) (c : Ptr) (t t' cand c' : XNode N K V) (pivot : K) :
    Prop where
  entries : t'.entries + c'.entries = (key, v) ::ₘ t.entries
  left_le : ∀ e ∈ t'.entries, e.1 ≤ pivot
  right_ge : ∀ e ∈ c'.entries, pivot ≤ e.1
  median : t.medianKey = some pivot
  first : c'.firstKey = .ok pivot
  pivot_mem : ∃ w, (pivot, w) ∈ c'.entries
  left_count : N / 2 ≤ t'.entries.card
  right_count : Function.Injective t.keys.keys → N / 2 ≤ c'.entries.card
  next : t'.next = some c ∧ c'.next = t.next
  incarnation : t'.keys.incarnation = t.keys.incarnation + 1 ∧
    c'.keys.incarnation = cand.keys.incarnation

theorem rawInsert_room (key : K) (v : V)
    (cand : Option Ptr) (hroom : (m this).entries.card < N) (hk : key ≠ ⊤) :
    ∃ n', rawInsert m this key v cand = .ok (Function.update m this n', false) ∧
      Added (m this) n' key v := by
  obtain ⟨n', h, hadd⟩ := (m this).addEntry_spec key v hroom hk
  exact ⟨n', by simp [rawInsert, h], hadd⟩

/-- What step 4 and the relinking leave: the halves `t₁`, `c₁` with the new entry in one of
them and the candidate spliced behind the split leaf. -/
theorem Halves.finish {t t₁ cand c₁ t₂ c₂ : XNode N K V} {pivot key : K} {v : V}
    (hh : Halves t t₁ cand c₁ pivot) (hmed : t.medianKey = some pivot) (hpiv : pivot ≠ ⊤)
    (hadd : Added t₁ t₂ key v ∧ key ≤ pivot ∧ c₂ = c₁ ∨
      Added c₁ c₂ key v ∧ pivot < key ∧ t₂ = t₁) :
    SplitInto key v c t { t₂ with next := some c } cand { c₂ with next := t₂.next } pivot := by
  obtain ⟨i₀, hi₀, hfirst⟩ := hh.first
  have hfirst₂ : c₂.keys.keys i₀ = pivot := by
    rcases hadd with ⟨-, -, rfl⟩ | ⟨hadd, -, -⟩
    · exact hfirst
    · rw [hadd.kept i₀ (by rw [hfirst]; exact hpiv), hfirst]
  have hpos : 0 < N := i₀.pos
  obtain rfl : i₀ = ⟨0, hpos⟩ := Fin.ext hi₀
  refine ⟨?_, ?_, ?_, hmed, ?_, ?_, ?_, ?_, ?_, ?_⟩
  · change t₂.entries + c₂.entries = _
    rcases hadd with ⟨hadd, -, rfl⟩ | ⟨hadd, -, rfl⟩
    · rw [hadd.entries, Multiset.cons_add, hh.entries]
    · rw [hadd.entries, Multiset.add_cons, hh.entries]
  · intro e he
    change e ∈ t₂.entries at he
    rcases hadd with ⟨hadd, hle, -⟩ | ⟨-, -, rfl⟩
    · rw [hadd.entries, Multiset.mem_cons] at he
      rcases he with rfl | he
      · exact hle
      · exact hh.left_le e he
    · exact hh.left_le e he
  · intro e he
    change e ∈ c₂.entries at he
    rcases hadd with ⟨-, -, rfl⟩ | ⟨hadd, hgt, -⟩
    · exact hh.right_ge e he
    · rw [hadd.entries, Multiset.mem_cons] at he
      rcases he with rfl | he
      · exact hgt.le
      · exact hh.right_ge e he
  · change XNode.firstKey c₂ = _
    simp [XNode.firstKey, hpos, hfirst₂]
  · exact ⟨_, (c₂.mem_entries _).mpr ⟨⟨0, hpos⟩, by rw [hfirst₂]; exact hpiv,
      by rw [hfirst₂]⟩⟩
  · change N / 2 ≤ t₂.entries.card
    have hcount := hh.left_count
    rcases hadd with ⟨hadd, -, -⟩ | ⟨-, -, rfl⟩
    · rw [hadd.entries, Multiset.card_cons]
      omega
    · exact hcount
  · intro hinj
    change N / 2 ≤ c₂.entries.card
    have hcount := hh.right_count hinj
    rcases hadd with ⟨-, -, rfl⟩ | ⟨hadd, -, -⟩
    · exact hcount
    · rw [hadd.entries, Multiset.card_cons]
      omega
  · refine ⟨rfl, ?_⟩
    change t₂.next = _
    rcases hadd with ⟨hadd, -, -⟩ | ⟨-, -, rfl⟩
    · exact hadd.next.trans hh.next.1
    · exact hh.next.1
  · rcases hadd with ⟨hadd, -, rfl⟩ | ⟨hadd, -, rfl⟩
    · exact ⟨hadd.incarnation.trans hh.incarnation.1, hh.incarnation.2⟩
    · exact ⟨hh.incarnation.1, hadd.incarnation.trans hh.incarnation.2⟩

theorem XNode.medianKey_ne_top (n : XNode N K V) {pivot : K} (hfull : n.keys.Full)
    (hmed : n.medianKey = some pivot) : pivot ≠ ⊤ := by
  obtain ⟨i, -, rfl⟩ := Option.map_eq_some_iff.mp hmed
  exact hfull i

/-- Step 4: one of the two halves takes the new key. Both have room for it: the pivot stands
on one side and at least `N/2` other keys on the other. -/
theorem rawInsert_split (hN : 2 ≤ N) (key : K) (v : V) (hne : this ≠ c)
    (hfull : (m this).entries.card = N) (hfresh : ∀ i, (m c).keys.keys i = ⊤) (hk : key ≠ ⊤) :
    ∃ t' c' pivot, rawInsert m this key v (some c) =
        .ok (Function.update (Function.update m this t') c c', true) ∧
      SplitInto key v c (m this) t' (m c) c' pivot := by
  have hnone := ((m this).addEntry_none_iff key v).mpr hfull
  obtain ⟨t₁, c₁, pivot, hmed, heq, hh⟩ := moveUpperKeys_spec m this c hN hne hfull hfresh
  have hpiv := (m this).medianKey_ne_top ((m this).full_iff.mpr hfull) hmed
  have hsum := (Multiset.card_add _ _).symm.trans (congrArg Multiset.card hh.entries)
  have hleft := hh.left_count
  have hc₁ : 1 ≤ c₁.entries.card := by
    obtain ⟨i₀, -, hfirst⟩ := hh.first
    exact Multiset.card_pos_iff_exists_mem.mpr
      ⟨_, (c₁.mem_entries _).mpr ⟨i₀, by rw [hfirst]; exact hpiv, rfl⟩⟩
  let m₁ : Mem N K V := Function.update (Function.update m this t₁) c c₁
  have hm₁t : m₁ this = t₁ := by simp [m₁, Function.update_of_ne hne]
  have hm₁c : m₁ c = c₁ := by simp [m₁]
  by_cases hgt : pivot < key
  · obtain ⟨c₂, hc₂, hadd⟩ := rawInsertNull_spec m₁ c key v (by rw [hm₁c]; omega) hk
    rw [hm₁c] at hadd
    refine ⟨_, _, pivot, ?_, hh.finish c hmed hpiv (Or.inr ⟨hadd, hgt, rfl⟩)⟩
    simp only [rawInsert, hnone, need_some, ok_bind, heq, KeyType.gt_ofOrder, hgt,
      decide_true, if_true, hc₂, pure_eq_ok, m₁]
    simp [Function.update_of_ne hne, Function.update_comm hne]
  · obtain ⟨t₂, ht₂, hadd⟩ := rawInsertNull_spec m₁ this key v (by rw [hm₁t]; omega) hk
    rw [hm₁t] at hadd
    refine ⟨_, _, pivot, ?_, hh.finish c hmed hpiv (Or.inl ⟨hadd, le_of_not_gt hgt, rfl⟩)⟩
    simp only [rawInsert, hnone, need_some, ok_bind, heq, KeyType.gt_ofOrder, hgt,
      decide_false, Bool.false_eq_true, if_false, ht₂, pure_eq_ok, m₁]
    simp [Function.update_of_ne hne.symm, Function.update_comm hne]

end Split

section Distinct

theorem XNode.keys_nodup (n : XNode N K V) (hinj : Function.Injective n.keys.keys) :
    (n.entries.map Prod.fst).Nodup := by
  unfold entries
  rw [Multiset.map_map]
  exact n.keys.occupied.nodup.map hinj

/-- An insert of a new key into a full leaf, from the memory `m` to the memory `m'`. -/
structure SplitAt [StdSort] (pivot key : K) (v : V) (this c : Ptr) (m m' : Mem N K V) : Prop where
  median : (m this).medianKey = some pivot
  first : (m' c).firstKey = .ok pivot
  left_lt : ∀ e ∈ (m' this).entries, e.1 < pivot
  right_ge : ∀ e ∈ (m' c).entries, pivot ≤ e.1
  entries : (m' this).entries + (m' c).entries = (key, v) ::ₘ (m this).entries
  keys_nodup : (((m' this).entries + (m' c).entries).map Prod.fst).Nodup
  incarnation : (m' this).keys.incarnation = (m this).keys.incarnation + 1
  next : (m' this).next = some c ∧ (m' c).next = (m this).next
  others : ∀ p, p ≠ this → p ≠ c → m' p = m p

/-- The pivot's only entry went to the candidate, so nothing equal to it stays. -/
theorem SplitInto.left_lt [StdSort] {t t' cand c' : XNode N K V} {c : Ptr} {pivot key : K} {v : V}
    (h : SplitInto key v c t t' cand c' pivot)
    (hnodup : ((t'.entries + c'.entries).map Prod.fst).Nodup) : ∀ e ∈ t'.entries, e.1 < pivot := by
  rw [Multiset.map_add, Multiset.nodup_add] at hnodup
  obtain ⟨-, -, hdisj⟩ := hnodup
  obtain ⟨w, hw⟩ := h.pivot_mem
  intro e he
  apply lt_of_le_of_ne (h.left_le e he)
  intro heq
  have hleft := Multiset.mem_map_of_mem Prod.fst he
  have hright := Multiset.mem_map_of_mem Prod.fst hw
  rw [heq] at hleft
  exact Multiset.disjoint_left.mp hdisj hleft hright

/-- A full leaf of distinct keys and a fresh candidate: the insert of a new key splits the leaf
strictly below the pivot, and none of the inserts inside it stops. -/
theorem rawInsert_distinct [StdSort] (hN : 2 ≤ N) (m : Mem N K V) (this c : Ptr) (key : K) (v : V)
    (hfull : (m this).keys.Full) (hinj : Function.Injective (m this).keys.keys)
    (hnew : ∀ i, (m this).keys.keys i ≠ key) (hk : key ≠ ⊤)
    (hfresh : ∀ i, (m c).keys.keys i = ⊤) :
    ∃ m' pivot, rawInsert m this key v (some c) = .ok (m', true) ∧
      SplitAt pivot key v this c m m' := by
  have hne : this ≠ c := by
    rintro rfl
    exact hfull ⟨0, by omega⟩ (hfresh _)
  obtain ⟨t', c', pivot, hins, h⟩ :=
    rawInsert_split m this c hN key v hne ((m this).full_iff.mp hfull) hfresh hk
  have hnodup : ((t'.entries + c'.entries).map Prod.fst).Nodup := by
    rw [h.entries, Multiset.map_cons, Multiset.nodup_cons]
    refine ⟨?_, (m this).keys_nodup hinj⟩
    intro hmem
    obtain ⟨e, he, heq⟩ := Multiset.mem_map.mp hmem
    obtain ⟨i, -, rfl⟩ := (m this).mem_entries e |>.mp he
    exact hnew i heq
  refine ⟨_, pivot, hins, ?_⟩
  have hthis : Function.update (Function.update m this t') c c' this = t' := by
    simp [Function.update_of_ne hne]
  have hcand : Function.update (Function.update m this t') c c' c = c' :=
    Function.update_self _ _ _
  constructor
  · exact h.median
  · rw [hcand]
    exact h.first
  · rw [hthis]
    exact h.left_lt hnodup
  · rw [hcand]
    exact h.right_ge
  · rw [hthis, hcand]
    exact h.entries
  · rw [hthis, hcand]
    exact hnodup
  · rw [hthis]
    exact h.incarnation.1
  · rw [hthis, hcand]
    exact h.next
  · intro p hp hpc
    rw [Function.update_of_ne hpc, Function.update_of_ne hp]

theorem rawInsert_distinct_two :
    letI := insertionStdSort
    letI leaf : XNode 2 XKey ℕ := ⟨⟨fun i => if i = 0 then 5 else 3, 7⟩, fun i => i.val, some 9⟩
    ∃ m' pivot, rawInsert (Function.update (fun _ => XNode.new) 0 leaf) 0 4 40 (some 1) =
        .ok (m', true) ∧
      SplitAt pivot 4 40 0 1 (Function.update (fun _ => XNode.new) 0 leaf) m' := by
  let : StdSort := insertionStdSort
  exact rawInsert_distinct (le_refl 2) _ 0 1 4 40 (by unfold XNodeKeys.Full; decide)
    (by unfold Function.Injective; decide) (by decide) (by decide) (by decide)

end Distinct
end XStore.Xkv
