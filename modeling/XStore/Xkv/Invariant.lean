import XStore.Lib.Linked
import XStore.Xkv.Insert

/-! What every insert preserves: the shape of the tree over its leaves, the chain of their
`next` pointers, and the entries they hold. -/
namespace XStore.Xkv
open XStore.Lib
variable {N : ℕ} {K V : Type} [LinearOrder K] [BoundedOrder K]

def entriesOf (m : Mem N K V) (ps : List Ptr) : Multiset (K × V) :=
  (ps.map (fun p => (m p).entries)).sum

/-- A leaf between its fences. -/
def Cell (r : K → K → Prop) (m : Mem N K V) (lo hi : K) (p : Ptr) : Prop :=
  r lo hi ∧ ∀ e ∈ (m p).entries, lo ≤ e.1 ∧ r e.1 hi

/-- The separator that a split of the leaf would export; a leaf with a hole exports none. -/
def leafUp [StdSort] (m : Mem N K V) (p : Ptr) : Option K :=
  if (m p).numKeys = N then (m p).medianKey else none

/-- The tree with root `root` at depth `d` holds the entries `ops`. The last two fields are
about distinct keys, which is what an irreflexive `r` stands for. -/
structure TreeInv (r : K → K → Prop) (m : Mem N K V) (d : ℕ) (root : RawPtr K)
    (ops : Multiset (K × V)) : Prop where
  shape : Shape N (Cell r m) 1 d ⊥ ⊤ root
  nodup : (root.leaves d).Nodup
  linked : Linked (fun p => (m p).next) (root.leaves d)
  entries : entriesOf m (root.leaves d) = ops
  occupied : ∀ p ∈ root.leaves d, 1 ≤ (m p).entries.card
  distinct : (∀ a, ¬ r a a) → (ops.map Prod.fst).Nodup
  half : (∀ a, ¬ r a a) → 1 ≤ d → ∀ p ∈ root.leaves d, N / 2 ≤ (m p).entries.card

section Entries
variable {m m' : Mem N K V} {ps qs : List Ptr} {p : Ptr}

@[simp] theorem entriesOf_nil : entriesOf m [] = 0 := rfl

@[simp] theorem entriesOf_cons : entriesOf m (p :: ps) = (m p).entries + entriesOf m ps := by
  simp [entriesOf]

@[simp] theorem entriesOf_append :
    entriesOf m (ps ++ qs) = entriesOf m ps + entriesOf m qs := by
  simp [entriesOf]

theorem entriesOf_congr (h : ∀ p ∈ ps, m' p = m p) : entriesOf m' ps = entriesOf m ps := by
  unfold entriesOf
  rw [List.map_congr_left (fun p hp => by rw [h p hp])]

theorem mem_entriesOf (e : K × V) : e ∈ entriesOf m ps ↔ ∃ p ∈ ps, e ∈ (m p).entries := by
  induction ps with
  | nil => simp
  | cons p ps ih => simp [ih]

theorem le_entriesOf (hp : p ∈ ps) : (m p).entries ≤ entriesOf m ps := by
  obtain ⟨before, after, rfl⟩ := List.append_of_mem hp
  rw [entriesOf_append, entriesOf_cons, add_left_comm]
  exact Multiset.le_add_right _ _

theorem length_le_entriesOf (h : ∀ p ∈ ps, 1 ≤ (m p).entries.card) :
    ps.length ≤ (entriesOf m ps).card := by
  induction ps with
  | nil => simp
  | cons p ps ih =>
    have hp := h p (by simp)
    have hps := ih (fun q hq => h q (List.mem_cons_of_mem p hq))
    rw [entriesOf_cons, Multiset.card_add, List.length_cons]
    omega

theorem card_entriesOf_le (m : Mem N K V) (ps : List Ptr) :
    (entriesOf m ps).card ≤ N * ps.length := by
  induction ps with
  | nil => simp
  | cons p ps ih =>
    have hle := (m p).card_entries_le
    rw [entriesOf_cons, Multiset.card_add, List.length_cons, Nat.mul_succ]
    omega

theorem numKeys_eq_card (n : XNode N K V) : n.numKeys = n.entries.card := by
  rw [XNode.card_entries]
  exact n.keys.numKeys_eq

theorem keys_injective (n : XNode N K V) (hfull : n.keys.Full)
    (hd : (n.entries.map Prod.fst).Nodup) : Function.Injective n.keys.keys := by
  intro i j hij
  by_contra hne
  have hocc : n.keys.occupied = Finset.univ := by
    ext s
    simp [hfull s]
  rw [XNode.entries, Multiset.map_map, hocc] at hd
  exact hne (Multiset.inj_on_of_nodup_map hd i (Finset.mem_univ i) j (Finset.mem_univ j) hij)

end Entries

theorem Cell.congr {r : K → K → Prop} {m m' : Mem N K V} {lo hi : K} {p : Ptr}
    (h : m' p = m p) (hc : Cell r m lo hi p) : Cell r m' lo hi p :=
  ⟨hc.1, by rw [h]; exact hc.2⟩

namespace TreeInv
variable {r : K → K → Prop} {m m' : Mem N K V} {d : ℕ} {root : RawPtr K}
  {ops : Multiset (K × V)}

/-- Only the leaves of the tree matter. -/
theorem congr (h : TreeInv r m d root ops) (heq : ∀ p ∈ root.leaves d, m' p = m p) :
    TreeInv r m' d root ops where
  shape := h.shape.imp (fun _ _ p hp hc => hc.congr (heq p hp))
  nodup := h.nodup
  linked := h.linked.congr (fun p hp => by simp only [heq p hp])
  entries := by rw [entriesOf_congr heq, h.entries]
  occupied p hp := by rw [heq p hp]; exact h.occupied p hp
  distinct := h.distinct
  half hirr hd p hp := by rw [heq p hp]; exact h.half hirr hd p hp

theorem mem_entries (h : TreeInv r m d root ops) {p : Ptr} (hp : p ∈ root.leaves d) {e : K × V}
    (he : e ∈ (m p).entries) : e ∈ ops := by
  rw [← h.entries, mem_entriesOf]
  exact ⟨p, hp, he⟩

end TreeInv
end XStore.Xkv
