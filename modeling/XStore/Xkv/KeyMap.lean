import XStore.Lib.Related
import XStore.Xkv.Run

/-! The tree code over a key class whose operators agree with an order on the keys that are used.
Such keys are the image of an ordered key type, and the code does the same on both sides. -/
namespace XStore.Xkv
open XStore.Lib
variable {N : ℕ} {K₁ K V C C' : Type}

def XNodeKeys.map (φ : K₁ → K) (n : XNodeKeys N K₁) : XNodeKeys N K where
  keys i := φ (n.keys i)
  incarnation := n.incarnation

def XNode.map (φ : K₁ → K) (n : XNode N K₁ V) : XNode N K V where
  keys := n.keys.map φ
  values := n.values
  next := n.next

def TreeInner.map (φ : K₁ → K) (f : C → C') (n : TreeInner K₁ C) : TreeInner K C' where
  keys := n.keys.map φ
  childrens := n.childrens.map f
  upKey := φ n.upKey

mutual

def RawPtr.map (φ : K₁ → K) : RawPtr K₁ → RawPtr K
  | .leaf p => .leaf p
  | .inner n => .inner (mapInner φ n)

def mapInner (φ : K₁ → K) : TreeInner K₁ (RawPtr K₁) → TreeInner K (RawPtr K)
  | ⟨ks, cs, up⟩ => ⟨ks.map φ, mapChildrens φ cs, φ up⟩

def mapChildrens (φ : K₁ → K) : List (RawPtr K₁) → List (RawPtr K)
  | [] => []
  | c :: cs => c.map φ :: mapChildrens φ cs

end

theorem mapChildrens_eq (φ : K₁ → K) (cs : List (RawPtr K₁)) :
    mapChildrens φ cs = cs.map (RawPtr.map φ) := by
  induction cs with
  | nil => rfl
  | cons c cs ih => rw [mapChildrens, ih, List.map_cons]

@[simp] theorem RawPtr.map_leaf (φ : K₁ → K) (p : Ptr) : (leaf p).map φ = leaf p := rfl

@[simp] theorem RawPtr.map_inner (φ : K₁ → K) (n : TreeInner K₁ (RawPtr K₁)) :
    (inner n).map φ = inner (n.map φ (RawPtr.map φ)) := by
  obtain ⟨ks, cs, up⟩ := n
  simp only [RawPtr.map, mapInner, TreeInner.map, mapChildrens_eq]

def XTree.map (φ : K₁ → K) (t : XTree K₁) : XTree K where
  depth := t.depth
  root := t.root.map (RawPtr.map φ)

/-- The operators of `K` on the image of `φ` are those of the order. -/
structure KeyHom [LinearOrder K₁] [BoundedOrder K₁] [KeyType K] (φ : K₁ → K) : Prop where
  eq : ∀ a b, KeyType.eq (φ a) (φ b) = decide (a = b)
  ne : ∀ a b, KeyType.ne (φ a) (φ b) = decide (a ≠ b)
  lt : ∀ a b, KeyType.lt (φ a) (φ b) = decide (a < b)
  gt : ∀ a b, KeyType.gt (φ a) (φ b) = decide (b < a)
  ge : ∀ a b, KeyType.ge (φ a) (φ b) = decide (b ≤ a)
  invalid : KeyType.invalid = φ ⊤
  weak : StrictWeak (KeyType.lt : K → K → Bool)

variable [LinearOrder K₁] [BoundedOrder K₁] [KeyType K] {φ : K₁ → K}

section Leaf
variable {n : XNode N K₁ V} {key : K₁} {v : V}

theorem XNodeKeys.addKey_map (h : KeyHom φ) (n : XNodeKeys N K₁) (key : K₁) :
    (n.map φ).addKey (φ key) = (n.addKey key).map (fun r => (r.1.map φ, r.2)) := by
  simp only [addKey, map, h.invalid, h.eq, KeyType.eq_ofOrder, KeyType.invalid_ofOrder]
  cases (List.finRange N).find? (fun i => decide (n.keys i = ⊤)) with
  | none => rfl
  | some i =>
    simp only [Option.map_some, Option.some.injEq, Prod.mk.injEq, and_true, XNodeKeys.mk.injEq]
    exact (Function.comp_update φ n.keys i key).symm

theorem XNode.addEntry_map (h : KeyHom φ) (n : XNode N K₁ V) (key : K₁) (v : V) :
    (n.map φ).addEntry (φ key) v = (n.addEntry key v).map (XNode.map φ) := by
  simp only [addEntry, show (n.map φ).keys = n.keys.map φ from rfl, n.keys.addKey_map h key]
  cases n.keys.addKey key <;> rfl

theorem XNode.search_map (h : KeyHom φ) (n : XNode N K₁ V) (key : K₁) :
    (n.map φ).search (φ key) = n.search key := by
  simp only [search, XNodeKeys.search, map, XNodeKeys.map, h.eq, KeyType.eq_ofOrder]

theorem XNode.clear_map (h : KeyHom φ) (n : XNode N K₁ V) (i : Fin N) :
    (n.map φ).clear i = (n.clear i).map φ := by
  have hkeys : (n.clear i).keys.map φ = (n.keys.map φ).clear i := by
    simp only [clear, XNodeKeys.clear, XNodeKeys.map, h.invalid, XNodeKeys.mk.injEq, and_true]
    exact Function.comp_update φ n.keys.keys i ⊤
  change XNode.mk ((n.keys.map φ).clear i) n.values n.next = _
  rw [← hkeys]
  rfl

/-- With distinct keys there is one way to sort them. -/
theorem XNodeKeys.findMedianKey_map [StdSort] (h : KeyHom φ) {n : XNodeKeys N K₁}
    (hn : Function.Injective n.keys) : (n.map φ).findMedianKey = n.findMedianKey := by
  let temp := (List.finRange N).map (fun i => (n.keys i, i))
  have htemp : (List.finRange N).map (fun i => ((n.map φ).keys i, i)) =
      temp.map (Prod.map φ id) := by
    rw [List.map_map]
    rfl
  have hties : ∀ a ∈ temp, ∀ b ∈ temp, decide (a.1 < b.1) = false → decide (b.1 < a.1) = false →
      a = b := by
    intro a ha b hb hab hba
    obtain ⟨i, -, rfl⟩ := List.mem_map.mp ha
    obtain ⟨j, -, rfl⟩ := List.mem_map.mp hb
    simp only [decide_eq_false_iff_not, not_lt] at hab hba
    rw [hn (le_antisymm hba hab)]
  have hweak : StrictWeak (fun a b : K × Fin N => KeyType.lt a.1 b.1) :=
    ⟨fun a b => h.weak.asymm a.1 b.1, fun a b c => h.weak.negTrans a.1 b.1 c.1⟩
  have hsort := StdSort.sort_map (Prod.map φ id) (strictWeak_of_key (Prod.fst : K₁ × Fin N → K₁))
    hweak (fun a b => h.lt a.1 b.1) hties
  have hlen : (temp.map (Prod.map φ id)).length = temp.length := List.length_map _
  change _ = (if temp.length > 0 then ((StdSort.sort (fun left right : K₁ × Fin N =>
    decide (left.1 < right.1)) temp)[temp.length / 2]?).map Prod.snd else none)
  unfold findMedianKey
  simp only [htemp, hlen, hsort, List.getElem?_map, Option.map_map]
  rfl

end Leaf

section Memory
variable {S : Ptr → Prop} {m₁ m₁' : Mem N K₁ V} {m m' : Mem N K V} {p c : Ptr} {key : K₁} {v : V}

/-- The memories hold the same leaves at the addresses in `S`. -/
def MemSim (φ : K₁ → K) (S : Ptr → Prop) (m₁ : Mem N K₁ V) (m : Mem N K V) : Prop :=
  ∀ p, S p → m p = (m₁ p).map φ

def ResultSim {α β : Type} (φ : K₁ → K) (S : Ptr → Prop) (g : α → β)
    (r₁ : Mem N K₁ V × α) (r : Mem N K V × β) : Prop :=
  MemSim φ S r₁.1 r.1 ∧ r.2 = g r₁.2

omit [LinearOrder K₁] [BoundedOrder K₁] [KeyType K] in
theorem MemSim.update (hm : MemSim φ S m₁ m) (p : Ptr) {n₁ : XNode N K₁ V} {n : XNode N K V}
    (hn : n = n₁.map φ) : MemSim φ S (Function.update m₁ p n₁) (Function.update m p n) := by
  intro q hq
  rcases eq_or_ne q p with rfl | hne
  · rw [Function.update_self, Function.update_self, hn]
  · rw [Function.update_of_ne hne, Function.update_of_ne hne, hm q hq]

omit [LinearOrder K₁] [BoundedOrder K₁] [KeyType K] in
theorem MemSim.setNext (hm : MemSim φ S m₁ m) (hp : S p) (next : Option Ptr) :
    MemSim φ S (Function.update m₁ p { m₁ p with next := next })
      (Function.update m p { m p with next := next }) := by
  refine hm.update p ?_
  rw [hm p hp]
  rfl

theorem rawInsertNull_map (h : KeyHom φ) (hm : MemSim φ S m₁ m) (hp : S p) (key : K₁) (v : V) :
    Related (ResultSim φ S id) (rawInsertNull m₁ p key v) (rawInsertNull m p (φ key) v) := by
  unfold rawInsertNull
  rw [hm p hp, (m₁ p).addEntry_map h]
  cases (m₁ p).addEntry key v with
  | none => exact Related.error _
  | some n => exact Related.ok ⟨hm.update p rfl, rfl⟩

theorem moveKey_map (h : KeyHom φ) (hm : MemSim φ S m₁ m) (hp : S p) (hc : S c) (pivot : K₁)
    (i : Fin N) :
    Related (MemSim φ S) (moveKey pivot p c m₁ i) (moveKey (φ pivot) p c m i) := by
  have hkey : (m p).getKey i = φ ((m₁ p).getKey i) := by rw [hm p hp]; rfl
  have hvalue : (m p).getValueRaw i = (m₁ p).getValueRaw i := by rw [hm p hp]; rfl
  unfold moveKey
  simp only [hkey, hvalue, h.invalid, h.ne, h.gt, KeyType.ne_ofOrder, KeyType.gt_ofOrder,
    KeyType.invalid_ofOrder]
  split
  · refine (rawInsertNull_map h hm hc _ _).bind ?_
    rintro ⟨m₁', r₁⟩ ⟨m', r⟩ ⟨(hm' : MemSim φ S m₁' m'), (rfl : r = r₁)⟩
    have hclear : (m' p).clear i = ((m₁' p).clear i).map φ := by
      rw [hm' p hp, XNode.clear_map h]
    exact Related.bind_same (fun _ => Related.pure (hm'.update p hclear))
  · exact Related.pure hm

theorem moveUpperKeys_map [StdSort] (h : KeyHom φ) (hm : MemSim φ S m₁ m) (hp : S p) (hc : S c)
    (hinj : Function.Injective (m₁ p).keys.keys) :
    Related (ResultSim φ S φ) (moveUpperKeys m₁ p c) (moveUpperKeys m p c) := by
  have hinc : (m p).incIncarnation = (m₁ p).incIncarnation.map φ := by rw [hm p hp]; rfl
  have hm := hm.update p hinc
  revert hm
  generalize hn₁ : Function.update m₁ p (m₁ p).incIncarnation = n₁
  generalize hn : Function.update m p (m p).incIncarnation = n
  intro hm
  have hmedian : (n p).keys.findMedianKey = (n₁ p).keys.findMedianKey := by
    have hkeys : Function.Injective (n₁ p).keys.keys := by
      rw [← hn₁, Function.update_self]
      exact hinj
    rw [hm p hp]
    exact XNodeKeys.findMedianKey_map h hkeys
  simp only [moveUpperKeys, hn₁, hn, hmedian]
  refine Related.bind_same (fun i => ?_)
  have hkey : (n p).getKey i = φ ((n₁ p).getKey i) := by rw [hm p hp]; rfl
  have hvalue : (n p).getValueRaw i = (n₁ p).getValueRaw i := by rw [hm p hp]; rfl
  rw [hkey, hvalue]
  refine (rawInsertNull_map h hm hc _ _).bind ?_
  rintro ⟨m₁', r₁⟩ ⟨m', r⟩ ⟨(hm' : MemSim φ S m₁' m'), (rfl : r = r₁)⟩
  refine Related.bind_same (fun _ => ?_)
  have hclear : (m' p).clear i = ((m₁' p).clear i).map φ := by rw [hm' p hp, XNode.clear_map h]
  have hmove := Related.foldlM (fun _ _ j hj => moveKey_map h hj hp hc ((n₁ p).getKey i) j)
    (hm'.update p hclear) (List.finRange N)
  refine hmove.bind ?_
  intro m₁'' m'' hm''
  exact Related.pure ⟨hm'', rfl⟩

theorem rawInsert_map [StdSort] (h : KeyHom φ) (hm : MemSim φ S m₁ m) (hp : S p)
    {cand : Option Ptr} (hcand : ∀ c, cand = some c → S c)
    (hinj : (m₁ p).keys.Full → Function.Injective (m₁ p).keys.keys) (key : K₁) (v : V) :
    Related (ResultSim φ S id) (rawInsert m₁ p key v cand) (rawInsert m p (φ key) v cand) := by
  unfold rawInsert
  rw [hm p hp, (m₁ p).addEntry_map h]
  cases hadd : (m₁ p).addEntry key v with
  | some n => exact Related.ok ⟨hm.update p rfl, rfl⟩
  | none =>
    have hfull := (m₁ p).full_iff.mpr (((m₁ p).addEntry_none_iff key v).mp hadd)
    cases cand with
    | none => exact Related.error _
    | some c =>
      have hc := hcand c rfl
      refine (moveUpperKeys_map h hm hp hc (hinj hfull)).bind ?_
      rintro ⟨m₁', pivot⟩ ⟨m', x⟩ ⟨(hm' : MemSim φ S m₁' m'), (rfl : x = φ pivot)⟩
      have hlink : ∀ (r₁ : Mem N K₁ V × Bool) r, ResultSim φ S id r₁ r → Related (ResultSim φ S id)
          (do
            let m := Function.update r₁.1 c { r₁.1 c with next := (r₁.1 p).next }
            pure (Function.update m p { m p with next := some c }, true) : Res (Mem N K₁ V × Bool))
          (do
            let m := Function.update r.1 c { r.1 c with next := (r.1 p).next }
            pure (Function.update m p { m p with next := some c }, true)) := by
        rintro r₁ r ⟨hm'', -⟩
        have hnext : (r.1 p).next = (r₁.1 p).next := by rw [hm'' p hp]; rfl
        rw [hnext]
        exact Related.pure ⟨(hm''.setNext hc _).setNext hp _, rfl⟩
      simp only [h.gt, KeyType.gt_ofOrder]
      split
      · exact (rawInsertNull_map h hm' hc key v).bind hlink
      · exact (rawInsertNull_map h hm' hp key v).bind hlink

end Memory
end XStore.Xkv
