import XStore.Xkv.KeyMapRun
import Mathlib.Algebra.Order.Ring.Rat
import Mathlib.Order.Defs.Unbundled
import Mathlib.Tactic.Linarith
import Mathlib.Tactic.NormNum

/-! Coordinates on a map as keys (map_key.hh), with their floats as rationals. All operators but
`!=` compare a scalar made of both parts. -/
namespace XStore.DataDist
open XStore.Lib XStore.Xkv
variable {N : ℕ} {V : Type}

def maxLat : ℚ := 360

def fltMax : ℚ := 2 ^ 128 - 2 ^ 104

structure MapKey where
  lat : ℚ
  lon : ℚ
  deriving DecidableEq

namespace MapKey

def toScalar (k : MapKey) : ℚ := (k.lat + 360) * maxLat + (k.lon + 360)

def min : MapKey := ⟨-360, -360⟩

def max : MapKey := ⟨fltMax - 1, fltMax - 1⟩

/-- `from_u64` takes no number. -/
def fromU64 (_ : ℕ) : MapKey := max

def kInvalidKey : ℕ := 2 ^ 64 - 1

instance : KeyType MapKey where
  eq a b := decide (a.toScalar = b.toScalar)
  ne a b := decide (a.lat ≠ b.lat ∨ a.lon ≠ b.lon)
  lt a b := decide (a.toScalar < b.toScalar)
  gt a b := decide (b.toScalar < a.toScalar)
  ge a b := decide (b.toScalar ≤ a.toScalar)
  invalid := fromU64 kInvalidKey
  min := min
  max := max

structure InRange (k : MapKey) : Prop where
  lat_ge : -90 ≤ k.lat
  lat_le : k.lat ≤ 90
  lon_ge : -180 ≤ k.lon
  lon_le : k.lon ≤ 180

/-- No two of the coordinates have the same scalar. -/
def Apart (cs : List MapKey) : Prop := (cs.map toScalar).Nodup

theorem ne_iff {a b : MapKey} : (a.lat ≠ b.lat ∨ a.lon ≠ b.lon) ↔ a ≠ b := by
  obtain ⟨lat, lon⟩ := a
  obtain ⟨lat', lon'⟩ := b
  simp only [ne_eq, MapKey.mk.injEq]
  tauto

theorem InRange.scalar {k : MapKey} (h : k.InRange) :
    min.toScalar < k.toScalar ∧ k.toScalar < max.toScalar := by
  obtain ⟨hlat, hlat', hlon, hlon'⟩ := h
  simp only [toScalar, min, max, maxLat, fltMax]
  constructor
  · linarith
  · norm_num
    linarith

theorem min_lt_max : min.toScalar < max.toScalar := by
  norm_num [toScalar, min, max, maxLat, fltMax]

section Coord
variable {cs : List MapKey}

abbrev Coord (cs : List MapKey) : Type := { k : MapKey // k ∈ cs ∨ k = min ∨ k = max }

theorem toScalar_injective (hrange : ∀ c ∈ cs, c.InRange) (hd : Apart cs) :
    Function.Injective (fun k : Coord cs => k.1.toScalar) := by
  have hcs : ∀ a ∈ cs, ∀ b ∈ cs, a.toScalar = b.toScalar → a = b :=
    fun a ha b hb => List.inj_on_of_nodup_map hd ha hb
  have hend := min_lt_max
  rintro ⟨a, ha⟩ ⟨b, hb⟩ (h : a.toScalar = b.toScalar)
  refine Subtype.ext ?_
  rcases ha with ha | rfl | rfl
  · have hin := (hrange a ha).scalar
    rcases hb with hb | rfl | rfl
    · exact hcs a ha b hb h
    · exact absurd h hin.1.ne'
    · exact absurd h hin.2.ne
  · rcases hb with hb | rfl | rfl
    · exact absurd h (hrange b hb).scalar.1.ne
    · rfl
    · exact absurd h hend.ne
  · rcases hb with hb | rfl | rfl
    · exact absurd h (hrange b hb).scalar.2.ne'
    · exact absurd h hend.ne'
    · rfl

theorem scalar_bounds (hrange : ∀ c ∈ cs, c.InRange) (k : Coord cs) :
    min.toScalar ≤ k.1.toScalar ∧ k.1.toScalar ≤ max.toScalar := by
  obtain ⟨k, hk⟩ := k
  have hend := min_lt_max
  rcases hk with hk | rfl | rfl
  · exact ⟨(hrange k hk).scalar.1.le, (hrange k hk).scalar.2.le⟩
  · exact ⟨le_refl _, hend.le⟩
  · exact ⟨hend.le, le_refl _⟩

@[reducible] def coordOrder (hrange : ∀ c ∈ cs, c.InRange) (hd : Apart cs) :
    LinearOrder (Coord cs) :=
  LinearOrder.lift' (fun k => k.1.toScalar) (toScalar_injective hrange hd)

@[reducible] def coordBounds (hrange : ∀ c ∈ cs, c.InRange) (hd : Apart cs) :
    letI := coordOrder hrange hd
    BoundedOrder (Coord cs) :=
  letI := coordOrder hrange hd
  { top := ⟨max, .inr (.inr rfl)⟩
    bot := ⟨min, .inr (.inl rfl)⟩
    le_top := fun k => (scalar_bounds hrange k).2
    bot_le := fun k => (scalar_bounds hrange k).1 }

theorem keyHom (hrange : ∀ c ∈ cs, c.InRange) (hd : Apart cs) :
    letI := coordOrder hrange hd
    letI := coordBounds hrange hd
    KeyHom (Subtype.val : Coord cs → MapKey) := by
  let := coordOrder hrange hd
  let := coordBounds hrange hd
  refine ⟨fun a b => ?_, fun a b => ?_, fun _ _ => rfl, fun _ _ => rfl, fun _ _ => rfl, rfl,
    strictWeak_of_key toScalar⟩
  · exact decide_eq_decide.mpr (toScalar_injective hrange hd).eq_iff
  · exact decide_eq_decide.mpr (ne_iff.trans (not_congr Subtype.val_inj))

end Coord

section Store
variable [StdSort] [Inhabited V] {cs : List MapKey}

/-- The inserts of the coordinates with these values go through, and every lookup returns the
value of its coordinate. -/
def Returns (m : Mem N MapKey V) (cs : List MapKey) (vs : MapKey → V) : Prop :=
  ∃ w, (World.init m).insertAll (cs.map (fun c => (c, vs c))) = .ok w ∧
    ∀ c ∈ cs, w.get c = .ok (some (vs c))

theorem Apart.returns (hN : 2 ≤ N) (hd : Apart cs) (hrange : ∀ c ∈ cs, c.InRange)
    (m : Mem N MapKey V) (vs : MapKey → V) : Returns m cs vs := by
  let := coordOrder hrange hd
  let := coordBounds hrange hd
  obtain ⟨ks, hval⟩ : ∃ ks : List (Coord cs), ks.map Subtype.val = cs :=
    ⟨cs.attach.map (fun c => ⟨c.1, .inl c.2⟩), by
      rw [List.map_map]
      exact List.attach_map_subtype_val cs⟩
  have hmem : ∀ k ∈ ks, k.1 ∈ cs := by
    intro k hk
    have hk' := List.mem_map_of_mem (f := Subtype.val) hk
    rwa [hval] at hk'
  have hnodup : ks.Nodup := by
    refine List.Nodup.of_map Subtype.val ?_
    rw [hval]
    exact List.Nodup.of_map _ hd
  have htop : ∀ k ∈ ks, k ≠ ⊤ := by
    rintro k hk rfl
    exact absurd rfl (hrange max (hmem _ hk)).scalar.2.ne
  obtain ⟨w, hrun, hget⟩ := insertAll_image hN (keyHom hrange hd) m
    (ks.map (fun k => (k, vs k.1))) (by simp only [List.forall_mem_map]; exact htop)
    (by rw [List.map_map]; simpa [Function.comp_def] using hnodup)
  have hops : (ks.map (fun k => (k, vs k.1))).map (Prod.map Subtype.val id) =
      cs.map (fun c => (c, vs c)) := by
    calc (ks.map (fun k => (k, vs k.1))).map (Prod.map Subtype.val id)
        = (ks.map Subtype.val).map (fun c => (c, vs c)) := by rw [List.map_map, List.map_map]; rfl
      _ = cs.map (fun c => (c, vs c)) := by rw [hval]
  refine ⟨w, by rw [← hops]; exact hrun, fun c hc => ?_⟩
  have hc' : c ∈ ks.map Subtype.val := by rw [hval]; exact hc
  obtain ⟨k, hk, rfl⟩ := List.mem_map.mp hc'
  exact hget (k, vs k.1) (List.mem_map_of_mem hk)

omit [StdSort] [Inhabited V] in
theorem findLeafFrom_congr {a b : MapKey} (h : a.toScalar = b.toScalar) (d : ℕ)
    (t : RawPtr MapKey) : XTree.findLeafFrom a d t = XTree.findLeafFrom b d t := by
  induction d generalizing t with
  | zero => rfl
  | succ d ih =>
    have hidx : ∀ n : TreeInner MapKey (RawPtr MapKey),
        n.findChildrenIdx a = n.findChildrenIdx b := by
      intro n
      simp only [TreeInner.findChildrenIdx, KeyType.lt, h]
    simp only [XTree.findLeafFrom, TreeInner.findChildren, hidx, ih]

omit [StdSort] [Inhabited V] in
/-- A lookup sees only the scalar of its key. -/
theorem get_congr {A : Type} (w : World N MapKey V A) {a b : MapKey}
    (h : a.toScalar = b.toScalar) : w.get a = w.get b := by
  have hsearch : ∀ n : XNode N MapKey V, n.search a = n.search b := by
    intro n
    simp only [XNode.search, XNodeKeys.search, KeyType.eq, h]
  simp only [World.get, XTree.get, XTree.findLeaf, findLeafFrom_congr h, hsearch]

/-- With two values at hand, what holds for all values tells the coordinates apart. -/
theorem apart_of_returns [Nontrivial V] {m : Mem N MapKey V} (hnodup : cs.Nodup)
    (h : ∀ vs, Returns m cs vs) : Apart cs := by
  refine List.Nodup.map_on (fun a ha b hb hab => ?_) hnodup
  by_contra hne
  obtain ⟨x, y, hxy⟩ := exists_pair_ne V
  obtain ⟨w, -, hget⟩ := h (fun c => if c = a then x else y)
  have hsame := (hget a ha).symm.trans ((get_congr w hab).trans (hget b hb))
  have hvalue : (if a = a then x else y) = if b = a then x else y :=
    Option.some.inj (Except.ok.inj hsame)
  rw [if_pos rfl, if_neg (Ne.symm hne)] at hvalue
  exact hxy hvalue

end Store

/-- On these coordinates `<` is a strict total order, and `>`, `>=`, `==` and `!=` are those that
go with it. -/
structure StrictTotal (cs : List MapKey) : Prop where
  order : IsStrictTotalOrder { c // c ∈ cs } (fun a b => KeyType.lt a.1 b.1 = true)
  gt : ∀ a ∈ cs, ∀ b ∈ cs, KeyType.gt a b = KeyType.lt b a
  ge : ∀ a ∈ cs, ∀ b ∈ cs, KeyType.ge a b = !KeyType.lt a b
  eq : ∀ a ∈ cs, ∀ b ∈ cs, KeyType.eq a b = decide (a = b)
  ne : ∀ a ∈ cs, ∀ b ∈ cs, KeyType.ne a b = !KeyType.eq a b

section Order
variable {cs : List MapKey}

theorem lt_iff {a b : MapKey} : KeyType.lt a b = true ↔ a.toScalar < b.toScalar :=
  decide_eq_true_iff

theorem StrictTotal.apart (h : StrictTotal cs) (hnodup : cs.Nodup) : Apart cs :=
  hnodup.map_on (fun a ha b hb hab =>
    of_decide_eq_true ((h.eq a ha b hb).symm.trans (decide_eq_true hab)))

theorem Apart.strictTotal (hd : Apart cs) : StrictTotal cs := by
  have hinj : ∀ a ∈ cs, ∀ b ∈ cs, a.toScalar = b.toScalar ↔ a = b :=
    fun a ha b hb => ⟨List.inj_on_of_nodup_map hd ha hb, fun hab => congrArg toScalar hab⟩
  refine ⟨{ trichotomous := ?_, irrefl := ?_, trans := ?_ }, fun a _ b _ => rfl, fun a _ b _ => ?_,
    fun a ha b hb => decide_eq_decide.mpr (hinj a ha b hb), fun a ha b hb => ?_⟩
  · rintro ⟨a, ha⟩ ⟨b, hb⟩ hab hba
    rw [lt_iff, not_lt] at hab hba
    exact Subtype.ext ((hinj a ha b hb).mp (le_antisymm hba hab))
  · intro a ha
    exact lt_irrefl _ (lt_iff.mp ha)
  · intro a b c hab hbc
    exact lt_iff.mpr ((lt_iff.mp hab).trans (lt_iff.mp hbc))
  · change decide (b.toScalar ≤ a.toScalar) = !decide (a.toScalar < b.toScalar)
    rw [← decide_not]
    exact decide_eq_decide.mpr not_lt.symm
  · change decide (a.lat ≠ b.lat ∨ a.lon ≠ b.lon) = !decide (a.toScalar = b.toScalar)
    rw [← decide_not]
    exact decide_eq_decide.mpr (ne_iff.trans (not_congr (hinj a ha b hb).symm))

end Order

/-- The store returns every value, whatever the values are, and the operators are those of one
strict total order, exactly if no two of the coordinates have the same scalar. -/
theorem map_keys_iff [StdSort] [Inhabited V] [Nontrivial V] (hN : 2 ≤ N) (m : Mem N MapKey V)
    {cs : List MapKey} (hrange : ∀ c ∈ cs, c.InRange) (hnodup : cs.Nodup) :
    ((∀ vs : MapKey → V, Returns m cs vs) ↔ Apart cs) ∧ (StrictTotal cs ↔ Apart cs) :=
  ⟨⟨apart_of_returns hnodup, fun hd vs => hd.returns hN hrange m vs⟩,
    fun h => h.apart hnodup, fun hd => hd.strictTotal⟩

/-- Two places in a store of 16-key pages. -/
theorem map_keys_two :
    letI := insertionStdSort
    (∀ vs : MapKey → ℕ,
      Returns (fun _ => XNode.new : Mem 16 MapKey ℕ) [⟨31, 121⟩, ⟨40, 116⟩] vs) ∧
    StrictTotal [⟨31, 121⟩, ⟨40, 116⟩] := by
  let := insertionStdSort
  have hrange : ∀ c ∈ [(⟨31, 121⟩ : MapKey), ⟨40, 116⟩], c.InRange := by
    simp only [List.forall_mem_cons, List.not_mem_nil, false_implies, implies_true, and_true]
    exact ⟨by constructor <;> norm_num, by constructor <;> norm_num⟩
  have hapart : Apart [⟨31, 121⟩, ⟨40, 116⟩] := by norm_num [Apart, toScalar, maxLat]
  obtain ⟨hreturns, horder⟩ :=
    map_keys_iff (by decide) (fun _ => XNode.new : Mem 16 MapKey ℕ) hrange (by decide)
  exact ⟨hreturns.mpr hapart, horder.mpr hapart⟩

/-- Both ends of the date line: (0, 180) and (1, -180) have one scalar. -/
theorem map_keys_alias :
    letI := insertionStdSort
    InRange ⟨0, 180⟩ ∧ InRange ⟨1, -180⟩ ∧
    (⟨0, 180⟩ : MapKey) ≠ ⟨1, -180⟩ ∧
    ¬ Returns (fun _ => XNode.new : Mem 16 MapKey ℕ) [⟨0, 180⟩, ⟨1, -180⟩]
      (fun c => if c = ⟨0, 180⟩ then 1 else 2) ∧
    KeyType.eq (⟨0, 180⟩ : MapKey) ⟨1, -180⟩ = true ∧
    KeyType.ne (⟨0, 180⟩ : MapKey) ⟨1, -180⟩ = true := by
  have hsame : toScalar ⟨0, 180⟩ = toScalar ⟨1, -180⟩ := by norm_num [toScalar, maxLat]
  refine ⟨by constructor <;> norm_num, by constructor <;> norm_num, by decide, ?_,
    decide_eq_true hsame, by decide⟩
  rintro ⟨w, -, hget⟩
  have hboth := (hget ⟨0, 180⟩ (by simp)).symm.trans
    ((get_congr w hsame).trans (hget ⟨1, -180⟩ (by simp)))
  have hvalue : (if (⟨0, 180⟩ : MapKey) = ⟨0, 180⟩ then 1 else 2) =
      if (⟨1, -180⟩ : MapKey) = ⟨0, 180⟩ then 1 else 2 := Option.some.inj (Except.ok.inj hboth)
  exact absurd hvalue (by decide)

end MapKey
end XStore.DataDist
