import XStore.Xcache.Dispatch
import XStore.Xcache.PageComplete
import Mathlib.Data.Rat.Floor

/-! The dispatcher cuts the keys into intervals, one for each trainer. -/
namespace XStore.Xcache
open XStore.Lib XStore.Xkv XStore.Xml
variable {N : ℕ} {K V M M₁ M₂ : Type}

/-- Arithmetic without rounding; a division by zero may give anything. -/
structure ExactArith [DoubleArith] : Prop where
  div : ∀ x y : ℚ, y ≠ 0 → DoubleArith.div x y = x / y
  mul : ∀ x y : ℚ, DoubleArith.mul x y = x * y

theorem exactDouble_exact : letI := exactDouble; ExactArith := by
  let : DoubleArith := exactDouble
  exact ⟨fun _ _ _ => rfl, fun _ _ => rfl⟩

theorem truncate_natCast (n : ℕ) : truncate n = n := by
  simp [truncate]

theorem truncate_eq_floor {x : ℚ} (h : 0 ≤ x) : truncate x = ⌊x⌋ := by
  rw [truncate, Int.tdiv_eq_ediv_of_nonneg (Rat.num_nonneg.mpr h), Rat.floor_def']

section Predict
variable [Usize] [DoubleArith] [MlTrait M K] {d : Dispatcher M}

def Dispatcher.clamped (d : Dispatcher M) (k : K) : ℚ := max 0 (MlTrait.predict d.model k)

omit [Usize] [DoubleArith] in
theorem Dispatcher.clamped_eq (d : Dispatcher M) (k : K) :
    (if MlTrait.predict d.model k < 0 then 0 else MlTrait.predict d.model k) = d.clamped k := by
  rw [Dispatcher.clamped]
  split
  · next h => exact (max_eq_left h.le).symm
  · next h => exact (max_eq_right (not_lt.mp h)).symm

theorem Dispatcher.predict_above (hnum : 1 ≤ d.dispatchNum)
    (hnum' : d.dispatchNum < 2 ^ Usize.bits) {k : K} {up : ℕ} (h : (up : ℚ) ≤ d.clamped k) :
    d.predict k up = d.dispatchNum - 1 := by
  have hlast : (d.dispatchNum + 2 ^ Usize.bits - 1) % 2 ^ Usize.bits = d.dispatchNum - 1 := by
    rw [show d.dispatchNum + 2 ^ Usize.bits - 1 = d.dispatchNum - 1 + 2 ^ Usize.bits by omega,
      Nat.add_mod_right, Nat.mod_eq_of_lt (by omega)]
  simp only [Dispatcher.predict, clamped_eq]
  rw [if_pos h, hlast, truncate_natCast, Int.toNat_natCast]

theorem Dispatcher.predict_below (hexact : ExactArith) {k : K} {up : ℕ} (h : d.clamped k < up) :
    d.predict k up = (truncate (d.clamped k / up * d.dispatchNum)).toNat := by
  have hpos : (up : ℚ) ≠ 0 := (lt_of_le_of_lt (le_max_left _ _) h).ne'
  simp only [Dispatcher.predict, clamped_eq]
  rw [if_neg (not_le.mpr h), hexact.div _ _ hpos, hexact.mul]

omit [Usize] [DoubleArith] in
theorem Dispatcher.share_lt (hnum : 1 ≤ d.dispatchNum) {k : K} {up : ℕ} (h : d.clamped k < up) :
    0 ≤ d.clamped k / up * d.dispatchNum ∧
      d.clamped k / up * d.dispatchNum < d.dispatchNum := by
  have h₀ : 0 ≤ d.clamped k := le_max_left _ _
  have hup : (0 : ℚ) < up := lt_of_le_of_lt h₀ h
  have hnum' : (0 : ℚ) < d.dispatchNum := by exact_mod_cast hnum
  have hshare : d.clamped k / up < 1 := (div_lt_one hup).mpr h
  constructor
  · exact mul_nonneg (div_nonneg h₀ hup.le) hnum'.le
  · calc d.clamped k / up * d.dispatchNum < 1 * d.dispatchNum :=
          mul_lt_mul_of_pos_right hshare hnum'
      _ = d.dispatchNum := one_mul _

theorem Dispatcher.predict_lt (hexact : ExactArith) (hnum : 1 ≤ d.dispatchNum)
    (hnum' : d.dispatchNum < 2 ^ Usize.bits) (k : K) (up : ℕ) : d.predict k up < d.dispatchNum := by
  cases le_or_gt (up : ℚ) (d.clamped k) with
  | inl h =>
    rw [predict_above hnum hnum' h]
    omega
  | inr h =>
    obtain ⟨h₀, hlt⟩ := share_lt hnum h
    have hfloor : ⌊d.clamped k / up * d.dispatchNum⌋ < (d.dispatchNum : ℤ) :=
      Int.floor_lt.mpr (by exact_mod_cast hlt)
    rw [predict_below hexact h, truncate_eq_floor h₀]
    omega

/-- The three branches fit together: a larger prediction goes to no earlier submodel. -/
theorem Dispatcher.predict_mono [Preorder K] (hexact : ExactArith) (hnum : 1 ≤ d.dispatchNum)
    (hnum' : d.dispatchNum < 2 ^ Usize.bits)
    (hmono : Monotone (fun k : K => MlTrait.predict d.model k)) (up : ℕ) :
    Monotone (fun k : K => d.predict k up) := by
  intro a b hab
  have hle : d.clamped a ≤ d.clamped b := max_le_max_left 0 (hmono hab)
  simp only
  cases le_or_gt (up : ℚ) (d.clamped b) with
  | inl hb =>
    have hlt := predict_lt hexact hnum hnum' a up
    rw [predict_above hnum hnum' hb]
    omega
  | inr hb =>
    have hup : (0 : ℚ) < up := lt_of_le_of_lt (le_max_left _ _) hb
    rw [predict_below hexact hb, predict_below hexact (lt_of_le_of_lt hle hb)]
    apply Int.toNat_le_toNat
    apply truncate_mono
    exact mul_le_mul_of_nonneg_right (div_le_div_of_nonneg_right hle hup.le) (Nat.cast_nonneg _)

end Predict

namespace XMLTrainer
variable [Usize] [LinearOrder K] [BoundedOrder K] (t : XMLTrainer K) (ks : List K)

theorem foldl_nkeysUpdate (h : t.nkeysUpdate < 2 ^ Usize.bits) :
    (ks.foldl updateKey t).nkeysUpdate = (t.nkeysUpdate + ks.length) % 2 ^ Usize.bits := by
  induction ks generalizing t with
  | nil => exact (Nat.mod_eq_of_lt h).symm
  | cons k ks ih =>
    have hstep : (t.updateKey k).nkeysUpdate = (t.nkeysUpdate + 1) % 2 ^ Usize.bits := by
      simp only [updateKey]
      split <;> rfl
    have hlt : (t.updateKey k).nkeysUpdate < 2 ^ Usize.bits := by
      rw [hstep]
      exact Nat.mod_lt _ (Nat.two_pow_pos _)
    rw [List.foldl_cons, ih (t.updateKey k) hlt, hstep, List.length_cons, Nat.mod_add_mod,
      Nat.add_assoc, Nat.add_comm 1]

theorem foldl_startKey_mem : (ks.foldl updateKey t).startKey = t.startKey ∨
    (ks.foldl updateKey t).startKey ∈ ks := by
  induction ks generalizing t with
  | nil => exact Or.inl rfl
  | cons k ks ih =>
    cases ih (t.updateKey k) with
    | inl hold =>
      rw [List.foldl_cons, hold, startKey_updateKey]
      cases min_choice t.startKey k with
      | inl h => exact Or.inl h
      | inr h => exact Or.inr (by rw [h]; exact List.mem_cons_self)
    | inr hnew => exact Or.inr (List.mem_cons_of_mem k hnew)

theorem foldl_endKey_mem : (ks.foldl updateKey t).endKey = t.endKey ∨
    (ks.foldl updateKey t).endKey ∈ ks := by
  induction ks generalizing t with
  | nil => exact Or.inl rfl
  | cons k ks ih =>
    cases ih (t.updateKey k) with
    | inl hold =>
      rw [List.foldl_cons, hold, endKey_updateKey]
      cases max_choice t.endKey k with
      | inl h => exact Or.inl h
      | inr h => exact Or.inr (by rw [h]; exact List.mem_cons_self)
    | inr hnew => exact Or.inr (List.mem_cons_of_mem k hnew)

variable {ks}

theorem received_range (hne : ks ≠ []) :
    IsLeast {k | k ∈ ks} (received ks).startKey ∧
      IsGreatest {k | k ∈ ks} (received ks).endKey := by
  obtain ⟨k, hk⟩ := List.exists_mem_of_ne_nil ks hne
  have hlow := (foldl_startKey (new : XMLTrainer K) ks).2
  have hhigh := (foldl_endKey (new : XMLTrainer K) ks).2
  refine ⟨⟨?_, fun j hj => hlow j hj⟩, ⟨?_, fun j hj => hhigh j hj⟩⟩
  · cases foldl_startKey_mem (new : XMLTrainer K) ks with
    | inl htop =>
      -- every key is the top, and so is the one at hand
      have htop' : (received ks).startKey = ⊤ := htop
      have heq : k = ⊤ := top_le_iff.mp (htop' ▸ hlow k hk)
      rw [Set.mem_ofPred_eq, htop', ← heq]
      exact hk
    | inr hmem => exact hmem
  · cases foldl_endKey_mem (new : XMLTrainer K) ks with
    | inl hbot =>
      have hbot' : (received ks).endKey = ⊥ := hbot
      have heq : k = ⊥ := le_bot_iff.mp (hbot' ▸ hhigh k hk)
      rw [Set.mem_ofPred_eq, hbot', ← heq]
      exact hk
    | inr hmem => exact hmem

theorem received_nkeysUpdate (h : ks.length < 2 ^ Usize.bits) :
    (received ks).nkeysUpdate = ks.length := by
  have heq := foldl_nkeysUpdate (new : XMLTrainer K) ks (by simp [new])
  rw [received, heq, show (new : XMLTrainer K).nkeysUpdate = 0 from rfl, Nat.zero_add,
    Nat.mod_eq_of_lt h]

end XMLTrainer

section Select
variable [Usize] [DoubleArith] [MlTrait M₁ K] [Preorder K]

theorem LocalTwoRMI.selectSecModel_mono {rmi : LocalTwoRMI M₁ M₂}
    (h : Monotone (fun k : K => rmi.firstLayer.predict k rmi.firstLayer.upBound)) :
    Monotone (fun k : K => rmi.selectSecModel k) := by
  intro a b hab
  have hle := h hab
  simp only [selectSecModel] at hle ⊢
  split <;> split <;> omega

end Select

/-- The trainers hold the keys: each key counts for the trainer it selects and for no other,
and the range of that trainer is the exact range of its keys. -/
structure Partitions [LinearOrder K] (owner : K → ℕ) (keys : List K)
    (trainers : List (XMLTrainer K)) : Prop where
  owner_lt : ∀ k ∈ keys, owner k < trainers.length
  counts : ∀ i t, trainers[i]? = some t →
    t.nkeysUpdate = (keys.filter (fun k => owner k == i)).length
  total : (trainers.map XMLTrainer.nkeysUpdate).sum = keys.length
  ranges : ∀ i t, trainers[i]? = some t → t.nkeysUpdate ≠ 0 →
    IsLeast {k | k ∈ keys ∧ owner k = i} t.startKey ∧
      IsGreatest {k | k ∈ keys ∧ owner k = i} t.endKey

/-- An owner that is monotone gives disjoint ranges in the order of the trainers. -/
theorem Partitions.ordered [LinearOrder K] {owner : K → ℕ} {keys : List K}
    {trainers : List (XMLTrainer K)} (h : Partitions owner keys trainers) (hmono : Monotone owner)
    {i j : ℕ} (hij : i < j) {t u : XMLTrainer K} (ht : trainers[i]? = some t)
    (hu : trainers[j]? = some u) (ht₀ : t.nkeysUpdate ≠ 0) (hu₀ : u.nkeysUpdate ≠ 0) :
    t.endKey < u.startKey := by
  obtain ⟨-, hend, -⟩ := h.ranges i t ht ht₀
  obtain ⟨hstart, -⟩ := h.ranges j u hu hu₀
  by_contra hnot
  have hle := hmono (not_lt.mp hnot)
  rw [hstart.1.2, hend.2] at hle
  omega

section Built
variable [LinearOrder K] [BoundedOrder K] [StdSort] [Inhabited V] [Usize] [DoubleArith]
  [MlTrait M₁ K]
  {rmi : LocalTwoRMI M₁ M₂} {w : World N K V TrivalAlloc} {ops : List (K × V)} {fuel : ℕ}

theorem LocalTwoRMI.dispatch_partitions (rmi : LocalTwoRMI M₁ M₂) (hN : 2 ≤ N)
    (hw : Built w ops) (hsub : rmi.secondLayer ≠ []) (hcount : ops.length < 2 ^ Usize.bits)
    (hfuel : ops.length < fuel) (addr : Ptr → ℕ) :
    ∃ trainers : List (XMLTrainer K),
      rmi.dispatchKeysToTrainers fuel (⟨addr, w.mem, w.tree⟩ : Store N K V) = .ok trainers ∧
      trainers.length = rmi.secondLayer.length ∧
      Partitions rmi.selectSecModel (ops.map Prod.fst) trainers := by
  obtain ⟨keys, hperm, hdispatch⟩ := rmi.dispatch_eq hN hw hsub hfuel addr
  have hkeys : keys.length < 2 ^ Usize.bits := by
    rw [hperm.length_eq, List.length_map]
    exact hcount
  have hbucket : ∀ i,
      (keys.filter (fun k => rmi.selectSecModel k == i)).length < 2 ^ Usize.bits :=
    fun i => (List.length_filter_le _ _).trans_lt hkeys
  have hget : ∀ i t, ((List.range rmi.secondLayer.length).map (fun i =>
      XMLTrainer.received (keys.filter (fun k => rmi.selectSecModel k == i))))[i]? = some t →
      t = XMLTrainer.received (keys.filter (fun k => rmi.selectSecModel k == i)) := by
    intro i t ht
    rw [List.getElem?_map] at ht
    obtain ⟨j, hj, rfl⟩ := Option.map_eq_some_iff.mp ht
    obtain ⟨hlt, rfl⟩ := List.getElem?_eq_some_iff.mp hj
    simp
  refine ⟨_, hdispatch, by simp, ?_, ?_, ?_, ?_⟩
  · intro k _
    simpa using selectSecModel_lt hsub k
  · intro i t ht
    obtain rfl := hget i t ht
    rw [XMLTrainer.received_nkeysUpdate (hbucket i)]
    exact (hperm.filter _).length_eq
  · have hsum := sum_buckets rmi.selectSecModel keys (fun k _ => selectSecModel_lt hsub k)
    rw [List.map_map, ← hperm.length_eq, ← hsum]
    congr 1
    apply List.map_congr_left
    intro i _
    exact XMLTrainer.received_nkeysUpdate (hbucket i)
  · intro i t ht ht₀
    obtain rfl := hget i t ht
    rw [XMLTrainer.received_nkeysUpdate (hbucket i)] at ht₀
    have hrange := XMLTrainer.received_range (List.ne_nil_of_length_pos (Nat.pos_of_ne_zero ht₀))
    have hset : {k | k ∈ keys.filter (fun k => rmi.selectSecModel k == i)} =
        {k | k ∈ ops.map Prod.fst ∧ rmi.selectSecModel k = i} := by
      ext k
      rw [Set.mem_ofPred_eq, Set.mem_ofPred_eq, List.mem_filter, beq_iff_eq, hperm.mem_iff]
    rwa [hset] at hrange

end Built

structure IdentityLR where

instance : MlTrait IdentityLR XKey where
  init := {}
  train m _ _ := m
  predict _ k := (k.val : ℚ)

end XStore.Xcache
