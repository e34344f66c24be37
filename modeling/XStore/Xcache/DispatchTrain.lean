import XStore.Xcache.Dispatch
import XStore.Xcache.PageSampling
import Mathlib.Data.List.Basic

/-! The training of the dispatcher with any sampler over any store. It never calls `finalize`,
so what a sampler still buffers does not reach the model. -/
namespace XStore.Xcache
open XStore.Lib XStore.Xkv XStore.Xml
variable {N : ℕ} {K V IT KV S M : Type}

class KeyIterFrom (IT KV : Type) (K : outParam Type) extends KeyIterPos IT K where
  ofKV : KV → Res IT
  begin : KV → IT → IT
  next : KV → IT → Res IT

/-- `XTreeIter` and `XTreeSIter`, which differ in what they load. -/
structure LoadIter (load : Load N K) where
  core : NodeIter N K

/-- `begin` of the tree iterators is not implemented and only logs that. -/
instance [KeyType K] (load : Load N K) : KeyIterFrom (LoadIter load) (Store N K V) K where
  hasNext it := it.core.hasNext
  curKey it := it.core.curKey
  opaqueVal it := .ok it.core.opaqueVal
  ofKV kv := do
    let core ← NodeIter.init.seek load kv.mem kv.tree KeyType.min
    pure ⟨core⟩
  begin _ it := it
  next kv it := do
    let core ← it.core.next load kv.mem
    pure ⟨core⟩

structure XArray (K : Type) where
  keyPtr : List K
  deriving DecidableEq, Repr

namespace XArray

def size (a : XArray K) : ℕ := a.keyPtr.length

/-- The index is an int. -/
def keysAt (a : XArray K) (idx : ℤ) : Option K :=
  if 0 ≤ idx ∧ idx < a.size then a.keyPtr[idx.toNat]? else none

end XArray

/-- The array that an iterator points to is the store it was made for. -/
structure ArrayIter (K : Type) where
  curIdx : ℕ
  kv : XArray K
  deriving DecidableEq, Repr

instance : KeyIterFrom (ArrayIter K) (XArray K) K where
  hasNext it := decide (it.curIdx < it.kv.size)
  curKey it := need (it.kv.keysAt (toInt32 it.curIdx)) .emptyOption
  opaqueVal it := .ok it.curIdx
  ofKV kv := .ok ⟨0, kv⟩
  begin _ it := { it with curIdx := 0 }
  next _ it := .ok { it with curIdx := it.curIdx + 1 }

namespace Dispatcher

def trainLoopOn [KeyIterFrom IT KV K] [SampleTrait S K] (kv : KV) :
    ℕ → IT → S → ℕ → TrainSet K → Res (ℕ × TrainSet K)
  | 0, _, _, _, _ => .error .outOfFuel
  | fuel + 1, it, s, count, t =>
    if KeyIterPos.hasNext it then do
      let key ← KeyIterPos.curKey it
      let (s, t) ← SampleTrait.addTo s key count t
      let it ← KeyIterFrom.next kv it
      trainLoopOn kv fuel it s (count + 1) t
    else pure (count, t)

def trainOn (IT : Type) [KeyIterFrom IT KV K] [SampleTrait S K] [MlTrait M K] (fuel : ℕ)
    (d : Dispatcher M) (kv : KV) (s : S) : Res (Dispatcher M × ℕ) := do
  let it : IT ← KeyIterFrom.ofKV kv
  let (count, t) ← trainLoopOn kv fuel (KeyIterFrom.begin kv it) s 0 .empty
  let d := { d with upBound := count % 2 ^ 32 }
  pure ({ d with model := MlTrait.train d.model t.set t.label }, t.set.length)

section Tree
variable [KeyType K] [SampleTrait S K]

theorem trainLoopOn_tree (kv : Store N K V) (fuel : ℕ) (it : NodeIter N K) (s : S) (count : ℕ)
    (t : TrainSet K) :
    trainLoopOn kv fuel (⟨it⟩ : LoadIter XTreeIter.load) s count t =
      trainLoop kv fuel it s count t := by
  induction fuel generalizing it s count t with
  | zero => rfl
  | succ fuel ih =>
    simp only [trainLoopOn, trainLoop, KeyIterPos.hasNext, KeyIterPos.curKey, KeyIterFrom.next,
      XTreeIter.next, bind_assoc, pure_eq_ok, ok_bind, ih]

/-- Over a tree this is the training of the index. -/
theorem train_eq_trainOn [MlTrait M K] (fuel : ℕ) (d : Dispatcher M) (kv : Store N K V) (s : S) :
    d.train fuel kv s = d.trainOn (LoadIter (XTreeIter.load : Load N K)) fuel kv s := by
  simp only [train, trainOn, XTreeIter.ofTree, XTreeIter.seek, KeyIterFrom.ofKV,
    KeyIterFrom.begin, bind_assoc, pure_eq_ok, ok_bind, trainLoopOn_tree]

end Tree
end Dispatcher

inductive Enumerates [KeyIterFrom IT KV K] (kv : KV) : IT → List K → Prop where
  | done {it : IT} (h : KeyIterPos.hasNext it = false) : Enumerates kv it []
  | next {it it' : IT} {k : K} {ks : List K} (h : KeyIterPos.hasNext it = true)
      (hkey : KeyIterPos.curKey it = .ok k) (hnext : KeyIterFrom.next kv it = .ok it')
      (hrest : Enumerates kv it' ks) : Enumerates kv it (k :: ks)

/-- What a sampler emits for a whole sequence: every pair is offered, then `finalize` runs. -/
def emit [SampleTrait S K] (xs : List (K × ℕ)) (s : S) : Res (TrainSet K) := do
  let (s, t) ← addAll xs s .empty
  SampleTrait.finalize s t

inductive Sampler (N : ℕ) (K : Type) where
  | default (s : DefaultSample K)
  | step (s : StepSampler K)
  | page (s : PageSampler N K)
  deriving DecidableEq, Repr

namespace Sampler
variable [KeyType K]

def addTo (s : Sampler N K) (k : K) (l : ℕ) (t : TrainSet K) : Res (Sampler N K × TrainSet K) :=
  match s with
  | default s => do
    let (s, t) ← SampleTrait.addTo s k l t
    pure (default s, t)
  | step s => do
    let (s, t) ← SampleTrait.addTo s k l t
    pure (step s, t)
  | page s => do
    let (s, t) ← SampleTrait.addTo s k l t
    pure (page s, t)

def finalize (s : Sampler N K) (t : TrainSet K) : Res (TrainSet K) :=
  match s with
  | default s => SampleTrait.finalize s t
  | step s => SampleTrait.finalize s t
  | page s => SampleTrait.finalize s t

end Sampler

instance [KeyType K] : SampleTrait (Sampler N K) K where
  addTo := Sampler.addTo
  finalize := Sampler.finalize

theorem Walk.enumerates [LinearOrder K] [BoundedOrder K] {load : Load N K}
    (hload : LoadsKeys load) (kv : Store N K V) {it : NodeIter N K} {xs : List (Place K)}
    (h : Walk load kv.mem it xs) :
    Enumerates kv (⟨it⟩ : LoadIter load) (xs.map (fun x => x.2.2)) := by
  induction xs generalizing it with
  | nil => exact .done (by simp [KeyIterPos.hasNext, NodeIter.hasNext, h.nil])
  | cons x xs ih =>
    obtain ⟨p, i, k⟩ := x
    obtain ⟨hnext, -, -, -, hkey⟩ := h.head
    obtain ⟨it', hstep, hwalk, -⟩ := h.next hload
    refine .next hnext hkey ?_ (ih hwalk)
    simp only [KeyIterFrom.next, hstep, ok_bind, pure_eq_ok]

theorem Built.enumerates [LinearOrder K] [BoundedOrder K] [StdSort] [Inhabited V] (hN : 2 ≤ N)
    {w : World N K V TrivalAlloc} {ops : List (K × V)} (hw : Built w ops) (addr : Ptr → ℕ) :
    ∃ (it : LoadIter (XTreeIter.load : Load N K)) (ks : List K),
      KeyIterFrom.ofKV (⟨addr, w.mem, w.tree⟩ : Store N K V) = .ok it ∧
      Enumerates (⟨addr, w.mem, w.tree⟩ : Store N K V) it ks ∧ ks.Perm (ops.map Prod.fst) := by
  obtain ⟨it, xs, hit, hwalk, hperm⟩ := hw.walk hN
  have hload : LoadsKeys (XTreeIter.load : Load N K) := XTreeIter.arranges.loads
  refine ⟨⟨it⟩, _, ?_, Walk.enumerates hload ⟨addr, w.mem, w.tree⟩ hwalk, hperm⟩
  simp only [XTreeIter.ofTree, XTreeIter.seek] at hit
  simp only [KeyIterFrom.ofKV, hit, ok_bind, pure_eq_ok]

/-- The iterator over an array enumerates it, as long as its indices fit an int. -/
theorem XArray.enumerates (a : XArray K) (hsize : a.size ≤ 2 ^ 31) (i : ℕ) :
    Enumerates a (⟨i, a⟩ : ArrayIter K) (a.keyPtr.drop i) := by
  cases hd : a.keyPtr.drop i with
  | nil =>
    have hle : a.size ≤ i := List.drop_eq_nil_iff.mp hd
    exact .done (by simp [KeyIterPos.hasNext, hle])
  | cons k ks =>
    have hlt : i < a.size := by
      by_contra hge
      rw [List.drop_eq_nil_iff.mpr (not_lt.mp hge)] at hd
      cases hd
    have hint : toInt32 i = i := toInt32_eq (by omega) (by omega)
    have hkey : a.keyPtr[i]? = some k := by
      rw [← List.head?_drop, hd]
      rfl
    have hrest : a.keyPtr.drop (i + 1) = ks := by
      rw [← List.tail_drop, hd]
      rfl
    have hafter := enumerates a hsize (i + 1)
    rw [hrest] at hafter
    refine .next (by simp [KeyIterPos.hasNext, hlt]) ?_ rfl hafter
    simp [KeyIterPos.curKey, keysAt, hint, hlt, hkey]
termination_by a.size - i

section Loop
variable [KeyIterFrom IT KV K] [SampleTrait S K] {kv : KV} {it : IT} {ks : List K}

theorem Dispatcher.trainLoopOn_eq (h : Enumerates kv it ks) {fuel : ℕ} (hfuel : ks.length < fuel)
    (s : S) (count : ℕ) (t : TrainSet K) :
    trainLoopOn kv fuel it s count t =
      (addAll (ks.zipIdx count) s t >>= fun st => pure (count + ks.length, st.2)) := by
  induction h generalizing fuel s count t with
  | done h =>
    obtain ⟨fuel, rfl⟩ := Nat.exists_eq_succ_of_ne_zero (by omega : fuel ≠ 0)
    simp [trainLoopOn, h]
  | @next it it' k ks h hkey hnext _ ih =>
    obtain ⟨fuel, rfl⟩ := Nat.exists_eq_succ_of_ne_zero (by omega : fuel ≠ 0)
    have hlt : ks.length < fuel := by simpa using hfuel
    have hrest := fun s t => ih hlt s (count + 1) t
    have hcount : count + 1 + ks.length = count + (k :: ks).length := by
      rw [List.length_cons]
      omega
    rw [hcount] at hrest
    simp only [trainLoopOn, h, if_true, hkey, hnext, ok_bind, hrest, List.zipIdx_cons, addAll_cons,
      bind_assoc]

end Loop

section Label
variable [KeyType K] [KeyIterTrait IT KV K] [SampleTrait S K] {kv : KV} {it it' : IT} {s s' : S}

theorem labelLoop_addAll {e : K} {fuel : ℕ} {t t' : TrainSet K}
    (h : labelLoop kv e fuel it s t = .ok (it', s', t')) :
    ∃ xs, addAll xs s t = .ok (s', t') := by
  induction fuel generalizing it s t with
  | zero => cases h
  | succ fuel ih =>
    rcases labelLoop_cases h with ⟨-, rfl, rfl, rfl⟩ | ⟨k, l, it₁, s₁, t₁, -, hadd, hrest⟩
    · exact ⟨[], rfl⟩
    · obtain ⟨xs, hxs⟩ := ih hrest
      exact ⟨(k, l) :: xs, (addAll_cons_ok xs hadd).trans hxs⟩

/-- The training of a submodel does call `finalize`. -/
theorem XMLTrainer.snapshpotTrainLabels_emit {fuel : ℕ} {tr : XMLTrainer K} {t : TrainSet K}
    (h : tr.snapshpotTrainLabels fuel it kv s = .ok (it', s', t)) : ∃ xs, emit xs s = .ok t := by
  obtain ⟨it₀, -, h⟩ := bind_eq_ok.mp h
  obtain ⟨⟨it₁, s₁, t₁⟩, hloop, h⟩ := bind_eq_ok.mp h
  obtain ⟨t₂, hfin, h⟩ := bind_eq_ok.mp h
  obtain ⟨-, -, rfl⟩ : it₁ = it' ∧ s₁ = s' ∧ t₂ = t := by simpa using h
  obtain ⟨xs, hadd⟩ := labelLoop_addAll hloop
  refine ⟨xs, ?_⟩
  rw [emit, hadd, ok_bind]
  exact hfin

end Label

namespace PageSampler
variable [KeyType K] {s s' : PageSampler N K} {t t' : TrainSet K}

theorem addTo_buffers {k : K} {l : ℕ} (h : s.addTo k l t = .ok (s', t')) :
    ∃ key, s'.minKeyInPage = some key := by
  unfold addTo at h
  split at h
  · obtain ⟨rfl, -⟩ := Prod.mk.inj (Except.ok.inj h)
    exact ⟨k, rfl⟩
  · next minKey hmin =>
    obtain ⟨minLabel, -, h⟩ := bind_eq_ok.mp h
    split at h
    · obtain ⟨t₁, -, h⟩ := bind_eq_ok.mp h
      obtain ⟨rfl, -⟩ := Prod.mk.inj (Except.ok.inj h)
      exact ⟨k, rfl⟩
    · obtain ⟨rfl, -⟩ := Prod.mk.inj (Except.ok.inj h)
      by_cases hlow : KeyType.gt minKey k = true
      · exact ⟨k, by simp [hlow]⟩
      · exact ⟨minKey, by simp [hlow, apply_ite minKeyInPage, hmin]⟩

theorem addAll_buffers {xs : List (K × ℕ)} (hne : xs ≠ []) (h : addAll xs s t = .ok (s', t')) :
    ∃ key, s'.minKeyInPage = some key := by
  obtain ⟨ys, x, rfl⟩ := (List.eq_nil_or_concat' xs).resolve_left hne
  rw [addAll_append, bind_eq_ok] at h
  obtain ⟨⟨s₁, t₁⟩, -, h⟩ := h
  rw [addAll_cons, bind_eq_ok] at h
  obtain ⟨⟨s₂, t₂⟩, hadd, h⟩ := h
  obtain ⟨rfl, rfl⟩ : s₂ = s' ∧ t₂ = t' := by simpa using h
  exact addTo_buffers hadd

omit [KeyType K] in
theorem addCur_length {key : K} (hmin : s.minKeyInPage = some key) (h : s.addCur t = .ok t') :
    t.set.length < t'.set.length := by
  have hpush : ∀ (u : TrainSet K) (k : K) (l : ℕ), (u.push k l).set.length = u.set.length + 1 :=
    fun u k l => by simp [TrainSet.push]
  simp only [addCur, hmin] at h
  obtain ⟨minLabel, hlabel, h⟩ := bind_eq_ok.mp h
  rw [pure_eq_ok, ok_bind] at h
  have hkeep := hpush t key minLabel
  split at h
  · obtain ⟨maxLabel, -, h⟩ := bind_eq_ok.mp h
    obtain ⟨_, -, h⟩ := bind_eq_ok.mp h
    obtain ⟨_, -, h⟩ := bind_eq_ok.mp h
    split at h
    · obtain rfl := Except.ok.inj h
      rw [hpush]
      omega
    · obtain rfl := Except.ok.inj h
      omega
  · obtain rfl := Except.ok.inj h
    omega

end PageSampler

namespace Sampler
variable [KeyType K]

theorem addAll_page (xs : List (K × ℕ)) (s : PageSampler N K) (t : TrainSet K) :
    addAll xs (page s) t = (addAll xs s t >>= fun st => pure (page st.1, st.2)) := by
  induction xs generalizing s t with
  | nil => rfl
  | cons x xs ih =>
    have hone : SampleTrait.addTo (page s) x.1 x.2 t =
        (SampleTrait.addTo s x.1 x.2 t >>= fun st => pure (page st.1, st.2)) := rfl
    simp only [addAll_cons, hone, bind_assoc, pure_eq_ok, ok_bind, ih]

/-- The samplers but that for pages buffer nothing: `finalize` has nothing to add. -/
theorem addAll_emitted {s : Sampler N K} (hs : ∀ p, s ≠ page p) (xs : List (K × ℕ))
    (t : TrainSet K) :
    ∃ s' t', addAll xs s t = .ok (s', t') ∧ SampleTrait.finalize s' t' = .ok t' := by
  induction xs generalizing s t with
  | nil =>
    cases s with
    | default s => exact ⟨_, t, rfl, rfl⟩
    | step s => exact ⟨_, t, rfl, rfl⟩
    | page s => exact absurd rfl (hs s)
  | cons x xs ih =>
    have hone : ∃ s₁ t₁, SampleTrait.addTo s x.1 x.2 t = .ok (s₁, t₁) ∧ ∀ p, s₁ ≠ page p := by
      cases s with
      | default s => exact ⟨default s, _, rfl, by simp⟩
      | step s => exact ⟨step _, _, rfl, by simp⟩
      | page s => exact absurd rfl (hs s)
    obtain ⟨s₁, t₁, hadd, hs₁⟩ := hone
    obtain ⟨s', t', hrest, hfin⟩ := ih hs₁ t₁
    refine ⟨s', t', ?_, hfin⟩
    rw [addAll_cons_ok _ hadd]
    exact hrest

end Sampler

/-- A model that keeps its training set. -/
structure Recorder where
  set : List XKey
  label : List ℕ
  deriving DecidableEq, Repr

instance : MlTrait Recorder XKey where
  init := ⟨[], []⟩
  train _ set label := ⟨set, label⟩
  predict _ _ := 0

section Train
variable [KeyType K] [KeyIterFrom IT KV K] [MlTrait M K] {kv : KV} {it : IT} {ks : List K}

theorem Dispatcher.trainOn_eq (hit : KeyIterFrom.ofKV kv = .ok it)
    (henum : Enumerates kv (KeyIterFrom.begin kv it) ks) {fuel : ℕ} (hfuel : ks.length < fuel)
    (d : Dispatcher M) {s s' : Sampler N K} {t : TrainSet K}
    (hadd : addAll ks.zipIdx s .empty = .ok (s', t)) :
    d.trainOn IT fuel kv s = .ok ({ d with
      upBound := ks.length % 2 ^ 32, model := MlTrait.train d.model t.set t.label },
      t.set.length) := by
  simp only [trainOn, hit, ok_bind, trainLoopOn_eq henum hfuel, hadd, pure_eq_ok, Nat.zero_add]

end Train
end XStore.Xcache
