import XStore.Xcache.Sampler
import XStore.Xml.SubModel

/-! The trainer of a second-layer model (submodel_trainer.hh). -/
namespace XStore.Xcache
open XStore.Xkv XStore.Xml
variable {N : ℕ} {K V IT KV S SS M : Type}

class KeyIterPos (IT : Type) (K : outParam Type) where
  hasNext : IT → Bool
  curKey : IT → Res K
  opaqueVal : IT → Res ℕ

/-- An iterator over the keys of a store. The store is an argument of every step, since the
nodes that an iterator follows stand there. -/
class KeyIterTrait (IT KV : Type) (K : outParam Type) extends KeyIterPos IT K where
  seek : K → KV → IT → Res IT
  next : KV → IT → Res IT

structure Store (N : ℕ) (K V : Type) where
  addr : Ptr → ℕ
  mem : Mem N K V
  tree : XTree K

instance [KeyType K] [Lib.StdSort] : KeyIterTrait (XCacheTreeIter N K) (Store N K V) K where
  seek k kv it := it.seek kv.addr kv.mem kv.tree k
  hasNext it := it.hasNext
  next kv it := it.next kv.addr kv.mem
  curKey it := it.curKey
  opaqueVal it := it.opaqueVal

/-- The watermarks and the counter are of type usize. -/
structure XMLTrainer (K : Type) where
  startKey : K
  endKey : K
  lWatermark : ℕ
  hWatermark : ℕ
  nkeysUpdate : ℕ
  deriving DecidableEq, Repr

section Update
variable [KeyType K] [Usize]

def stdMin (a b : K) : K := if KeyType.lt b a then b else a

def stdMax (a b : K) : K := if KeyType.lt a b then b else a

namespace XMLTrainer

def new : XMLTrainer K where
  startKey := KeyType.max
  endKey := KeyType.min
  lWatermark := 0
  hWatermark := 0
  nkeysUpdate := 0

def needTrain (t : XMLTrainer K) : Bool := decide (t.hWatermark > t.lWatermark)

def updateKey (t : XMLTrainer K) (k : K) : XMLTrainer K :=
  let t := { t with
    nkeysUpdate := (t.nkeysUpdate + 1) % 2 ^ Usize.bits
    startKey := stdMin t.startKey k
    endKey := stdMax t.endKey k }
  if t.needTrain then t else { t with hWatermark := (t.hWatermark + 1) % 2 ^ Usize.bits }

def trainDone (t : XMLTrainer K) : XMLTrainer K :=
  { t with lWatermark := (t.lWatermark + 1) % 2 ^ Usize.bits }

end XMLTrainer
end Update

section Snapshot
variable [KeyType K] [KeyIterTrait IT KV K] [SampleTrait S K]

def labelLoop (kv : KV) (eKey : K) : ℕ → IT → S → TrainSet K → Res (IT × S × TrainSet K)
  | 0, _, _, _ => .error .outOfFuel
  | fuel + 1, it, s, t =>
    if KeyIterPos.hasNext it then do
      let k ← KeyIterPos.curKey it
      if KeyType.gt k eKey then pure (it, s, t)
      else
        let l ← KeyIterPos.opaqueVal it
        let (s, t) ← SampleTrait.addTo s k l t
        let it ← KeyIterTrait.next kv it
        labelLoop kv eKey fuel it s t
    else pure (it, s, t)

/-- The loop ends here: there is no key left, or the next one is above the range. -/
def LoopEnds (_ : KV) (eKey : K) (it : IT) : Prop :=
  KeyIterPos.hasNext it = false ∨ KeyIterPos.hasNext it = true ∧
    ∃ k, KeyIterPos.curKey it = .ok k ∧ KeyType.gt k eKey = true

structure OffersNext (kv : KV) (eKey : K) (it : IT) (k : K) (l : ℕ) (it₁ : IT) : Prop where
  hasNext : KeyIterPos.hasNext it = true
  curKey : KeyIterPos.curKey it = .ok k
  inRange : KeyType.gt k eKey = false
  opaqueVal : KeyIterPos.opaqueVal it = .ok l
  next : KeyIterTrait.next kv it = .ok it₁

section Rounds
variable {kv : KV} {eKey k : K} {l fuel : ℕ} {it it₁ it' : IT} {s s₁ s' : S} {t t₁ t' : TrainSet K}

theorem labelLoop_ends (h : LoopEnds kv eKey it) :
    labelLoop kv eKey (fuel + 1) it s t = .ok (it, s, t) := by
  rw [labelLoop]
  cases h with
  | inl hnext => simp only [hnext, Bool.false_eq_true, if_false, pure_eq_ok]
  | inr habove =>
    obtain ⟨hnext, k, hkey, hgt⟩ := habove
    simp only [hnext, if_true, hkey, ok_bind, hgt, pure_eq_ok]

theorem labelLoop_next (h : OffersNext kv eKey it k l it₁)
    (hadd : SampleTrait.addTo s k l t = .ok (s₁, t₁)) :
    labelLoop kv eKey (fuel + 1) it s t = labelLoop kv eKey fuel it₁ s₁ t₁ := by
  rw [labelLoop]
  simp only [h.hasNext, if_true, h.curKey, ok_bind, h.inRange, Bool.false_eq_true, if_false,
    h.opaqueVal, hadd, h.next]

theorem labelLoop_cases (h : labelLoop kv eKey (fuel + 1) it s t = .ok (it', s', t')) :
    (LoopEnds kv eKey it ∧ it = it' ∧ s = s' ∧ t = t') ∨
      ∃ k l it₁ s₁ t₁, OffersNext kv eKey it k l it₁ ∧
        SampleTrait.addTo s k l t = .ok (s₁, t₁) ∧
        labelLoop kv eKey fuel it₁ s₁ t₁ = .ok (it', s', t') := by
  rw [labelLoop] at h
  by_cases hnext : KeyIterPos.hasNext it = true
  · rw [if_pos hnext] at h
    obtain ⟨k, hkey, h⟩ := bind_eq_ok.mp h
    by_cases hgt : KeyType.gt k eKey = true
    · rw [if_pos hgt] at h
      exact Or.inl ⟨Or.inr ⟨hnext, k, hkey, hgt⟩, by simpa using h⟩
    · rw [if_neg hgt] at h
      obtain ⟨l, hl, h⟩ := bind_eq_ok.mp h
      obtain ⟨⟨s₁, t₁⟩, hadd, h⟩ := bind_eq_ok.mp h
      obtain ⟨it₁, hit, h⟩ := bind_eq_ok.mp h
      exact Or.inr ⟨k, l, it₁, s₁, t₁, ⟨hnext, hkey, by simpa using hgt, hl, hit⟩, hadd, h⟩
  · rw [if_neg hnext] at h
    exact Or.inl ⟨Or.inl (by simpa using hnext), by simpa using h⟩

end Rounds

/-- The keys that an iterator yields, one after the other, each with its opaque value. -/
inductive Yields [KeyIterTrait IT KV K] (kv : KV) : IT → List (K × ℕ) → Prop where
  | done {it : IT} (h : KeyIterPos.hasNext it = false) : Yields kv it []
  | next {it it' : IT} {k : K} {l : ℕ} {xs : List (K × ℕ)} (h : KeyIterPos.hasNext it = true)
      (hkey : KeyIterPos.curKey it = .ok k) (hval : KeyIterPos.opaqueVal it = .ok l)
      (hnext : KeyIterTrait.next kv it = .ok it') (hrest : Yields kv it' xs) :
      Yields kv it ((k, l) :: xs)

/-- The loop offers what the iterator yields, up to the first key above the range. -/
theorem labelLoop_yields {kv : KV} {eKey : K} {fuel : ℕ} {it it' : IT} {s s' : S}
    {t t' : TrainSet K} {xs : List (K × ℕ)} (hy : Yields kv it xs)
    (h : labelLoop kv eKey fuel it s t = .ok (it', s', t')) :
    addAll (xs.takeWhile (fun x => !KeyType.gt x.1 eKey)) s t = .ok (s', t') := by
  induction hy generalizing fuel s t with
  | done hnone =>
    cases fuel with
    | zero => cases h
    | succ fuel =>
      rcases labelLoop_cases h with ⟨-, -, rfl, rfl⟩ | ⟨k, l, it₁, s₁, t₁, hround, -, -⟩
      · rfl
      · rw [hround.hasNext] at hnone
        cases hnone
  | @next it it₁ k l xs hsome hkey hval hnext _ ih =>
    cases fuel with
    | zero => cases h
    | succ fuel =>
      rcases labelLoop_cases h with ⟨hends, -, rfl, rfl⟩ |
        ⟨k', l', it₂, s₁, t₁, hround, hadd, hrest⟩
      · have hgt : KeyType.gt k eKey = true := by
          rcases hends with hnone | ⟨-, k', hkey', hgt⟩
          · rw [hsome] at hnone
            cases hnone
          · obtain rfl := Except.ok.inj (hkey.symm.trans hkey')
            exact hgt
        rw [List.takeWhile_cons_of_neg (by simp [hgt])]
        rfl
      · obtain rfl := Except.ok.inj (hkey.symm.trans hround.curKey)
        obtain rfl := Except.ok.inj (hval.symm.trans hround.opaqueVal)
        obtain rfl := Except.ok.inj (hnext.symm.trans hround.next)
        rw [List.takeWhile_cons_of_pos (by simp [hround.inRange]), addAll_cons_ok _ hadd]
        exact ih hrest

def XMLTrainer.snapshpotTrainLabels (fuel : ℕ) (t : XMLTrainer K) (it : IT) (kv : KV) (s : S) :
    Res (IT × S × TrainSet K) := do
  let it ← KeyIterTrait.seek t.startKey kv it
  let (it, s, train) ← labelLoop kv t.endKey fuel it s .empty
  let train ← SampleTrait.finalize s train
  pure (it, s, train)

end Snapshot

/-- Step 2 of the training: the shrunken training set. -/
def shrink [SampleTrait SS K] (ss : SS) (train : TrainSet K) : Res (TrainSet K) := do
  let (ss, t) ← addAll (train.set.zip train.label) ss .empty
  SampleTrait.finalize ss t

/-- Step 3: the model sees the shrunken set, the bounds the whole one. -/
def fit [MlTrait M K] [SampleTrait SS K] (ss : SS) (train : TrainSet K) (f : UpdateFunc) :
    Res (XSubModel M) := do
  let sTrain ← shrink ss train
  let model ← (XSubModel.new : XSubModel M).trainMl sTrain.set sTrain.label
  pure (model.calError train.set train.label f)

section Train
variable [Usize] [KeyType K] [KeyIterTrait IT KV K] [SampleTrait S K] [SampleTrait SS K]
  [MlTrait M K]

/-- The model, the iterator and the trainer after a training run; nothing to train leaves a
default model. -/
def XMLTrainer.trainWItWShrink (fuel : ℕ) (t : XMLTrainer K) (it : IT) (kv : KV) (s : S) (ss : SS)
    (f : UpdateFunc) : Res (XSubModel M × IT × XMLTrainer K) :=
  if t.needTrain then do
    let (it, _, train) ← t.snapshpotTrainLabels fuel it kv s
    let model ← fit ss train f
    pure (model, it, t.trainDone)
  else pure (.new, it, t)

def XMLTrainer.trainWIt (fuel : ℕ) (t : XMLTrainer K) (it : IT) (kv : KV) (s : S)
    (f : UpdateFunc) : Res (XSubModel M × IT × XMLTrainer K) :=
  t.trainWItWShrink fuel it kv s ({} : DefaultSample K) f

end Train
end XStore.Xcache
