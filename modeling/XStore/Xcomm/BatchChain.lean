import XStore.Lib.Runs
import XStore.Xcomm.BatchRw
import Mathlib.Data.List.Induction

/-! The work requests under a batch (batch_rw_op.hh): each op links to the next one in the array,
and a round cuts the chain behind its last op and puts it together again. -/
namespace XStore.Xcomm.Chain
open XStore.Lib
variable {n : ℕ} {α : Type}

def sendSignaled : ℕ := 2

/-- A work request: what the setters of its op leave in it, and what the batch itself writes.
`next` is the place of an op in the array, or null. -/
structure Op (α : Type) where
  req : α
  sendFlags : ℕ
  next : Option ℕ
  wrId : ℕ
  deriving DecidableEq, Repr

abbrev Setter (α : Type) := α → ℕ → α × ℕ

def Op.set (op : Op α) (f : Setter α) : Op α :=
  { op with req := (f op.req op.sendFlags).1, sendFlags := (f op.req op.sendFlags).2 }

def setReq (a : α) : Setter α := fun _ flags => (a, flags)

/-- What the NIC makes of a chain: whether `ibv_post_send` takes it, and whether the completion
that `wait_one` returns then is a good one. -/
structure Nic where
  posts : Bool
  completes : Bool

/-- `cur_idx` is an int. -/
@[ext] structure BatchOp (n : ℕ) (α : Type) where
  ops : Fin n → Op α
  curIdx : ℤ

/-- The requests that `ibv_post_send` finds from a place on. A place behind the array is
no op. -/
def walk (ops : Fin n → Op α) : ℕ → ℕ → Res (List (Fin n × Op α))
  | 0, _ => .error .outOfFuel
  | fuel + 1, j =>
    if h : j < n then
      match (ops ⟨j, h⟩).next with
      | none => .ok [(⟨j, h⟩, ops ⟨j, h⟩)]
      | some j' => do
        let rest ← walk ops fuel j'
        pure ((⟨j, h⟩, ops ⟨j, h⟩) :: rest)
    else .error .outOfRange

namespace BatchOp

/-- The constructor of an op leaves `op₀` in every place. -/
def new (op₀ : Op α) : BatchOp n α where
  ops i := { op₀ with next := some (i + 1) }
  curIdx := -1

def emplace (b : BatchOp n α) : BatchOp n α := { b with curIdx := b.curIdx + 1 }

def reset (b : BatchOp n α) : BatchOp n α := { b with curIdx := -1 }

/-- `get_cur_op`, which checks no index. -/
def getCurOp (b : BatchOp n α) : Res (Op α) :=
  if h : 0 ≤ b.curIdx ∧ b.curIdx.toNat < n then .ok (b.ops ⟨b.curIdx.toNat, h.2⟩)
  else .error .outOfRange

def setOp (b : BatchOp n α) (i : Fin n) (op : Op α) : BatchOp n α :=
  { b with ops := Function.update b.ops i op }

def modifyCurOp (b : BatchOp n α) (f : Op α → Op α) : Res (BatchOp n α) :=
  if h : 0 ≤ b.curIdx ∧ b.curIdx.toNat < n then
    .ok (b.setOp ⟨b.curIdx.toNat, h.2⟩ (f (b.ops ⟨b.curIdx.toNat, h.2⟩)))
  else .error .outOfRange

def fill (b : BatchOp n α) (f : Setter α) : Res (BatchOp n α) :=
  b.emplace.modifyCurOp (fun op => op.set f)

/-- `execute_async`, with the chain that it hands to `ibv_post_send` and whether it returns Ok.
`enc` makes the id of a request. -/
def executeAsync (enc : ℤ → ℕ) (nic : Nic) (b : BatchOp n α) :
    Res (List (Fin n × Op α) × Bool × BatchOp n α) :=
  if b.curIdx < 0 then pure ([], true, b)
  else do
    ensure (decide (b.curIdx < n)) .batchFits
    let op ← b.getCurOp
    let tempFlag := op.sendFlags
    let b ← b.modifyCurOp (fun op => { op with
      sendFlags := tempFlag ||| sendSignaled, next := none, wrId := enc (b.curIdx + 1) })
    let chain ← walk b.ops (n + 1) 0
    if nic.posts then do
      let b ← b.modifyCurOp (fun op => { op with
        sendFlags := tempFlag, next := some (b.curIdx + 1).toNat })
      pure (chain, nic.completes, b.reset)
    else pure (chain, false, b)

def fillAll (b : BatchOp n α) (fs : List (Setter α)) : Res (BatchOp n α) := fs.foldlM fill b

def round (enc : ℤ → ℕ) (nic : Nic) (b : BatchOp n α) (fs : List (Setter α)) :
    Res (List (Fin n × Op α) × Bool × BatchOp n α) := do
  let b ← b.fillAll fs
  b.executeAsync enc nic

def rounds (enc : ℤ → ℕ) (b : BatchOp n α) (rs : List (List (Setter α))) : Res (BatchOp n α) :=
  rs.foldlM (fun b fs => do
    let (_, _, b) ← b.round enc ⟨true, true⟩ fs
    pure b) b

section Fields
variable {b : BatchOp n α} {i j : Fin n} {op : Op α}

@[simp] theorem setOp_self : (b.setOp i op).ops i = op := Function.update_self _ _ _

theorem setOp_of_ne (h : j ≠ i) : (b.setOp i op).ops j = b.ops j := Function.update_of_ne h _ _

@[simp] theorem setOp_curIdx : (b.setOp i op).curIdx = b.curIdx := rfl

@[simp] theorem reset_ops : b.reset.ops = b.ops := rfl

@[simp] theorem reset_curIdx : b.reset.curIdx = -1 := rfl

@[simp] theorem emplace_ops : b.emplace.ops = b.ops := rfl

@[simp] theorem emplace_curIdx : b.emplace.curIdx = b.curIdx + 1 := rfl

end Fields

section Walk
variable {ops : Fin n → Op α} {m : ℕ}

theorem walk_eq (hm : m ≤ n) (hlink : ∀ i : Fin n, i + 1 < m → (ops i).next = some (i.val + 1))
    (hend : ∀ i : Fin n, i + 1 = m → (ops i).next = none) (fuel j : ℕ) (hj : j < m)
    (hfuel : m ≤ fuel + j) :
    walk ops fuel j = .ok ((((List.finRange n).take m).drop j).map (fun i => (i, ops i))) := by
  induction fuel generalizing j with
  | zero => omega
  | succ fuel ih =>
    have hjn : j < n := by omega
    have hlen : j < ((List.finRange n).take m).length := by
      rw [List.length_take, List.length_finRange]
      omega
    have hget : ((List.finRange n).take m)[j] = ⟨j, hjn⟩ := by
      rw [List.getElem_take, List.getElem_finRange]
      rfl
    rw [List.drop_eq_getElem_cons hlen, hget, List.map_cons, walk, dif_pos hjn]
    rcases Nat.lt_or_ge (j + 1) m with hlt | hge
    · rw [hlink ⟨j, hjn⟩ hlt]
      simp only [ih (j + 1) hlt (by omega), ok_bind, pure_eq_ok]
    · have hlast : j + 1 = m := by omega
      rw [hend ⟨j, hjn⟩ hlast, List.drop_of_length_le]
      · rfl
      · rw [List.length_take, List.length_finRange]
        omega

end Walk

section Execute
variable {b : BatchOp n α} {enc : ℤ → ℕ} {nic : Nic} {i : Fin n}

def Whole (b : BatchOp n α) : Prop := ∀ i, (b.ops i).next = some (i.val + 1)

def cut (enc : ℤ → ℕ) (b : BatchOp n α) (i : Fin n) : BatchOp n α :=
  b.setOp i { b.ops i with
    sendFlags := (b.ops i).sendFlags ||| sendSignaled, next := none, wrId := enc (i + 1) }

def mended (enc : ℤ → ℕ) (b : BatchOp n α) (i : Fin n) : BatchOp n α :=
  b.setOp i { b.ops i with next := some (i + 1), wrId := enc (i + 1) }

theorem modifyCurOp_at (hcur : b.curIdx = i.val) (f : Op α → Op α) :
    b.modifyCurOp f = .ok (b.setOp i (f (b.ops i))) := by
  have hnat : b.curIdx.toNat = i := by omega
  have hguard : 0 ≤ b.curIdx ∧ b.curIdx.toNat < n := ⟨by omega, by omega⟩
  have hi : (⟨b.curIdx.toNat, hguard.2⟩ : Fin n) = i := Fin.ext hnat
  rw [modifyCurOp, dif_pos hguard, hi]

theorem getCurOp_at (hcur : b.curIdx = i.val) : b.getCurOp = .ok (b.ops i) := by
  have hnat : b.curIdx.toNat = i := by omega
  have hguard : 0 ≤ b.curIdx ∧ b.curIdx.toNat < n := ⟨by omega, by omega⟩
  have hi : (⟨b.curIdx.toNat, hguard.2⟩ : Fin n) = i := Fin.ext hnat
  rw [getCurOp, dif_pos hguard, hi]

theorem executeAsync_at (hcur : b.curIdx = i.val) :
    b.executeAsync enc nic = (do
      let chain ← walk (b.cut enc i).ops (n + 1) 0
      if nic.posts then pure (chain, nic.completes, (b.mended enc i).reset)
      else pure (chain, false, b.cut enc i)) := by
  have hneg : ¬ b.curIdx < 0 := by omega
  have hfits : decide (b.curIdx < n) = true := by simp only [hcur, decide_eq_true_eq]; omega
  have hcut : (b.cut enc i).curIdx = i.val := hcur
  have harm : b.modifyCurOp (fun op => { op with
      sendFlags := (b.ops i).sendFlags ||| sendSignaled, next := none,
      wrId := enc (b.curIdx + 1) }) = .ok (b.cut enc i) := by
    rw [modifyCurOp_at hcur, hcur]
    rfl
  have hmend : (b.cut enc i).modifyCurOp (fun op => { op with
      sendFlags := (b.ops i).sendFlags, next := some ((b.cut enc i).curIdx + 1).toNat }) =
      .ok (b.mended enc i) := by
    rw [modifyCurOp_at hcut, hcut]
    simp [cut, mended, setOp]
  simp only [executeAsync, if_neg hneg, hfits, ensure_true, ok_bind, getCurOp_at hcur, harm,
    hmend]

theorem walk_cut_min (enc : ℤ → ℕ) (i : Fin n) {k : ℕ} (hk : 1 ≤ k)
    (hlink : ∀ j : Fin n, j.val + 1 < k → (b.ops j).next = some (j.val + 1))
    (hend : ∀ j : Fin n, j.val + 1 = k → (b.ops j).next = none) :
    walk (b.cut enc i).ops (n + 1) 0 =
      .ok (((List.finRange n).take (min k (i + 1))).map (fun j => (j, (b.cut enc i).ops j))) := by
  have hi := i.isLt
  have hnext : ∀ j : Fin n, j.val + 1 < min k (i + 1) →
      ((b.cut enc i).ops j).next = some (j.val + 1) := by
    intro j hj
    have hne : j ≠ i := by
      rintro rfl
      omega
    rw [cut, setOp_of_ne hne, hlink j (by omega)]
  have hnull : ∀ j : Fin n, j.val + 1 = min k (i + 1) → ((b.cut enc i).ops j).next = none := by
    intro j hj
    rcases eq_or_ne j i with rfl | hne
    · rw [cut, setOp_self]
    · have hval : j.val ≠ i.val := fun h => hne (Fin.ext h)
      rw [cut, setOp_of_ne hne, hend j (by omega)]
  exact walk_eq (by omega) hnext hnull (n + 1) 0 (by omega) (by omega)

/-- With whole links the chain is the array up to the last op. -/
theorem walk_cut (hb : b.Whole) (enc : ℤ → ℕ) (i : Fin n) :
    walk (b.cut enc i).ops (n + 1) 0 =
      .ok (((List.finRange n).take (i + 1)).map (fun j => (j, (b.cut enc i).ops j))) := by
  have hi := i.isLt
  have hmin : min (n + 1) (i + 1) = i.val + 1 := by omega
  rw [walk_cut_min enc i (k := n + 1) (by omega) (fun j _ => hb j) (fun j hj => by omega), hmin]

/-- What the NIC is to get: the first `m` ops in their order, as the caller set them, and a
signal for the last one. -/
structure Posts (b : BatchOp n α) (m : ℕ) (chain : List (Fin n × Op α)) : Prop where
  places : chain.map Prod.fst = (List.finRange n).take m
  req : ∀ x ∈ chain, x.2.req = (b.ops x.1).req
  next : ∀ x ∈ chain, x.2.next = if x.1.val + 1 = m then none else some (x.1.val + 1)
  flags : ∀ x ∈ chain, x.2.sendFlags =
    if x.1.val + 1 = m then (b.ops x.1).sendFlags ||| sendSignaled else (b.ops x.1).sendFlags

/-- A batch that is ready for the next round. The flags are those of before. -/
structure Restored (b b' : BatchOp n α) : Prop where
  cur : b'.curIdx = -1
  whole : b'.Whole
  flags : ∀ i, (b'.ops i).sendFlags = (b.ops i).sendFlags

theorem posts_cut (hb : b.Whole) (enc : ℤ → ℕ) (i : Fin n) :
    b.Posts (i + 1) (((List.finRange n).take (i + 1)).map (fun j => (j, (b.cut enc i).ops j))) := by
  refine ⟨?_, ?_, ?_, ?_⟩
  · rw [List.map_map]
    exact List.map_id _
  all_goals
    intro x hx
    obtain ⟨j, -, rfl⟩ := List.mem_map.mp hx
    rcases eq_or_ne j i with rfl | hne
    · simp [cut]
    · have hval : j.val ≠ i.val := fun h => hne (Fin.ext h)
      simp [cut, setOp_of_ne hne, hval, hb j]

theorem restored_mended (hb : b.Whole) (enc : ℤ → ℕ) (i : Fin n) :
    b.Restored (b.mended enc i).reset := by
  refine ⟨rfl, fun j => ?_, fun j => ?_⟩
  all_goals
    rcases eq_or_ne j i with rfl | hne
    · simp [mended]
    · simp [mended, setOp_of_ne hne, hb j]

theorem Whole.executeAsync (hb : b.Whole) (enc : ℤ → ℕ) (hcur : b.curIdx = i.val)
    (hposts : nic.posts = true) :
    ∃ chain b', b.executeAsync enc nic = .ok (chain, nic.completes, b') ∧
      b.Posts (i + 1) chain ∧ b.Restored b' := by
  refine ⟨_, _, ?_, posts_cut hb enc i, restored_mended hb enc i⟩
  rw [executeAsync_at hcur, walk_cut hb, ok_bind, if_pos hposts, pure_eq_ok]

end Execute

section Round
variable {b b' : BatchOp n α} {enc : ℤ → ℕ} {f : Setter α} {fs : List (Setter α)}

def filled (b : BatchOp n α) (fs : List (Setter α)) : BatchOp n α where
  ops i :=
    match fs[i.val]? with
    | some f => (b.ops i).set f
    | none => b.ops i
  curIdx := fs.length - 1

theorem filled_of_some {i : Fin n} (h : fs[i.val]? = some f) :
    (b.filled fs).ops i = (b.ops i).set f := by
  simp only [filled, h]

theorem filled_of_none {i : Fin n} (h : fs[i.val]? = none) :
    (b.filled fs).ops i = b.ops i := by
  simp only [filled, h]

theorem next_filled (fs : List (Setter α)) (i : Fin n) :
    ((b.filled fs).ops i).next = (b.ops i).next := by
  cases h : fs[i.val]? with
  | none => rw [filled_of_none h]
  | some f =>
    rw [filled_of_some h]
    rfl

theorem Whole.filled (hb : b.Whole) (fs : List (Setter α)) : (b.filled fs).Whole := by
  intro i
  rw [next_filled, hb i]

theorem fill_eq_ok (h : b.fill f = .ok b') :
    ∃ i : Fin n, b.curIdx + 1 = i.val ∧ b' = b.emplace.setOp i ((b.ops i).set f) := by
  unfold fill modifyCurOp at h
  split at h
  · rename_i hguard
    obtain ⟨hlow, hhigh⟩ := hguard
    rw [emplace_curIdx] at hlow
    refine ⟨⟨b.emplace.curIdx.toNat, hhigh⟩, (Int.toNat_of_nonneg hlow).symm, ?_⟩
    exact (Except.ok.inj h).symm
  · cases h

theorem fill_filled (hlt : fs.length < n) :
    (b.filled fs).fill f = .ok (b.filled (fs ++ [f])) := by
  have hlast : (b.filled fs).emplace.curIdx = (⟨fs.length, hlt⟩ : Fin n).val := by
    simp [filled]
  rw [fill, modifyCurOp_at hlast]
  congr 1
  ext1
  · funext i
    rcases eq_or_ne i ⟨fs.length, hlt⟩ with rfl | hne
    · rw [setOp_self, emplace_ops, filled_of_none (by simp), filled_of_some (f := f) (by simp)]
    · have hval : i.val ≠ fs.length := fun h => hne (Fin.ext h)
      rw [setOp_of_ne hne, emplace_ops]
      rcases Nat.lt_or_gt_of_ne hval with hin | hout
      · rw [filled_of_some (List.getElem?_eq_getElem hin), filled_of_some (f := fs[i.val])]
        rw [List.getElem?_append_left hin, List.getElem?_eq_getElem hin]
      · rw [filled_of_none (List.getElem?_eq_none (by omega)),
          filled_of_none (List.getElem?_eq_none (by simp; omega))]
  · simp [filled]

theorem fillAll_eq (hcur : b.curIdx = -1) (hlen : fs.length ≤ n) :
    b.fillAll fs = .ok (b.filled fs) := by
  induction fs using List.reverseRecOn with
  | nil =>
    obtain ⟨ops, cur⟩ := b
    obtain rfl : cur = -1 := hcur
    rfl
  | append_singleton fs f ih =>
    rw [List.length_append, List.length_singleton] at hlen
    have hrest := ih (by omega)
    rw [fillAll] at hrest ⊢
    rw [List.foldlM_append, hrest, ok_bind, List.foldlM_cons, fill_filled (by omega)]
    rfl

theorem exists_last {m : ℕ} (h : 1 ≤ m ∧ m ≤ n) : ∃ i : Fin n, i.val + 1 = m :=
  ⟨⟨m - 1, by omega⟩, by simp only; omega⟩

theorem filled_curIdx {i : Fin n} (h : i.val + 1 = fs.length) : (b.filled fs).curIdx = i.val := by
  simp only [filled]
  omega

/-- A round that starts with an empty batch and whole links. -/
theorem Whole.round (hb : b.Whole) (enc : ℤ → ℕ) (nic : Nic) (hcur : b.curIdx = -1)
    (hfs : 1 ≤ fs.length ∧ fs.length ≤ n) (hposts : nic.posts = true) :
    ∃ chain b', b.round enc nic fs = .ok (chain, nic.completes, b') ∧
      (b.filled fs).Posts fs.length chain ∧ (b.filled fs).Restored b' := by
  obtain ⟨i, hi⟩ := exists_last hfs
  obtain ⟨chain, b', hexec, hchain, hback⟩ :=
    (hb.filled fs).executeAsync enc (filled_curIdx hi) hposts
  refine ⟨chain, b', ?_, ?_, hback⟩
  · rw [BatchOp.round, fillAll_eq hcur hfs.2, ok_bind, hexec]
  · rwa [hi] at hchain

theorem Whole.rounds (hb : b.Whole) (enc : ℤ → ℕ) (hcur : b.curIdx = -1)
    {rs : List (List (Setter α))} (hrs : ∀ r ∈ rs, 1 ≤ r.length ∧ r.length ≤ n) :
    ∃ b', b.rounds enc rs = .ok b' ∧ b'.Whole ∧ b'.curIdx = -1 := by
  induction rs generalizing b with
  | nil => exact ⟨b, rfl, hb, hcur⟩
  | cons r rs ih =>
    obtain ⟨chain, b₁, hround, -, hback⟩ :=
      hb.round enc ⟨true, true⟩ hcur (hrs r List.mem_cons_self) rfl
    obtain ⟨b', hrest, hb'⟩ :=
      ih hback.whole hback.cur (fun r' hr' => hrs r' (List.mem_cons_of_mem r hr'))
    refine ⟨b', ?_, hb'⟩
    simp only [BatchOp.rounds, List.foldlM_cons, hround, ok_bind, pure_eq_ok]
    exact hrest

theorem sendFlags_filled (hfs : ∀ f ∈ fs, ∀ a flags, (f a flags).2 = flags) (i : Fin n) :
    ((b.filled fs).ops i).sendFlags = (b.ops i).sendFlags := by
  cases h : fs[i.val]? with
  | none => rw [filled_of_none h]
  | some f =>
    rw [filled_of_some h]
    exact hfs f (List.mem_of_getElem? h) _ _

/-- Whatever the rounds before, a round posts its own ops and leaves the batch ready. -/
theorem round_posts (op₀ : Op α) (enc : ℤ → ℕ) (rs : List (List (Setter α)))
    (fs : List (Setter α)) (hrs : ∀ r ∈ fs :: rs, 1 ≤ r.length ∧ r.length ≤ n) :
    ∃ (b b' : BatchOp n α) (chain : List (Fin n × Op α)),
      (new op₀).rounds enc rs = .ok b ∧
      b.round enc ⟨true, true⟩ fs = .ok (chain, true, b') ∧
      (b.filled fs).Posts fs.length chain ∧
      (b.filled fs).Restored b' ∧
      ((∀ f ∈ fs, ∀ a flags, (f a flags).2 = flags) →
        ∀ i, (b'.ops i).sendFlags = (b.ops i).sendFlags) := by
  have hnew : (new op₀ : BatchOp n α).Whole := fun _ => rfl
  obtain ⟨b, hrounds, hb, hcur⟩ :=
    hnew.rounds enc rfl (fun r hr => hrs r (List.mem_cons_of_mem fs hr))
  obtain ⟨chain, b', hround, hchain, hback⟩ :=
    hb.round enc ⟨true, true⟩ hcur (hrs fs List.mem_cons_self) rfl
  refine ⟨b, b', chain, hrounds, hround, hchain, hback, ?_⟩
  intro hfs i
  rw [hback.flags, sendFlags_filled hfs]

/-- Four ops and then ten, with a batch of sixteen. -/
theorem round_posts_four_ten :
    ∃ (b b' : BatchOp 16 ℕ) (chain : List (Fin 16 × Op ℕ)),
      (new ⟨0, 0, none, 0⟩).rounds Int.toNat [(List.range 4).map setReq] = .ok b ∧
      b.round Int.toNat ⟨true, true⟩ ((List.range 10).map setReq) = .ok (chain, true, b') ∧
      (b.filled ((List.range 10).map setReq)).Posts 10 chain ∧
      (b.filled ((List.range 10).map setReq)).Restored b' ∧
      ((∀ f ∈ (List.range 10).map setReq, ∀ (a : ℕ) flags, (f a flags).2 = flags) →
        ∀ i, (b'.ops i).sendFlags = (b.ops i).sendFlags) :=
  round_posts ⟨0, 0, none, 0⟩ Int.toNat [(List.range 4).map setReq] ((List.range 10).map setReq)
    (by simp)

end Round

section Reads
variable {b : BatchOp n ReadOp} {xs : List ReadOp} {chain : List (Fin n × Op ReadOp)}

def toReads (b : BatchOp n ReadOp) : Xcomm.BatchOp n where
  ops i := (b.ops i).req
  curIdx := b.curIdx

theorem Posts.reads (h : b.Posts (b.curIdx + 1).toNat chain) :
    chain.map (fun x => x.2.req) = b.toReads.posted := by
  calc chain.map (fun x => x.2.req)
      = chain.map (fun x => (b.ops x.1).req) := List.map_congr_left h.req
    _ = (chain.map Prod.fst).map (fun i => (b.ops i).req) := by rw [List.map_map]; rfl
    _ = b.toReads.posted := by rw [h.places]; rfl

theorem toReads_fill (b : BatchOp n ReadOp) (op : ReadOp) :
    (b.fill (setReq op)).map toReads = b.toReads.emplace.setCurOp op := by
  by_cases h : 0 ≤ b.curIdx + 1 ∧ (b.curIdx + 1).toNat < n
  · have hleft : b.fill (setReq op) = .ok (b.emplace.setOp ⟨(b.curIdx + 1).toNat, h.2⟩
        ((b.ops ⟨(b.curIdx + 1).toNat, h.2⟩).set (setReq op))) := dif_pos h
    have hright : b.toReads.emplace.setCurOp op = .ok { b.toReads.emplace with
        ops := Function.update b.toReads.ops ⟨(b.curIdx + 1).toNat, h.2⟩ op } := dif_pos h
    rw [hleft, hright]
    refine congrArg Except.ok (congrArg (Xcomm.BatchOp.mk · (b.curIdx + 1)) (funext fun i => ?_))
    rcases eq_or_ne i ⟨(b.curIdx + 1).toNat, h.2⟩ with rfl | hne
    · rw [setOp_self, Function.update_self]
      rfl
    · rw [setOp_of_ne hne, Function.update_of_ne hne]
      rfl
  · have hleft : b.fill (setReq op) = .error .outOfRange := dif_neg h
    have hright : b.toReads.emplace.setCurOp op = .error .outOfRange := dif_neg h
    rw [hleft, hright]
    rfl

structure Ready (b : BatchOp n ReadOp) (xs : List ReadOp) : Prop where
  whole : b.Whole
  holds : b.toReads.Holds xs

theorem Ready.new (op₀ : Op ReadOp) : (new op₀ : BatchOp n ReadOp).Ready [] where
  whole _ := rfl
  holds := ⟨rfl, by simp [Xcomm.BatchOp.posted, toReads, BatchOp.new]⟩

theorem Ready.fill (h : b.Ready xs) (hlt : xs.length < n) (op : ReadOp) :
    ∃ b', b.fill (setReq op) = .ok b' ∧ b'.Ready (xs ++ [op]) := by
  obtain ⟨r, hset, hholds⟩ := h.holds.setCurOp hlt op
  rw [← toReads_fill] at hset
  cases hfill : b.fill (setReq op) with
  | error e =>
    rw [hfill] at hset
    cases hset
  | ok b' =>
    rw [hfill] at hset
    obtain rfl := Except.ok.inj hset
    obtain ⟨i, -, rfl⟩ := fill_eq_ok hfill
    refine ⟨_, rfl, fun j => ?_, hholds⟩
    rcases eq_or_ne j i with rfl | hne
    · rw [setOp_self]
      exact h.whole j
    · rw [setOp_of_ne hne]
      exact h.whole j

theorem Ready.executeAsync {nic : Nic} (h : b.Ready xs) (enc : ℤ → ℕ) (hne : xs ≠ [])
    (hposts : nic.posts = true) :
    ∃ chain b', b.executeAsync enc nic = .ok (chain, nic.completes, b') ∧
      chain.map (fun x => x.2.req) = xs ∧ b'.Ready [] := by
  have hcur : b.curIdx + 1 = xs.length := h.holds.cur
  have hle := h.holds.length_le
  obtain ⟨i, hi⟩ := exists_last ⟨List.length_pos_iff.mpr hne, hle⟩
  obtain ⟨chain, b', hexec, hchain, hback⟩ :=
    h.whole.executeAsync enc (show b.curIdx = i.val by omega) hposts
  refine ⟨chain, b', hexec, ?_, hback.whole, ?_, ?_⟩
  · rw [← h.holds.posted]
    refine Posts.reads ?_
    rwa [show (b.curIdx + 1).toNat = i.val + 1 by omega]
  · exact congrArg (· + 1) hback.cur
  · simp [Xcomm.BatchOp.posted, toReads, hback.cur]

end Reads
end BatchOp
end XStore.Xcomm.Chain
