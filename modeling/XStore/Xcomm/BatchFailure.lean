import XStore.Xcomm.BatchChain

/-! Batches whose posts may fail. `execute_async` returns in between when `ibv_post_send` does not
take the chain, and what it wrote before stays. -/
namespace XStore.Xcomm.Chain
open XStore.Lib
variable {n : ℕ} {α : Type}

inductive Event (α : Type) where
  | fill (f : Setter α)
  | execute (nic : Nic)
  | reset

namespace BatchOp
variable {b b' : BatchOp n α} {enc : ℤ → ℕ} {nic : Nic} {i : Fin n}

def step (enc : ℤ → ℕ) (b : BatchOp n α) : Event α → Option (BatchOp n α)
  | .fill f => (b.fill f).toOption
  | .execute nic => (b.executeAsync enc nic).toOption.map (fun (_, _, b') => b')
  | .reset => some b.reset

/-- `execute_async` posts the ops of the batch, and whatever it returns, the batch is ready
again. -/
def Reusable (enc : ℤ → ℕ) (b : BatchOp n α) : Event α → Prop
  | .execute nic => ∃ chain ok b', b.executeAsync enc nic = .ok (chain, ok, b') ∧
      b.Posts (b.curIdx + 1).toNat chain ∧ b.Restored b'
  | _ => True

/-- The NIC takes what is posted. A batch without an op is not posted. -/
def Taken (b : BatchOp n α) : Event α → Prop
  | .execute nic => nic.posts = true ∨ b.curIdx < 0
  | _ => True

structure Clean (b : BatchOp n α) : Prop where
  whole : b.Whole
  low : -1 ≤ b.curIdx
  high : b.curIdx < n

theorem Clean.new (op₀ : Op α) : (new op₀ : BatchOp n α).Clean where
  whole _ := rfl
  low := le_refl _
  high := by
    simp only [BatchOp.new]
    omega

/-- The chain stays cut and the flag stays set. -/
theorem executeAsync_fails (hb : b.Whole) (enc : ℤ → ℕ) (hcur : b.curIdx = i.val)
    (hposts : nic.posts = false) :
    ∃ chain, b.executeAsync enc nic = .ok (chain, false, b.cut enc i) ∧ b.Posts (i + 1) chain := by
  refine ⟨_, ?_, posts_cut hb enc i⟩
  rw [executeAsync_at hcur, walk_cut hb, ok_bind, hposts]
  rfl

theorem executeAsync_empty (hneg : b.curIdx < 0) : b.executeAsync enc nic = .ok ([], true, b) :=
  if_pos hneg

theorem Clean.cases (hb : b.Clean) : b.curIdx = -1 ∨ ∃ i : Fin n, b.curIdx = i.val := by
  have hlow := hb.low
  have hhigh := hb.high
  rcases Int.lt_or_le b.curIdx 0 with hneg | hpos
  · exact .inl (by omega)
  · exact .inr ⟨⟨b.curIdx.toNat, by omega⟩, by simp only; omega⟩

theorem Restored.clean (h : b.Restored b') : b'.Clean where
  whole := h.whole
  low := le_of_eq h.cur.symm
  high := by
    rw [h.cur]
    omega

theorem Clean.reusable (hb : b.Clean) (enc : ℤ → ℕ) {e : Event α} (he : b.Taken e) :
    b.Reusable enc e := by
  cases e with
  | fill f => trivial
  | reset => trivial
  | execute nic =>
    rcases hb.cases with hnone | ⟨i, hi⟩
    · refine ⟨[], true, b, executeAsync_empty (by omega), ?_, hnone, hb.whole, fun _ => rfl⟩
      rw [hnone]
      exact ⟨rfl, by simp, by simp, by simp⟩
    · obtain hposts := he.resolve_right (by omega)
      obtain ⟨chain, b', hexec, hchain, hback⟩ := hb.whole.executeAsync enc hi hposts
      refine ⟨chain, nic.completes, b', hexec, ?_, hback⟩
      rwa [show (b.curIdx + 1).toNat = i + 1 by omega]

theorem Reusable.taken (hb : b.Clean) {e : Event α} (he : b.Reusable enc e) : b.Taken e := by
  cases e with
  | fill f => trivial
  | reset => trivial
  | execute nic =>
    rcases hb.cases with hnone | ⟨i, hi⟩
    · exact .inr (by omega)
    · cases hposts : nic.posts with
      | true => exact .inl hposts
      | false =>
        obtain ⟨chain, ok, b', hexec, -, hback⟩ := he
        obtain ⟨chain', hfail, -⟩ := executeAsync_fails hb.whole enc hi hposts
        rw [hfail] at hexec
        injection hexec with heq
        obtain ⟨-, -, rfl⟩ := heq
        have hcur := hback.cur
        rw [cut, setOp_curIdx, hi] at hcur
        omega

theorem Clean.step (hb : b.Clean) {e : Event α} (he : b.Taken e) (hstep : b.step enc e = some b') :
    b'.Clean := by
  cases e with
  | fill f =>
    cases hfill : b.fill f with
    | error e => simp [BatchOp.step, hfill] at hstep
    | ok b₁ =>
      simp only [BatchOp.step, hfill, toOption_ok, Option.some.injEq] at hstep
      subst hstep
      obtain ⟨i, hi, rfl⟩ := fill_eq_ok hfill
      refine ⟨fun j => ?_, by rw [setOp_curIdx, emplace_curIdx]; omega,
        by rw [setOp_curIdx, emplace_curIdx]; omega⟩
      rcases eq_or_ne j i with rfl | hne
      · rw [setOp_self]
        exact hb.whole j
      · rw [setOp_of_ne hne]
        exact hb.whole j
  | reset =>
    obtain rfl := Option.some.inj hstep
    exact ⟨hb.whole, le_refl _, by rw [reset_curIdx]; omega⟩
  | execute nic =>
    obtain ⟨chain, ok, b₁, hexec, -, hback⟩ := hb.reusable enc he
    rw [BatchOp.step, hexec] at hstep
    obtain rfl := Option.some.inj hstep
    exact hback.clean

/-- Over a run from the new batch, every call leaves the batch reusable exactly if no post
fails. -/
theorem reusable_iff_taken (op₀ : Op α) (enc : ℤ → ℕ) (es : List (Event α)) :
    AllSteps (step enc) (Reusable enc) es (new op₀ : BatchOp n α) ↔
      AllSteps (step enc) Taken es (new op₀ : BatchOp n α) := by
  constructor
  · intro h
    exact h.imp (fun b e b' hs he hb => Clean.step hb (he.taken hb) hs)
      (fun b e he hb => he.taken hb) (Clean.new op₀)
  · intro h
    exact h.imp (fun b e b' hs he hb => Clean.step hb he hs)
      (fun b e he hb => hb.reusable enc he) (Clean.new op₀)

/-- After a failed post and a reset, the next round posts no more than the failed one had, and
says that all went well. -/
theorem round_after_failure (op₀ : Op α) (enc : ℤ → ℕ) {fs gs : List (Setter α)}
    (hfs : 1 ≤ fs.length ∧ fs.length ≤ n) (hgs : 1 ≤ gs.length ∧ gs.length ≤ n) :
    ∃ (b b' : BatchOp n α) (chain chain' : List (Fin n × Op α)),
      (new op₀).round enc ⟨false, true⟩ fs = .ok (chain, false, b) ∧
      b.reset.round enc ⟨true, true⟩ gs = .ok (chain', true, b') ∧
      chain'.map Prod.fst = (List.finRange n).take (min fs.length gs.length) := by
  have hnew : (new op₀ : BatchOp n α).Whole := fun _ => rfl
  obtain ⟨l, hl⟩ := exists_last hfs
  obtain ⟨k, hk⟩ := exists_last hgs
  obtain ⟨chain, hfail, -⟩ := executeAsync_fails (hnew.filled fs) enc (filled_curIdx hl)
    (show (⟨false, true⟩ : Nic).posts = false from rfl)
  generalize hb : ((new op₀ : BatchOp n α).filled fs).cut enc l = b at hfail
  -- the setters of the second round keep the links of the first
  have hlink : ∀ j : Fin n, j.val + 1 < fs.length →
      ((b.reset.filled gs).ops j).next = some (j.val + 1) := by
    intro j hj
    have hne : j ≠ l := by
      rintro rfl
      omega
    rw [next_filled, reset_ops, ← hb, cut, setOp_of_ne hne, next_filled, hnew j]
  have hend : ∀ j : Fin n, j.val + 1 = fs.length → ((b.reset.filled gs).ops j).next = none := by
    intro j hj
    obtain rfl : j = l := Fin.ext (by omega)
    rw [next_filled, reset_ops, ← hb, cut, setOp_self]
  have hwalk := walk_cut_min enc k hfs.1 hlink hend
  rw [hk] at hwalk
  have hround : b.reset.round enc ⟨true, true⟩ gs = .ok
      (((List.finRange n).take (min fs.length gs.length)).map
        (fun j => (j, ((b.reset.filled gs).cut enc k).ops j)), true,
        ((b.reset.filled gs).mended enc k).reset) := by
    rw [round, fillAll_eq rfl hgs.2, ok_bind, executeAsync_at (filled_curIdx hk), hwalk]
    rfl
  refine ⟨b, _, chain, _, ?_, hround, ?_⟩
  · rw [round, fillAll_eq rfl hfs.2, ok_bind, hfail]
  · rw [List.map_map]
    exact List.map_id _

/-- The batch of two is not ready after the failed post of one op, and a round of two ops after
it posts one. -/
theorem failed_post_not_reusable :
    ¬ AllSteps (step Int.toNat) (Reusable Int.toNat)
      [.fill (setReq 1), .execute ⟨false, true⟩] (new ⟨0, 0, none, 0⟩ : BatchOp 2 ℕ) ∧
    ∃ (b b' : BatchOp 2 ℕ) (chain chain' : List (Fin 2 × Op ℕ)),
      (new ⟨0, 0, none, 0⟩).round Int.toNat ⟨false, true⟩ [setReq 1] = .ok (chain, false, b) ∧
      b.reset.round Int.toNat ⟨true, true⟩ [setReq 2, setReq 3] = .ok (chain', true, b') ∧
      chain'.map Prod.fst = [0] := by
  refine ⟨fun h => ?_, round_after_failure ⟨0, 0, none, 0⟩ Int.toNat (by simp) (by simp)⟩
  have hnew : (new ⟨0, 0, none, 0⟩ : BatchOp 2 ℕ).Clean := Clean.new _
  have htaken := h.imp (fun b e b' hs he hb => Clean.step hb (he.taken hb) hs)
    (fun b e he hb => he.taken hb) hnew
  have hexec := (htaken.2 _ rfl).1
  rcases hexec with hposts | hneg
  · cases hposts
  · exact absurd hneg (by decide)

end BatchOp
end XStore.Xcomm.Chain
