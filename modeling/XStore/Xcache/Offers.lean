import XStore.Xcache.ErrorBound
import XStore.Xcache.Rmi
import XStore.Xcache.Snapshot

/-! What a training run over a tree offers to its samplers, whatever the tree looks like: the
pages of the offered labels are in the table. -/
namespace XStore.Xcache
open XStore.Lib XStore.Xkv XStore.Xml
variable {N : ℕ} {K V S SS : Type}

/-- A sampler adds no pair that it was not offered. -/
def Selects [SampleTrait S K] (s : S) : Prop :=
  ∀ xs s' t t', addAll xs s .empty = .ok (s', t) → SampleTrait.finalize s' t = .ok t' →
    ∀ l ∈ t'.label, l ∈ xs.map Prod.snd

/-- The table has an entry for each of the `n` pages counted so far. -/
def Numbered (it : XCacheTreeIter N K) (n : ℕ) : Prop :=
  ∃ tt, it.tt = some tt ∧ tt.size = n ∧ it.logicPageId = n

section Walk
variable [KeyType K] {it it' : XCacheTreeIter N K} {n : ℕ}

theorem Numbered.fromTT [StdSort] {m : Mem N K V} {t : XTree K}
    (h : XCacheTreeIter.fromTT m t .empty = .ok it) : Numbered it 0 := by
  rw [XCacheTreeIter.fromTT, bind_eq_ok] at h
  obtain ⟨core, -, h⟩ := h
  obtain rfl := Except.ok.inj h
  exact ⟨.empty, rfl, rfl, rfl⟩

omit [KeyType K] in
/-- At most one page is entered, and it goes into the table. -/
theorem Numbered.resetOldPtr {addr : Ptr → ℕ} {m : Mem N K V} (hn : Numbered it n)
    (h : it.resetOldPtr addr m = .ok it') : ∃ n', n ≤ n' ∧ n' ≤ n + 1 ∧ Numbered it' n' := by
  obtain ⟨tt, htt, hsize, hid⟩ := hn
  unfold XCacheTreeIter.resetOldPtr at h
  split at h
  · split at h
    · obtain ⟨p, -, h⟩ := bind_eq_ok.mp h
      rw [htt, need_some, ok_bind] at h
      obtain ⟨tt', hadd, h⟩ := bind_eq_ok.mp h
      obtain rfl := Except.ok.inj h
      obtain ⟨-, -, hadd⟩ := bind_eq_ok.mp hadd
      obtain rfl := Except.ok.inj hadd
      refine ⟨n + 1, by omega, le_rfl, _, rfl, ?_, by simp only [hid]⟩
      simp only [TT.size, List.length_append, List.length_singleton] at hsize ⊢
      omega
    · obtain rfl := Except.ok.inj h
      exact ⟨n, le_rfl, by omega, tt, htt, hsize, hid⟩
  · obtain rfl := Except.ok.inj h
    exact ⟨n, le_rfl, by omega, tt, htt, hsize, hid⟩

theorem Numbered.next [StdSort] {addr : Ptr → ℕ} {m : Mem N K V} (hn : Numbered it n)
    (h : it.next addr m = .ok it') : ∃ n', n ≤ n' ∧ n' ≤ n + 1 ∧ Numbered it' n' := by
  obtain ⟨core, -, h⟩ := bind_eq_ok.mp h
  have hcore : Numbered { it with coreIter := core } n := hn
  exact hcore.resetOldPtr h

theorem Numbered.seek [StdSort] {addr : Ptr → ℕ} {m : Mem N K V} {t : XTree K} {k : K}
    (hn : Numbered it 0) (h : it.seek addr m t k = .ok it') : ∃ n', Numbered it' n' := by
  obtain ⟨core, -, h⟩ := bind_eq_ok.mp h
  obtain ⟨tt, htt, hsize, -⟩ := hn
  have hcore : Numbered { it with logicPageId := 0, prevNode := none, coreIter := core } 0 :=
    ⟨tt, htt, hsize, rfl⟩
  obtain ⟨n', -, -, hn'⟩ := hcore.resetOldPtr h
  exact ⟨n', hn'⟩

omit [KeyType K] in
theorem Numbered.opaqueVal {l : ℕ} (hn : Numbered it n) (h : it.opaqueVal = .ok l) :
    l / N + 1 = n := by
  obtain ⟨tt, -, -, hid⟩ := hn
  obtain ⟨_, hpos, h⟩ := bind_eq_ok.mp h
  obtain ⟨_, hlt, h⟩ := bind_eq_ok.mp h
  obtain rfl := Except.ok.inj h
  have hpos : 0 < it.logicPageId := by
    by_contra hnot
    simp [hnot] at hpos
  have hlt : it.coreIter.idx < N := by
    by_contra hnot
    simp [hnot] at hlt
  rw [Nat.mul_comm, Nat.mul_add_div (by omega), Nat.div_eq_of_lt hlt]
  omega

end Walk

/-- The pairs that the loop offers: another sampler that takes them ends at the same place, and
the table has their pages and at most one more. -/
theorem labelLoop_offers [LinearOrder K] [BoundedOrder K] [StdSort] [SampleTrait S K]
    (kv : Store N K V) (e : K) {fuel : ℕ} {it it' : XCacheTreeIter N K} {s s' : S}
    {t t' : TrainSet K} {n : ℕ} (hn : Numbered it n)
    (h : labelLoop kv e fuel it s t = .ok (it', s', t')) :
    ∃ xs m, addAll xs s t = .ok (s', t') ∧ Numbered it' m ∧ n ≤ m ∧
      (∀ kl ∈ xs, kl.2 / N < m) ∧ (xs = [] → m = n) ∧
      (∀ kl, xs.getLast? = some kl → m ≤ kl.2 / N + 2) ∧
      ∀ (S₂ : Type) [SampleTrait S₂ K] (s₂ s₂' : S₂) (t₂ t₂' : TrainSet K),
        addAll xs s₂ t₂ = .ok (s₂', t₂') →
        labelLoop kv e fuel it s₂ t₂ = .ok (it', s₂', t₂') := by
  induction fuel generalizing it s t n with
  | zero => cases h
  | succ fuel ih =>
    rcases labelLoop_cases h with ⟨hends, rfl, rfl, rfl⟩ | ⟨k, l, it₁, s₁, t₁, hround, hadd₁, hrest⟩
    · refine ⟨[], n, rfl, hn, le_rfl, by simp, fun _ => rfl, by simp, ?_⟩
      intro S₂ _ s₂ s₂' t₂ t₂' hadd
      obtain ⟨rfl, rfl⟩ : s₂ = s₂' ∧ t₂ = t₂' := by simpa using hadd
      exact labelLoop_ends hends
    · obtain ⟨n₁, hle, hge, hn₁⟩ := hn.next hround.next
      obtain ⟨xs, m, hadd, hm, hnm, hpages, hnil, hlast, hother⟩ := ih hn₁ hrest
      have hpage := hn.opaqueVal hround.opaqueVal
      refine ⟨(k, l) :: xs, m, (addAll_cons_ok xs hadd₁).trans hadd, hm, by omega, ?_, by simp,
        ?_, ?_⟩
      · intro kl hkl
        cases List.mem_cons.mp hkl with
        | inl heq =>
          subst heq
          simp only
          omega
        | inr hkl => exact hpages kl hkl
      · intro kl hkl
        cases xs with
        | nil =>
          obtain rfl : (k, l) = kl := by simpa using hkl
          have := hnil rfl
          simp only
          omega
        | cons y ys => exact hlast kl (by simpa using hkl)
      · intro S₂ _ s₂ s₂' t₂ t₂' hadd₂
        rw [addAll_cons, bind_eq_ok] at hadd₂
        obtain ⟨⟨s₃, t₃⟩, hone, hrest₂⟩ := hadd₂
        exact (labelLoop_next hround hone).trans (hother S₂ s₃ s₂' t₃ t₂' hrest₂)

section Samplers

theorem selects_default : Selects ({} : DefaultSample K) := by
  intro xs s' t t' hadd hfin l hl
  rw [addAll_default] at hadd
  obtain ⟨rfl, rfl⟩ := Prod.mk.inj (Except.ok.inj hadd)
  obtain rfl := Except.ok.inj hfin
  simpa [TrainSet.empty] using hl

theorem selects_stepSampler (s : StepSampler K) : Selects s := by
  intro xs s' t t' hadd hfin l hl
  obtain ⟨c', h⟩ := addAll_stepSampler s.step xs s.curCount .empty
  obtain ⟨rfl, rfl⟩ := Prod.mk.inj (Except.ok.inj (h.symm.trans hadd))
  obtain rfl := Except.ok.inj hfin
  have hsub : (everyNth s.step s.curCount xs).Sublist xs := everyNth_sublist xs
  exact (hsub.map Prod.snd).subset (by simpa [TrainSet.empty] using hl)

/-- Everything that the sampler has emitted or holds back was offered to it. -/
structure PageSampler.From (ls : List ℕ) (s : PageSampler N K) (t : TrainSet K) : Prop where
  emitted : ∀ l ∈ t.label, l ∈ ls
  minLabel : ∀ l, s.minKeyLabel = some l → l ∈ ls
  maxLabel : ∀ l, s.maxKeyLabel = some l → l ∈ ls

namespace PageSampler.From
variable {ls : List ℕ} {s s' : PageSampler N K} {t t' : TrainSet K}

theorem push (h : From ls s t) (k : K) {l : ℕ} (hl : l ∈ ls) : From ls s (t.push k l) where
  emitted l' hl' := by
    cases List.mem_append.mp hl' with
    | inl hl' => exact h.emitted l' hl'
    | inr hl' =>
      rw [List.mem_singleton.mp hl']
      exact hl
  minLabel := h.minLabel
  maxLabel := h.maxLabel

theorem addCur (h : From ls s t) (hadd : s.addCur t = .ok t') : From ls s t' := by
  have hmax : ∀ t₁, From ls s t₁ → ({ s with minKeyInPage := none } : PageSampler N K).addCur t₁ =
      .ok t' → From ls s t' := by
    intro t₁ h₁ hadd
    cases hkey : s.maxKeyInPage with
    | none =>
      simp only [PageSampler.addCur, hkey, pure_eq_ok, ok_bind] at hadd
      obtain rfl := Except.ok.inj hadd
      exact h₁
    | some k =>
      simp only [PageSampler.addCur, hkey, pure_eq_ok, ok_bind] at hadd
      obtain ⟨l, hl, hadd⟩ := bind_eq_ok.mp hadd
      obtain ⟨l', -, hadd⟩ := bind_eq_ok.mp hadd
      obtain ⟨_, -, hadd⟩ := bind_eq_ok.mp hadd
      split at hadd
      · obtain rfl := Except.ok.inj hadd
        exact h₁.push k (h.maxLabel l (need_eq_ok.mp hl))
      · obtain rfl := Except.ok.inj hadd
        exact h₁
  cases hkey : s.minKeyInPage with
  | none =>
    refine hmax t h ?_
    rw [← hkey]
    exact hadd
  | some k =>
    simp only [PageSampler.addCur, hkey] at hadd
    obtain ⟨l, hl, hadd⟩ := bind_eq_ok.mp hadd
    exact hmax (t.push k l) (h.push k (h.minLabel l (need_eq_ok.mp hl))) hadd

theorem choose {c : Prop} [Decidable c] (h : From ls s t) (h' : From ls s' t) :
    From ls (if c then s' else s) t := by
  split <;> assumption

theorem addTo [KeyType K] {k : K} {l : ℕ} (h : From ls s t) (hl : l ∈ ls)
    (hadd : s.addTo k l t = .ok (s', t')) : From ls s' t' := by
  have hnew : ∀ l', some l = some l' → l' ∈ ls := fun l' heq => Option.some.inj heq ▸ hl
  unfold PageSampler.addTo at hadd
  split at hadd
  · obtain ⟨rfl, rfl⟩ := Prod.mk.inj (Except.ok.inj hadd)
    exact ⟨h.emitted, hnew, h.maxLabel⟩
  · obtain ⟨minLabel, -, hadd⟩ := bind_eq_ok.mp hadd
    split at hadd
    · -- the pair starts a page
      obtain ⟨t₁, hcur, hadd⟩ := bind_eq_ok.mp hadd
      obtain ⟨rfl, rfl⟩ := Prod.mk.inj (Except.ok.inj hadd)
      exact ⟨(h.addCur hcur).emitted, hnew, by simp⟩
    · obtain ⟨rfl, rfl⟩ := Prod.mk.inj (Except.ok.inj hadd)
      apply From.choose
      · apply From.choose h
        exact ⟨h.emitted, h.minLabel, hnew⟩
      · refine ⟨h.emitted, hnew, PageSampler.From.maxLabel (s := ite _ _ s) (t := t) ?_⟩
        apply From.choose h
        exact ⟨h.emitted, h.minLabel, hnew⟩

theorem addAll [KeyType K] {xs : List (K × ℕ)} (h : From ls s t) (hxs : ∀ kl ∈ xs, kl.2 ∈ ls)
    (hadd : addAll xs s t = .ok (s', t')) : From ls s' t' := by
  induction xs generalizing s t with
  | nil =>
    obtain ⟨rfl, rfl⟩ := Prod.mk.inj (Except.ok.inj hadd)
    exact h
  | cons kl xs ih =>
    rw [addAll_cons, bind_eq_ok] at hadd
    obtain ⟨⟨s₁, t₁⟩, hone, hrest⟩ := hadd
    exact ih (h.addTo (hxs kl (by simp)) hone) (fun kl hkl => hxs kl (List.mem_cons_of_mem _ hkl))
      hrest

end PageSampler.From

theorem selects_pageSampler [KeyType K] : Selects (PageSampler.new : PageSampler N K) := by
  intro xs s' t t' hadd hfin
  have hnew : PageSampler.From (xs.map Prod.snd) (PageSampler.new : PageSampler N K) .empty :=
    ⟨by simp [TrainSet.empty], by simp [PageSampler.new], by simp [PageSampler.new]⟩
  have hrun := hnew.addAll (fun kl hkl => List.mem_map_of_mem hkl) hadd
  exact (hrun.addCur hfin).emitted

end Samplers
end XStore.Xcache
