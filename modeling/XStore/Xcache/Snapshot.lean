import XStore.Lib.Blocks
import XStore.Xcache.Labelling
import XStore.Xcache.Trainer

/-! What a snapshot offers to its sampler: the labelled keys of the pages up to the end of the
range. -/
namespace XStore.Xcache
open XStore.Lib XStore.Xkv XStore.Xml
variable {N : ℕ} {K V S : Type} [LinearOrder K] [BoundedOrder K] [StdSort]

def seen (m : Mem N K V) (pages : List Ptr) (e : K) : List (K × ℕ) :=
  (labelled m 0 pages).takeWhile (fun x => decide (x.1 ≤ e))

theorem labelLoop_eq [SampleTrait S K] (kv : Store N K V) {pages : List Ptr}
    (hpages : Chain kv.mem pages) (haddr : ∀ p ∈ pages, kv.addr p < 2 ^ 56)
    {it : XCacheTreeIter N K} {xs : List (K × ℕ)} (h : CacheWalk kv.addr kv.mem it pages xs)
    {fuel : ℕ} (hfuel : xs.length < fuel) {e : K} {s s' : S} {t t' : TrainSet K}
    (hadd : addAll (xs.takeWhile (fun x => decide (x.1 ≤ e))) s t = .ok (s', t')) :
    ∃ it', labelLoop kv e fuel it s t = .ok (it', s', t') ∧
      CacheWalk kv.addr kv.mem it' pages (xs.dropWhile (fun x => decide (x.1 ≤ e))) := by
  induction xs generalizing it fuel s t with
  | nil =>
    obtain ⟨fuel, rfl⟩ := Nat.exists_eq_succ_of_ne_zero (by omega : fuel ≠ 0)
    obtain ⟨rfl, rfl⟩ : s = s' ∧ t = t' := by simpa using hadd
    exact ⟨it, labelLoop_ends (Or.inl h.nil.1), h⟩
  | cons x xs ih =>
    obtain ⟨fuel, rfl⟩ := Nat.exists_eq_succ_of_ne_zero (by omega : fuel ≠ 0)
    obtain ⟨k, l⟩ := x
    obtain ⟨hnext, hkey, hval, -⟩ := h.head
    by_cases hk : k ≤ e
    · have hgt : KeyType.gt k e = false := by simpa using hk
      rw [List.takeWhile_cons_of_pos (by simpa using hk), addAll_cons, bind_eq_ok] at hadd
      obtain ⟨⟨s₁, t₁⟩, hone, hrest⟩ := hadd
      obtain ⟨it₁, hstep, hwalk⟩ := h.next hpages haddr
      obtain ⟨it', hloop, hdone⟩ := ih hwalk (by simpa using hfuel) hrest
      have hround : OffersNext kv e it k l it₁ := ⟨hnext, hkey, hgt, hval, hstep⟩
      refine ⟨it', (labelLoop_next hround hone).trans hloop, ?_⟩
      rw [List.dropWhile_cons_of_pos (by simpa using hk)]
      exact hdone
    · rw [List.takeWhile_cons_of_neg (by simpa using hk)] at hadd
      obtain ⟨rfl, rfl⟩ : s = s' ∧ t = t' := by simpa using hadd
      have hends : LoopEnds kv e it := Or.inr ⟨hnext, k, hkey, by simpa using hk⟩
      refine ⟨it, labelLoop_ends hends, ?_⟩
      rw [List.dropWhile_cons_of_neg (by simpa using hk)]
      exact h

section Seen
variable {m : Mem N K V} {pages : List Ptr} {e : K}

theorem labelled_sorted (h : Chain m pages) (t : ℕ) :
    (labelled m t pages).Pairwise (fun a b => a.1 < b.1 ∧ a.2 < b.2) := by
  have hkeys : (labelled m t pages).Pairwise (fun a b => a.1 < b.1) := by
    rw [← List.pairwise_map (f := Prod.fst) (R := fun a b => a < b), labelled_keys]
    exact h.places_sorted
  exact hkeys.and (labelled_ascending h)

theorem mem_seen (h : Chain m pages) {k : K} (hk : k ∈ (entriesOf m pages).map Prod.fst)
    (hle : k ≤ e) : ∃ l, (k, l) ∈ seen m pages e := by
  rw [← chain_keys XTreeSIter.arranges, Multiset.mem_coe, ← labelled_keys _ 0] at hk
  obtain ⟨⟨k, l⟩, hmem, rfl⟩ := List.mem_map.mp hk
  refine ⟨l, ?_⟩
  rw [seen, takeWhile_eq_filter, List.mem_filter]
  · exact ⟨hmem, by simpa using hle⟩
  · refine (labelled_sorted h 0).imp (fun hab hb => ?_)
    simp only [decide_eq_true_eq] at hb ⊢
    exact hab.1.le.trans hb

/-- The pages of all keys seen are in the table. -/
theorem seen_visited {addr : Ptr → ℕ} {it : XCacheTreeIter N K} (hpages : Chain m pages)
    (h : CacheWalk addr m it pages
      ((labelled m 0 pages).dropWhile (fun x => decide (x.1 ≤ e)))) :
    ∃ visited, it.tt = some ⟨visited.map (pageEntry addr m)⟩ ∧ visited <+: pages ∧
      ∀ k l, (k, l) ∈ seen m pages e → l / N < visited.length := by
  obtain ⟨visited, htt, hpre, -, hend, hcur⟩ := h.table
  refine ⟨visited, htt, hpre, ?_⟩
  intro k l hkl
  have hmem : (k, l) ∈ labelled m 0 pages := (List.takeWhile_sublist _).mem hkl
  obtain ⟨j, q, hq, hdiv, -⟩ := mem_labelled hpages.distinct hmem
  have hlt := (List.getElem?_eq_some_iff.mp hq).1
  cases hrest : (labelled m 0 pages).dropWhile (fun x => decide (x.1 ≤ e)) with
  | nil =>
    rw [hrest] at h
    rw [hend h.nil.1]
    omega
  | cons y ys =>
    obtain ⟨k', l'⟩ := y
    rw [hrest] at h
    obtain ⟨hnext, -, hval, -⟩ := h.head
    -- the key where the loop stopped has a larger label
    have hsplit := List.takeWhile_append_dropWhile (l := labelled m 0 pages)
      (p := fun x => decide (x.1 ≤ e))
    rw [hrest] at hsplit
    have hasc := labelled_ascending (t := 0) hpages
    rw [← hsplit] at hasc
    have hll := (List.pairwise_append.mp hasc).2.2 _ hkl (k', l') (by simp)
    have hdiv' : l / N ≤ l' / N := Nat.div_le_div_right hll.le
    rw [hcur l' hnext hval, List.length_take]
    omega

end Seen

/-- A snapshot of the range of `t`: its pairs, as the sampler chose them, and a table that lists
the pages of all keys seen. -/
theorem Scans.snapshot [SampleTrait S K] [Inhabited V] {w : World N K V TrivalAlloc}
    {ops : List (K × V)} {addr : Ptr → ℕ} {t : XMLTrainer K} {pages : List Ptr} {fuel : ℕ}
    (h : Scans addr w ops t.startKey pages) (hfuel : ops.length < fuel) {s s' : S}
    {train train' : TrainSet K}
    (hadd : addAll (seen w.mem pages t.endKey) s .empty = .ok (s', train))
    (hfin : SampleTrait.finalize s' train = .ok train') :
    ∃ it₀ it visited, XCacheTreeIter.fromTT w.mem w.tree .empty = .ok it₀ ∧
      t.snapshpotTrainLabels fuel it₀ (⟨addr, w.mem, w.tree⟩ : Store N K V) s =
        .ok (it, s', train') ∧
      it.tt = some ⟨visited.map (pageEntry addr w.mem)⟩ ∧ visited <+: pages ∧
      ∀ k l, (k, l) ∈ seen w.mem pages t.endKey →
        ∃ p, visited[l / N]? = some p ∧ k ∈ (w.mem p).entries.map Prod.fst := by
  obtain ⟨it₀, it₁, hfrom, hseek, hwalk⟩ := h.start
  have hlen : (labelled w.mem 0 pages).length < fuel := h.length_labelled.trans_lt hfuel
  obtain ⟨it, hloop, hdone⟩ := labelLoop_eq ⟨addr, w.mem, w.tree⟩ h.chain h.addr_lt hwalk
    hlen hadd
  obtain ⟨visited, htt, hpre, hvisited⟩ := seen_visited h.chain hdone
  refine ⟨it₀, it, visited, hfrom, ?_, htt, hpre, ?_⟩
  · have hseek' : KeyIterTrait.seek t.startKey (⟨addr, w.mem, w.tree⟩ : Store N K V) it₀ =
      .ok it₁ := hseek
    simp only [XMLTrainer.snapshpotTrainLabels, hseek', ok_bind]
    rw [hloop]
    simp only [ok_bind, hfin, pure_eq_ok]
  · intro k l hkl
    obtain ⟨j, p, hp, hdiv, -, hkey⟩ :=
      mem_labelled h.chain.distinct ((List.takeWhile_sublist _).mem hkl)
    have hlt := hvisited k l hkl
    refine ⟨p, ?_, hkey⟩
    rw [List.getElem?_eq_getElem hlt, hpre.getElem hlt, ← List.getElem?_eq_getElem, hdiv,
      Nat.zero_add, hp]

end XStore.Xcache
