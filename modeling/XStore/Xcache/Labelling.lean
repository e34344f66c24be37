import XStore.Xcache.CacheWalk
import Mathlib.Data.Fintype.Card
import Mathlib.Order.Interval.Finset.Fin

/-! The labels are exact: page index times `N` plus the rank of the key in its page. -/
namespace XStore.Xcache
open XStore.Lib XStore.Xkv
variable {N : ℕ} {K V : Type} [LinearOrder K] [BoundedOrder K]

/-- How many slots of the leaf hold a smaller key; holes hold the largest one. -/
def rank (n : XNode N K V) (k : K) : ℕ :=
  (List.finRange N).countP (fun i => decide (n.getKey i < k))

section Rank
variable [StdSort] {m : Mem N K V} {p : Ptr}

theorem load_lt_iff (hd : ((m p).entries.map Prod.fst).Nodup) {i : Fin N}
    (hi : (XTreeSIter.load none (m p).keys).keys i ≠ ⊤) (j : Fin N) :
    (XTreeSIter.load none (m p).keys).keys j < (XTreeSIter.load none (m p).keys).keys i ↔
      j < i := by
  set keys := (XTreeSIter.load none (m p).keys).keys with hkeys
  have hmono : ∀ a b : Fin N, a < b → keys a ≤ keys b := by
    intro a b hab
    have h := List.pairwise_iff_getElem.mp (XTreeSIter.sorted (m p).keys) a b (by simp)
      (by simp) hab
    simpa [List.getElem_ofFn] using h
  have hinj : ∀ j, keys j = keys i → j = i := by
    intro j hij
    have hnd := hd
    rw [← places_keys XTreeSIter.arranges, places, placesFrom, List.drop_zero, List.map_map,
      Multiset.coe_nodup] at hnd
    refine List.inj_on_of_nodup_map hnd ?_ ?_ hij
    · simpa [← hkeys, hij] using hi
    · simpa [← hkeys] using hi
  constructor
  · intro hlt
    by_contra hge
    cases lt_or_eq_of_le (not_lt.mp hge) with
    | inl h => exact absurd (hmono i j h) (not_le.mpr hlt)
    | inr h => exact absurd hlt (by rw [h]; exact lt_irrefl _)
  · intro hlt
    refine lt_of_le_of_ne (hmono j i hlt) (fun he => ?_)
    exact hlt.ne (hinj j he)

/-- The slot of a key among the sorted ones is its rank. -/
theorem places_rank (hd : ((m p).entries.map Prod.fst).Nodup) {x : Place K}
    (hx : x ∈ places XTreeSIter.load m p) : x.2.1 = rank (m p) x.2.2 := by
  obtain ⟨i, hi, rfl⟩ := (mem_placesFrom _ _ _).mp hx
  set k := (XTreeSIter.load none (m p).keys).keys i with hk
  have hperm := XTreeSIter.arranges.perm (m p).keys
  have hcount := hperm.countP_eq (fun a => decide (a < k))
  rw [List.ofFn_eq_map, List.ofFn_eq_map, List.countP_map, List.countP_map] at hcount
  change i.val = (List.finRange N).countP ((fun a => decide (a < k)) ∘ (m p).keys.keys)
  have hlow : ((fun a => decide (a < k)) ∘ (XTreeSIter.load none (m p).keys).keys) =
      fun j => decide (j < i) := by
    funext j
    exact decide_eq_decide.mpr (load_lt_iff hd hi j)
  rw [← hcount, hlow, List.countP_eq_length_filter,
    ← List.toFinset_card_of_nodup ((List.nodup_finRange N).filter _)]
  have hset : ((List.finRange N).filter (fun j => decide (j < i))).toFinset = Finset.Iio i := by
    ext j
    simp
  rw [hset, Fin.card_Iio]

end Rank

section Labelled
variable [StdSort] {m : Mem N K V} {ps : List Ptr} {t : ℕ}

theorem labelled_keys (m : Mem N K V) (t : ℕ) (ps : List Ptr) : (labelled m t ps).map Prod.fst =
    (ps.flatMap (places XTreeSIter.load m)).map (fun x => x.2.2) := by
  induction ps generalizing t with
  | nil => rfl
  | cons p ps ih =>
    rw [labelled, List.map_append, ih, List.flatMap_cons, List.map_append, List.map_map]
    rfl

theorem mem_labelled (hd : ∀ p ∈ ps, ((m p).entries.map Prod.fst).Nodup) {k : K} {l : ℕ}
    (h : (k, l) ∈ labelled m t ps) :
    ∃ j q, ps[j]? = some q ∧ l / N = t + j ∧ l % N = rank (m q) k ∧
      k ∈ (m q).entries.map Prod.fst := by
  induction ps generalizing t with
  | nil => cases h
  | cons p ps ih =>
    rw [labelled, List.mem_append] at h
    cases h with
    | inl h =>
      obtain ⟨x, hx, heq⟩ := List.mem_map.mp h
      obtain ⟨rfl, rfl⟩ := Prod.mk.inj heq
      have hlt := (mem_places hx).2.1
      obtain ⟨e, he, hex⟩ := mem_places_entry XTreeSIter.arranges hx
      refine ⟨0, p, rfl, ?_, ?_, hex ▸ Multiset.mem_map_of_mem Prod.fst he⟩
      · rw [Nat.mul_comm, Nat.mul_add_div (by omega), Nat.div_eq_of_lt hlt]
      · rw [Nat.mul_comm, Nat.mul_add_mod, Nat.mod_eq_of_lt hlt]
        exact places_rank (hd p (by simp)) hx
    | inr h =>
      obtain ⟨j, q, hq, hdiv, hmod, hkey⟩ := ih (fun q hq => hd q (List.mem_cons_of_mem p hq)) h
      exact ⟨j + 1, q, by simpa using hq, by omega, hmod, hkey⟩

/-- Labels ascend strictly. -/
theorem labelled_ascending (h : Chain m ps) :
    (labelled m t ps).Pairwise (fun a b => a.2 < b.2) := by
  induction ps generalizing t with
  | nil => exact List.Pairwise.nil
  | cons p ps ih =>
    have hd := h.distinct p (by simp)
    have htail := Chain.of_append [p] h
    rw [labelled, List.pairwise_append]
    refine ⟨?_, ih htail, ?_⟩
    · rw [List.pairwise_map]
      have hslots : (places XTreeSIter.load m p).Pairwise (fun x y => x.2.1 < y.2.1) := by
        rw [places, placesFrom, List.drop_zero, List.pairwise_map]
        exact (List.pairwise_lt_finRange N).filter _
      exact hslots.imp (fun hxy => by simpa using hxy)
    · rintro ⟨k, l⟩ hx ⟨k', l'⟩ hy
      obtain ⟨x, hx', heq⟩ := List.mem_map.mp hx
      obtain ⟨rfl, rfl⟩ := Prod.mk.inj heq
      have hlt := (mem_places hx').2.1
      obtain ⟨j, q, -, hdiv, -⟩ := mem_labelled htail.distinct hy
      have hmul : (t + 1) * N ≤ l' := by
        have := Nat.div_mul_le_self l' N
        rw [hdiv] at this
        exact (Nat.mul_le_mul_right N (by omega)).trans this
      rw [Nat.add_mul] at hmul
      simp only
      omega

end Labelled

omit [LinearOrder K] [BoundedOrder K] in
theorem readFrom_curNodePtr (m : Mem N K V) (node : Option Ptr) (it : XTreePageIter N K) :
    (it.readFrom m node).curNodePtr = it.curNodePtr := by
  cases node <;> rfl

omit [LinearOrder K] [BoundedOrder K] in
theorem pages_eq_follow (m : Mem N K V) (n : ℕ) (it : XTreePageIter N K) :
    it.pages m n = follow (fun p => (m p).next) n it.curNodePtr := by
  induction n generalizing it with
  | zero => rfl
  | succ n ih =>
    cases hp : it.curNodePtr with
    | none => simp [XTreePageIter.pages, hp, follow]
    | some p =>
      have hnext : (it.next m).curNodePtr = (m p).next := by
        simp [XTreePageIter.next, hp, readFrom_curNodePtr]
      simp only [XTreePageIter.pages, hp, follow, ih, hnext]

omit [LinearOrder K] [BoundedOrder K] in
theorem getWoIncar_pages (addr : Ptr → ℕ) (m : Mem N K V) (ps : List Ptr)
    (haddr : ∀ p ∈ ps, addr p < 2 ^ 56) (i : ℕ) (hi : i < 2 ^ 31) (p : Ptr)
    (hp : ps[i]? = some p) :
    (⟨ps.map (pageEntry addr m)⟩ : TT).getWoIncar i = .ok (addr p) := by
  have hentry := (pageEntry_spec addr m p (haddr p (List.mem_of_getElem? hp))).2.1
  have hget : (ps.map (pageEntry addr m))[i]? = some (pageEntry addr m p) := by simp [hp]
  rw [TT.getWoIncar_eq hi hget, hentry]

omit [LinearOrder K] [BoundedOrder K] in
/-- All of the table is decoded exactly if its indices fit an int. -/
theorem getWoIncar_pages_iff (addr : Ptr → ℕ) (m : Mem N K V) (ps : List Ptr)
    (haddr : ∀ p ∈ ps, addr p < 2 ^ 56) :
    (∀ i p, ps[i]? = some p →
      (⟨ps.map (pageEntry addr m)⟩ : TT).getWoIncar i = .ok (addr p)) ↔ ps.length ≤ 2 ^ 31 := by
  constructor
  · intro h
    by_contra hmore
    obtain ⟨i, hi⟩ : ∃ i, i = 2 ^ 31 := ⟨_, rfl⟩
    have hlt : i < ps.length := by omega
    have hok := h i _ (List.getElem?_eq_getElem hlt)
    rw [TT.getWoIncar_raises (by omega) (by omega)] at hok
    cases hok
  · intro h i p hp
    have hlt := (List.getElem?_eq_some_iff.mp hp).1
    exact getWoIncar_pages addr m ps haddr i (by omega) p hp

section Table
variable [StdSort] {addr : Ptr → ℕ} {m : Mem N K V} {it : XCacheTreeIter N K}
  {pages visited : List Ptr} {xs : List (K × ℕ)}

theorem CacheWalk.table (h : CacheWalk addr m it pages xs) :
    ∃ visited, it.tt = some ⟨visited.map (pageEntry addr m)⟩ ∧ visited <+: pages ∧
      visited ≠ [] ∧ (it.hasNext = false → visited = pages) ∧
      ∀ l, it.hasNext = true → it.opaqueVal = .ok l → visited = pages.take (l / N + 1) := by
  cases xs with
  | nil =>
    obtain ⟨hnext, htt⟩ := h.nil
    refine ⟨pages, htt, List.prefix_refl _, ?_, fun _ => rfl, by simp [hnext]⟩
    obtain ⟨visited, q, rest, ys, rfl, -⟩ := h
    simp
  | cons x xs =>
    obtain ⟨k, l⟩ := x
    obtain ⟨hnext, -, hval, htt⟩ := h.head
    refine ⟨_, htt, List.take_prefix _ _, ?_, fun hfalse => ?_, ?_⟩
    · obtain ⟨visited, q, rest, ys, rfl, -⟩ := h
      cases visited <;> simp
    · rw [hnext] at hfalse
      cases hfalse
    · intro l' _ hval'
      rw [Except.ok.inj (hval'.symm.trans hval)]

theorem CacheWalk.label (hpages : Chain m pages) (haddr : ∀ p ∈ pages, addr p < 2 ^ 56)
    (h : CacheWalk addr m it pages xs) (hsuffix : xs <:+ labelled m 0 pages)
    (hnext : it.hasNext = true) :
    ∃ k l p, it.curKey = .ok k ∧ it.opaqueVal = .ok l ∧ pages[l / N]? = some p ∧
      k ∈ (m p).entries.map Prod.fst ∧ l % N = rank (m p) k ∧
      ∀ it' l', it.next addr m = .ok it' → it'.hasNext = true → it'.opaqueVal = .ok l' →
        l < l' := by
  cases xs with
  | nil =>
    rw [h.nil.1] at hnext
    cases hnext
  | cons x xs =>
    obtain ⟨k, l⟩ := x
    obtain ⟨-, hkey, hval, -⟩ := h.head
    obtain ⟨j, p, hp, hdiv, hmod, hmem⟩ :=
      mem_labelled hpages.distinct (hsuffix.mem (List.mem_cons_self))
    rw [Nat.zero_add] at hdiv
    refine ⟨k, l, p, hkey, hval, by rw [hdiv]; exact hp, hmem, hmod, ?_⟩
    intro it' l' hstep hnext' hval'
    obtain ⟨it₁, hstep₁, h₁⟩ := h.next hpages haddr
    obtain rfl : it' = it₁ := Except.ok.inj (hstep.symm.trans hstep₁)
    rw [List.tail_cons] at h₁
    cases xs with
    | nil =>
      rw [h₁.nil.1] at hnext'
      cases hnext'
    | cons y xs =>
      obtain ⟨k₁, l₁⟩ := y
      obtain rfl : l' = l₁ := Except.ok.inj (hval'.symm.trans h₁.head.2.2.1)
      have hasc := (labelled_ascending (t := 0) hpages).sublist hsuffix.sublist
      exact (List.pairwise_cons.mp hasc).1 (k₁, l') (by simp)

end Table

/-- The cache iterator, with an empty table, seeks `k` and goes through these pages: the leaves
that may hold a key from `k` on. -/
structure Scans (addr : Ptr → ℕ) (w : World N K V TrivalAlloc) [StdSort] (ops : List (K × V))
    (k : K) (pages : List Ptr) : Prop where
  start : ∃ it₀ it, XCacheTreeIter.fromTT w.mem w.tree .empty = .ok it₀ ∧
    it₀.seek addr w.mem w.tree k = .ok it ∧
    CacheWalk addr w.mem it pages (labelled w.mem 0 pages)
  found : w.tree.findLeaf k = .ok pages.head?
  chain : Chain w.mem pages
  addr_lt : ∀ p ∈ pages, addr p < 2 ^ 56
  keys : ∀ x ∈ ops.map Prod.fst, k ≤ x → x ∈ (entriesOf w.mem pages).map Prod.fst
  count : (entriesOf w.mem pages).card ≤ ops.length
  stores : ∀ p ∈ pages, ∀ e ∈ (w.mem p).entries, w.tree.findLeaf e.1 = .ok (some p)
  half : 1 < pages.length → ∀ p ∈ pages, N / 2 ≤ (w.mem p).entries.card

theorem Scans.exists [StdSort] [Inhabited V] (hN : 2 ≤ N) {w : World N K V TrivalAlloc}
    {ops : List (K × V)} (hw : Built w ops) {addr : Ptr → ℕ}
    (haddr : ∀ p < w.alloc.allocated, addr p < 2 ^ 56) (k : K) :
    ∃ pages, Scans addr w ops k pages := by
  obtain ⟨root, h⟩ := hw.inv hN
  obtain ⟨p₀, after₀, hfind₀, -, hchain₀, -⟩ := h.enter_bot hN
  obtain ⟨core, hcore, -, -⟩ := hchain₀.seek XTreeSIter.arranges hfind₀ .init
  obtain ⟨before, p, after, hfind, hleaves, hchain, hall, hlt⟩ := h.enter hN k
  have hleaf : ∀ q ∈ p :: after, q ∈ root.leaves w.tree.depth := by
    intro q hq
    rw [hleaves]
    exact List.mem_append_right _ hq
  have haddr' : ∀ q ∈ p :: after, addr q < 2 ^ 56 :=
    fun q hq => haddr q (h.allocated q (hleaf q hq))
  obtain ⟨it, hseek, hwalk⟩ := CacheWalk.of_seek
    { prevNode := none, coreIter := core, tt := some .empty, logicPageId := 0 }
    (hchain.of_append before) (haddr' p (by simp)) hfind rfl
  rw [entriesOf_append] at hall
  refine ⟨p :: after, ⟨_, it, ?_, hseek, hwalk⟩, hfind, hchain.of_append before, haddr', ?_, ?_,
    fun q hq e he => XTree.findLeaf_of_root h.root_eq (h.tree.found hN (hleaf q hq) he),
    fun hlen q hq => h.tree.half_of_two ?_ q (hleaf q hq)⟩
  · simp only [XCacheTreeIter.fromTT, XTreeSIter.ofTree, XTreeSIter.seek, KeyType.min_ofOrder]
    rw [hcore]
    rfl
  · intro x hx hkx
    rw [← Multiset.mem_coe, ← Multiset.map_coe, ← hall, Multiset.map_add, Multiset.mem_add] at hx
    refine hx.resolve_left (fun hx => ?_)
    obtain ⟨e, he, rfl⟩ := Multiset.mem_map.mp hx
    obtain ⟨q, hq, he⟩ := (mem_entriesOf e).mp he
    exact absurd hkx (not_le.mpr (hlt q hq e he))
  · rw [← Multiset.coe_card, ← hall, Multiset.card_add]
    omega
  · rw [hleaves, List.length_append]
    omega

theorem Scans.length_labelled [StdSort] {w : World N K V TrivalAlloc} {ops : List (K × V)}
    {addr : Ptr → ℕ} {k : K} {pages : List Ptr} (h : Scans addr w ops k pages) :
    (labelled w.mem 0 pages).length ≤ ops.length := by
  have hcount := h.count
  rw [← chain_length XTreeSIter.arranges] at hcount
  have hkeys := congrArg List.length (labelled_keys w.mem 0 pages)
  rw [List.length_map, List.length_map] at hkeys
  omega

theorem Scans.mem [StdSort] [Inhabited V] (hN : 2 ≤ N) {w : World N K V TrivalAlloc}
    {ops : List (K × V)} (hw : Built w ops) {addr : Ptr → ℕ} {k : K} {pages : List Ptr}
    (h : Scans addr w ops k pages) {p : Ptr} (hp : p ∈ pages) {e : K × V}
    (he : e ∈ (w.mem p).entries) :
    (∃ root, w.tree.root = some root ∧ p ∈ root.leaves w.tree.depth) ∧ e ∈ ops := by
  obtain ⟨root, hinv⟩ := hw.inv hN
  obtain ⟨leaf, hleaf, hfind, hent⟩ := hinv.tree.find hN ((w.mem p).entries_ne_top he)
  have hsame := h.stores p hp e he
  rw [XTree.findLeaf_of_root hinv.root_eq hfind] at hsame
  obtain rfl := Option.some.inj (Except.ok.inj hsame)
  exact ⟨⟨root, hinv.root_eq, hleaf⟩, (hent e.2).mp he⟩

/-- After a seek and any number of steps the table holds exactly the leaves visited, in the
order of the page iterator, and every key is labelled with its page and its rank there. Each
entry is decoded exactly if there are at most 2^31. -/
theorem tt_labelling_iff [StdSort] [Inhabited V] (hN : 2 ≤ N) {w : World N K V TrivalAlloc}
    {ops : List (K × V)} (hw : Built w ops) (addr : Ptr → ℕ)
    (haddr : ∀ p < w.alloc.allocated, addr p < 2 ^ 56) (k : K) (pit₀ : XTreePageIter N K) :
    ∃ it₀ it pit pages, XCacheTreeIter.fromTT w.mem w.tree .empty = .ok it₀ ∧
      it₀.seek addr w.mem w.tree k = .ok it ∧ pit₀.seek w.mem w.tree k = .ok pit ∧
      (∀ n, pages.length ≤ n → pit.pages w.mem n = pages) ∧ pages.Nodup ∧
      ∀ j, ∃ it' tt visited, it.nextN addr w.mem j = .ok it' ∧ it'.tt = some tt ∧
        visited <+: pages ∧ tt.size = visited.length ∧
        tt.entries.map (fun e => e >>> kIncarBit) = visited.map addr ∧
        (∀ i p, i < 2 ^ 31 → visited[i]? = some p → tt.getWoIncar i = .ok (addr p)) ∧
        ((∀ i p, visited[i]? = some p → tt.getWoIncar i = .ok (addr p)) ↔
          visited.length ≤ 2 ^ 31) ∧
        tt.entries.map (fun e => e % 2 ^ 8) =
          visited.map (fun p => (w.mem p).getIncarnation.toNat % 2 ^ 8) ∧
        (it'.hasNext = false → visited = pages) ∧
        (it'.hasNext = true → ∃ key l p, it'.curKey = .ok key ∧ it'.opaqueVal = .ok l ∧
          visited.getLast? = some p ∧ visited[LogicAddr.decodeLogicId N l]? = some p ∧
          (∃ slot, (w.mem p).getKey slot = key ∧ key ≠ ⊤) ∧
          LogicAddr.decodeOff N l = rank (w.mem p) key ∧
          ∀ it'' l', it'.next addr w.mem = .ok it'' → it''.hasNext = true →
            it''.opaqueVal = .ok l' → l < l') := by
  obtain ⟨pages, hscan⟩ := Scans.exists hN hw haddr k
  obtain ⟨it₀, it, hfrom, hseek, hwalk⟩ := hscan.start
  have hpages := hscan.chain
  have haddr' := hscan.addr_lt
  refine ⟨it₀, it, { pit₀ with curNodePtr := pages.head?, logicPageId := 0 }.readFrom w.mem
    pages.head?, pages, hfrom, hseek, ?_, ?_, hpages.nodup, ?_⟩
  · simp only [XTreePageIter.seek, hscan.found, ok_bind, pure_eq_ok]
  · intro n hn
    rw [pages_eq_follow, readFrom_curNodePtr]
    exact hpages.linked.follow_eq n hn
  · intro j
    obtain ⟨it', hrun, h⟩ := hwalk.nextN hpages haddr' j
    obtain ⟨visited, htt, hpre, hne, hend, hcur⟩ := h.table
    have hmem : ∀ q ∈ visited, addr q < 2 ^ 56 := fun q hq => haddr' q (hpre.mem hq)
    refine ⟨it', _, visited, hrun, htt, hpre, by simp [TT.size], ?_, ?_,
      getWoIncar_pages_iff addr w.mem visited hmem, ?_, hend, ?_⟩
    · rw [List.map_map]
      exact List.map_congr_left (fun q hq => (pageEntry_spec addr w.mem q (hmem q hq)).2.1)
    · intro i q hi hq
      exact getWoIncar_pages addr w.mem visited hmem i hi q hq
    · rw [List.map_map]
      exact List.map_congr_left (fun q hq => (pageEntry_spec addr w.mem q (hmem q hq)).2.2)
    · intro hnext
      obtain ⟨key, l, q, hkey, hval, hq, hstored, hrank, hasc⟩ :=
        h.label hpages haddr' (List.drop_suffix _ _) hnext
      have hvisited := hcur l hnext hval
      have hlast : visited[l / N]? = some q := by
        rw [hvisited, List.getElem?_take, if_pos (by omega), hq]
      refine ⟨key, l, q, hkey, hval, ?_, hlast, ((w.mem q).mem_keys key).mp hstored, hrank, hasc⟩
      have hlen : visited.length = l / N + 1 := by
        have hlt := (List.getElem?_eq_some_iff.mp hq).1
        rw [hvisited, List.length_take]
        omega
      rw [List.getLast?_eq_getElem?, hlen]
      exact hlast

theorem tt_labelling_iff_three :
    letI := insertionStdSort
    letI addr : Ptr → ℕ := fun p => 4096 + 256 * (p % 1024)
    ∃ w : World 2 XKey ℕ TrivalAlloc, Built w [(3, 30), (1, 10), (2, 20)] ∧
      ∃ it₀ it it' tt, ∃ visited : List Ptr, XCacheTreeIter.fromTT w.mem w.tree .empty = .ok it₀ ∧
        it₀.seek addr w.mem w.tree 2 = .ok it ∧ it.nextN addr w.mem 1 = .ok it' ∧
        it'.tt = some tt ∧ tt.entries.map (fun e => e >>> kIncarBit) = visited.map addr ∧
        ((∀ i p, visited[i]? = some p → tt.getWoIncar i = .ok (addr p)) ↔
          visited.length ≤ 2 ^ 31) := by
  let : StdSort := insertionStdSort
  obtain ⟨w, hw⟩ := Built.exists (le_refl 2) (fun _ => XNode.new : Mem 2 XKey ℕ)
    [(3, 30), (1, 10), (2, 20)] (by simp) (by decide) (by decide)
  obtain ⟨it₀, it, pit, pages, hfrom, hseek, -, -, -, hsteps⟩ :=
    tt_labelling_iff (le_refl 2) hw (fun p => 4096 + 256 * (p % 1024))
      (fun p _ => by have := Nat.mod_lt p (show 1024 > 0 by decide); omega) 2
      { curNode := none, curNodePtr := none, logicPageId := 0 }
  obtain ⟨it', tt, visited, hrun, htt, -, -, hentries, -, hiff, -⟩ := hsteps 1
  exact ⟨w, hw, it₀, it, it', tt, visited, hfrom, hseek, hrun, htt, hentries, hiff⟩

theorem Scans.length_le [StdSort] {w : World N K V TrivalAlloc} {ops : List (K × V)}
    {addr : Ptr → ℕ} {k : K} {pages : List Ptr} (hd : (ops.map Prod.fst).Nodup)
    (hleast : ∀ x, k ≤ x) (h : Scans addr w ops k pages) : ops.length ≤ N * pages.length := by
  have hsub : (ops.map Prod.fst : Multiset K) ≤ (entriesOf w.mem pages).map Prod.fst :=
    (Multiset.le_iff_subset (Multiset.coe_nodup.mpr hd)).mpr (fun x hx => h.keys x hx (hleast x))
  have hcard := Multiset.card_le_card hsub
  rw [Multiset.coe_card, List.length_map, Multiset.card_map] at hcard
  exact hcard.trans (card_entriesOf_le w.mem pages)

/-- The default tree with more keys than 2^31 pages hold: after a scan of all of them the table
has an entry that `get_wo_incar` does not decode. -/
theorem labelling_fails [StdSort] {n : ℕ} (hlo : 2 ^ 35 < n) (hhi : n < 2 ^ 64)
    (m : Mem 16 XKey XKey) (addr : Ptr → ℕ) (haddr : ∀ p, addr p < 2 ^ 56) :
    ∃ (w : World 16 XKey XKey TrivalAlloc) (it₀ it it' : XCacheTreeIter 16 XKey) (tt : TT)
      (visited : List Ptr) (p : Ptr), Built w (firstKeys n) ∧
      XCacheTreeIter.fromTT w.mem w.tree .empty = .ok it₀ ∧
      it₀.seek addr w.mem w.tree 0 = .ok it ∧ it.nextN addr w.mem n = .ok it' ∧
      it'.tt = some tt ∧ tt.entries.map (fun e => e >>> kIncarBit) = visited.map addr ∧
      visited[2 ^ 31]? = some p ∧ tt.getWoIncar (2 ^ 31) = .error .outOfRange := by
  have hlen : (firstKeys n).length = n := by rw [firstKeys, List.length_map, List.length_range]
  have hne : firstKeys n ≠ [] := by
    rw [← List.length_pos_iff]
    omega
  obtain ⟨w, hw⟩ := Built.exists (by decide) m (firstKeys n) hne (firstKeys_ne_top hhi)
    (firstKeys_nodup hhi.le)
  obtain ⟨pages, hscan⟩ := Scans.exists (by decide) hw (fun p _ => haddr p) 0
  have hmany := hscan.length_le (firstKeys_nodup hhi.le) Fin.zero_le
  obtain ⟨it₀, it, hfrom, hseek, hwalk⟩ := hscan.start
  obtain ⟨it', hrun, h⟩ := hwalk.nextN hscan.chain hscan.addr_lt n
  -- `n` steps leave no key to come
  rw [List.drop_eq_nil_of_le (hscan.length_labelled.trans_eq hlen)] at h
  obtain ⟨i, hi⟩ : ∃ i, i = 2 ^ 31 := ⟨_, rfl⟩
  have hlt : i < pages.length := by omega
  rw [← hi]
  refine ⟨w, it₀, it, it', _, pages, _, hw, hfrom, hseek, hrun, h.nil.2, ?_,
    List.getElem?_eq_getElem hlt, TT.getWoIncar_raises (by omega) (by omega)⟩
  rw [List.map_map]
  exact List.map_congr_left (fun q hq => (pageEntry_spec addr w.mem q (haddr q)).2.1)

/-- 2^35 + 1 keys in leaves of 16. -/
theorem not_tt_labelling :
    letI := insertionStdSort
    letI addr : Ptr → ℕ := fun p => 512 * (p % 2 ^ 40)
    ∃ (w : World 16 XKey XKey TrivalAlloc) (it₀ it it' : XCacheTreeIter 16 XKey) (tt : TT)
      (visited : List Ptr) (p : Ptr), Built w (firstKeys (2 ^ 35 + 1)) ∧
      XCacheTreeIter.fromTT w.mem w.tree .empty = .ok it₀ ∧
      it₀.seek addr w.mem w.tree 0 = .ok it ∧
      it.nextN addr w.mem (2 ^ 35 + 1) = .ok it' ∧
      it'.tt = some tt ∧ tt.entries.map (fun e => e >>> kIncarBit) = visited.map addr ∧
      visited[2 ^ 31]? = some p ∧ tt.getWoIncar (2 ^ 31) = .error .outOfRange := by
  let : StdSort := insertionStdSort
  refine labelling_fails (by omega) (by omega) (fun _ => XNode.new) _ (fun p => ?_)
  have := Nat.mod_lt p (show 0 < 2 ^ 40 by decide)
  omega

end XStore.Xcache
