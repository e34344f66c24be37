import XStore.Xcache.CacheIter
import XStore.Xkv.IterOrder

/-! Where the cache iterator stands: the pages it has put into the table and the labelled keys
that are still to come. -/
namespace XStore.Xcache
open XStore.Lib XStore.Xkv
variable {N : ℕ} {K V : Type} [LinearOrder K] [BoundedOrder K] [StdSort]

def pageEntry (addr : Ptr → ℕ) (m : Mem N K V) (p : Ptr) : ℕ :=
  (addr p <<< kIncarBit) % 2 ^ 64 ||| ((m p).getIncarnation.toNat &&& kIncarMask)

omit [LinearOrder K] [BoundedOrder K] [StdSort] in
theorem pageEntry_spec (addr : Ptr → ℕ) (m : Mem N K V) (p : Ptr) (h : addr p < 2 ^ 56) :
    ((addr p <<< kIncarBit) % 2 ^ 64) >>> kIncarBit = addr p ∧
      pageEntry addr m p >>> kIncarBit = addr p ∧
      pageEntry addr m p % 2 ^ kIncarBit = (m p).getIncarnation.toNat % 2 ^ kIncarBit := by
  have hspec := TT.entry_spec h (m p).getIncarnation.toNat
  refine ⟨?_, hspec.1, hspec.2⟩
  rw [TT.shiftLeft_mod h, Nat.shiftLeft_shiftRight]

omit [LinearOrder K] [BoundedOrder K] [StdSort] in
theorem addWIncar_page (addr : Ptr → ℕ) (m : Mem N K V) (p : Ptr) (h : addr p < 2 ^ 56)
    (t : TT) : t.addWIncar (addr p) (m p).getIncarnation.toNat =
      .ok { t with entries := t.entries ++ [pageEntry addr m p] } :=
  t.addWIncar_ok h (m p).getIncarnation.toNat

/-- The keys of the pages in ascending order, each with its logic address; `t` pages come
before these. -/
def labelled (m : Mem N K V) (t : ℕ) : List Ptr → List (K × ℕ)
  | [] => []
  | p :: ps => (places XTreeSIter.load m p).map (fun x => (x.2.2, t * N + x.2.1)) ++
      labelled m (t + 1) ps

/-- The iterator has put the pages `visited` and `q` into the table, stands in `q` or at the
end, and will still yield the labelled keys `xs`. -/
def CacheWalk (addr : Ptr → ℕ) (m : Mem N K V) (it : XCacheTreeIter N K) (pages : List Ptr)
    (xs : List (K × ℕ)) : Prop :=
  ∃ visited q rest ys, pages = visited ++ q :: rest ∧
    Walk XTreeSIter.load m it.coreIter (ys ++ rest.flatMap (places XTreeSIter.load m)) ∧
    (∀ y ∈ ys, y.1 = q ∧ y.2.1 < N) ∧ (ys = [] → rest = []) ∧
    it.prevNode = some q ∧ it.logicPageId = visited.length + 1 ∧
    it.tt = some ⟨(visited ++ [q]).map (pageEntry addr m)⟩ ∧
    xs = ys.map (fun y => (y.2.2, visited.length * N + y.2.1)) ++
      labelled m (visited.length + 1) rest

namespace CacheWalk
variable {addr : Ptr → ℕ} {m : Mem N K V} {it : XCacheTreeIter N K} {pages : List Ptr}
  {xs : List (K × ℕ)} {k : K} {l : ℕ}

theorem head (h : CacheWalk addr m it pages ((k, l) :: xs)) :
    it.hasNext = true ∧ it.curKey = .ok k ∧ it.opaqueVal = .ok l ∧
      it.tt = some ⟨(pages.take (l / N + 1)).map (pageEntry addr m)⟩ := by
  obtain ⟨visited, q, rest, ys, rfl, hwalk, hys, hnil, hprev, hid, htt, hxs⟩ := h
  cases ys with
  | nil =>
    rw [hnil rfl] at hxs
    cases hxs
  | cons y ys =>
    obtain ⟨p, i, k'⟩ := y
    simp only [List.map_cons, List.cons_append, List.cons.injEq, Prod.mk.injEq] at hxs
    obtain ⟨⟨rfl, rfl⟩, -⟩ := hxs
    obtain ⟨hnext, -, hidx, hlt, hkey⟩ := hwalk.head
    refine ⟨hnext, hkey, ?_, ?_⟩
    · simp [XCacheTreeIter.opaqueVal, hid, hidx, LogicAddr.encodeLogicAddr, hlt]
    · have hdiv : (visited.length * N + i) / N = visited.length := by
        rw [Nat.mul_comm, Nat.mul_add_div (by omega), Nat.div_eq_of_lt hlt, Nat.add_zero]
      have htake : (visited ++ q :: rest).take (visited.length + 1) = visited ++ [q] := by
        simp [List.take_append]
      rw [htt, hdiv, htake]

theorem nil (h : CacheWalk addr m it pages []) :
    it.hasNext = false ∧ it.tt = some ⟨pages.map (pageEntry addr m)⟩ := by
  obtain ⟨visited, q, rest, ys, rfl, hwalk, -, hnil, -, -, htt, hxs⟩ := h
  have hys : ys = [] := by
    cases ys with
    | nil => rfl
    | cons y ys => cases hxs
  obtain rfl := hnil hys
  subst ys
  exact ⟨by simp [XCacheTreeIter.hasNext, NodeIter.hasNext, hwalk.nil], htt⟩

/-- Entering the next page, which differs from the previous one: it goes into the table. -/
theorem enter (it : XCacheTreeIter N K) {visited rest : List Ptr} {q : Ptr}
    (haddr : addr q < 2 ^ 56) (hpages : pages = visited ++ q :: rest) {t : TT}
    (ht : t = ⟨visited.map (pageEntry addr m)⟩) (hq : places XTreeSIter.load m q ≠ [])
    (hwalk : Walk XTreeSIter.load m it.coreIter
      ((q :: rest).flatMap (places XTreeSIter.load m)))
    (hprev : it.prevNode ≠ some q) (hid : it.logicPageId = visited.length)
    (htt : it.tt = some t) :
    ∃ it', it.resetOldPtr addr m = .ok it' ∧
      CacheWalk addr m it' pages (labelled m visited.length (q :: rest)) := by
  have hptr : it.coreIter.hasNext = true ∧ it.coreIter.curNodePtr = some q := by
    obtain ⟨x, xs, hx⟩ := List.exists_cons_of_ne_nil hq
    rw [List.flatMap_cons, hx, List.cons_append] at hwalk
    obtain ⟨hnext, hp, -⟩ := hwalk.head
    have hxq : x.1 = q := (mem_places (by rw [hx]; exact List.mem_cons_self)).1
    exact ⟨hnext, by rw [hp, hxq]⟩
  have hne : some q ≠ it.prevNode := Ne.symm hprev
  refine ⟨{ it with tt := some ⟨t.entries ++ [pageEntry addr m q]⟩, prevNode := some q
                    logicPageId := it.logicPageId + 1 },
    by simp [XCacheTreeIter.resetOldPtr, hptr, hne, htt, addWIncar_page addr m q haddr],
    visited, q, rest, places XTreeSIter.load m q, hpages, hwalk, ?_, fun h => absurd h hq, rfl,
    ?_, ?_, rfl⟩
  · intro y hy
    obtain ⟨hyq, hlt, -⟩ := mem_places hy
    exact ⟨hyq, hlt⟩
  · simp only [hid]
  · simp [ht]

theorem next (hpages : Chain m pages) (haddr : ∀ p ∈ pages, addr p < 2 ^ 56)
    (h : CacheWalk addr m it pages xs) :
    ∃ it', it.next addr m = .ok it' ∧ CacheWalk addr m it' pages xs.tail := by
  obtain ⟨visited, q, rest, ys, heq, hwalk, hys, hnil, hprev, hid, htt, rfl⟩ := h
  match ys, hys, hnil, hwalk with
  | [], _, hnil, hwalk =>
    obtain rfl := hnil rfl
    obtain ⟨core, hcore, hdone⟩ := Walk.next_nil (by simpa using hwalk)
    refine ⟨{ it with coreIter := core }, ?_, visited, q, [], [], heq, by simpa using hdone,
      by simp, fun _ => rfl, hprev, hid, htt, rfl⟩
    simp [XCacheTreeIter.next, XTreeSIter.next, hcore, XCacheTreeIter.resetOldPtr,
      NodeIter.hasNext, hdone.nil]
  | y :: ys, hys, _, hwalk =>
    obtain ⟨core, hcore, hwalk', -⟩ := hwalk.next XTreeSIter.arranges.loads
    cases ys with
    | cons z ys =>
      -- still in the page `q`
      have hz := hys z (by simp)
      obtain ⟨hnext, hptr, -⟩ := hwalk'.head
      refine ⟨{ it with coreIter := core }, ?_, visited, q, rest, z :: ys, heq, hwalk',
        fun x hx => hys x (List.mem_cons_of_mem y hx), by simp, hprev, hid, htt, rfl⟩
      simp [XCacheTreeIter.next, XTreeSIter.next, hcore, XCacheTreeIter.resetOldPtr, hprev, hptr,
        hz.1]
    | nil =>
      cases rest with
      | nil =>
        have hdone : Walk XTreeSIter.load m core [] := by simpa using hwalk'
        refine ⟨{ it with coreIter := core }, ?_, visited, q, [], [], heq, by simpa using hdone,
          by simp, fun _ => rfl, hprev, hid, htt, rfl⟩
        simp [XCacheTreeIter.next, XTreeSIter.next, hcore, XCacheTreeIter.resetOldPtr,
          NodeIter.hasNext, hdone.nil]
      | cons r rest =>
        have hr : r ∈ pages := by rw [heq]; simp
        have hqr : some q ≠ some r := by
          have hnd := (Chain.of_append visited (heq ▸ hpages)).nodup
          intro he
          exact (List.nodup_cons.mp hnd).1 (by rw [Option.some.inj he]; simp)
        have hsplit : pages = visited ++ [q] ++ r :: rest := by rw [heq]; simp
        obtain ⟨it', hreset, hcache⟩ := enter { it with coreIter := core } (haddr r hr) hsplit rfl
          (places_ne_nil XTreeSIter.arranges (hpages.occupied r hr)) hwalk'
          (by simpa [hprev] using hqr) (by simp [hid]) htt
        refine ⟨it', ?_, ?_⟩
        · simp [XCacheTreeIter.next, XTreeSIter.next, hcore, hreset]
        · simpa using hcache

/-- A seek with an empty table. -/
theorem of_seek (it : XCacheTreeIter N K) {t : XTree K} {p : Ptr} {ps : List Ptr}
    (hpages : Chain m (p :: ps)) (haddr : addr p < 2 ^ 56) (hfind : t.findLeaf k = .ok (some p))
    (htt : it.tt = some .empty) :
    ∃ it', it.seek addr m t k = .ok it' ∧
      CacheWalk addr m it' (p :: ps) (labelled m 0 (p :: ps)) := by
  obtain ⟨core, hseek, -, hwalk⟩ := hpages.seek XTreeSIter.arranges hfind it.coreIter
  obtain ⟨it', hreset, hcache⟩ := enter
    { it with logicPageId := 0, prevNode := none, coreIter := core } haddr
    (List.nil_append (p :: ps)).symm rfl
    (places_ne_nil XTreeSIter.arranges (hpages.occupied p (by simp))) hwalk (by simp) rfl htt
  refine ⟨it', ?_, hcache⟩
  simp [XCacheTreeIter.seek, XTreeSIter.seek, hseek, hreset]

theorem nextN (hpages : Chain m pages) (haddr : ∀ p ∈ pages, addr p < 2 ^ 56) (j : ℕ)
    (h : CacheWalk addr m it pages xs) :
    ∃ it', it.nextN addr m j = .ok it' ∧ CacheWalk addr m it' pages (xs.drop j) := by
  induction j generalizing it xs with
  | zero => exact ⟨it, rfl, h⟩
  | succ j ih =>
    obtain ⟨it₁, hnext, h₁⟩ := h.next hpages haddr
    obtain ⟨it', hrun, h'⟩ := ih h₁
    refine ⟨it', by simp [XCacheTreeIter.nextN, hnext, hrun], ?_⟩
    simpa [List.drop_tail] using h'

end CacheWalk
end XStore.Xcache
