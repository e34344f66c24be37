import XStore.Xcache.CacheWalk
import XStore.Xkv.LiveScan

/-! A translation table that is filled by a program which inserts between the calls of the iterator.
No call is interrupted, so each page goes into the table with the incarnation that it had when it
was copied. -/
namespace XStore.Xcache
open XStore.Lib XStore.Xkv
variable {N : ℕ} {K V : Type} [LinearOrder K] [BoundedOrder K]

/-- A loop over the cache iterator, with the keys and the labels that it read so far. -/
structure LiveTable (N : ℕ) (K V : Type) where
  world : World N K V TrivalAlloc
  iter : XCacheTreeIter N K
  yielded : List (K × ℕ)

namespace LiveTable
variable [StdSort] [Inhabited V]

/-- One call, from its beginning to its end; without `has_next` the loop is over. -/
def exec (addr : Ptr → ℕ) (s : LiveTable N K V) :
    ScanEvent K V → Option (Res (LiveTable N K V))
  | .insert k v => some do
    let w ← s.world.insert k v
    pure { s with world := w }
  | .next =>
    if s.iter.hasNext then some do
      let k ← s.iter.curKey
      let l ← s.iter.opaqueVal
      let it ← s.iter.next addr s.world.mem
      pure { s with iter := it, yielded := s.yielded ++ [(k, l)] }
    else none

/-- A fault ends the run. -/
def step (addr : Ptr → ℕ) (s : LiveTable N K V) (e : ScanEvent K V) : Option (LiveTable N K V) :=
  (s.exec addr e).bind Except.toOption

end LiveTable

/-- The entry is that of the leaf `p` at a moment at most `n` inserts ago, when the searches for
the keys of `X` ended in it. -/
def Entered (addr : Ptr → ℕ) (n : ℕ) (w : World N K V TrivalAlloc) (X : K → Prop) (e : ℕ)
    (p : Ptr) : Prop :=
  ∃ (m₀ : Mem N K V) (d₀ : ℕ) (root₀ root : RawPtr K) (off : Ptr → List Ptr) (splits : Ptr → ℕ),
    w.tree.root = some root ∧ p ∈ root₀.leaves d₀ ∧
    Descends m₀ d₀ root₀ w.mem w.tree.depth root n off splits ∧ e = pageEntry addr m₀ p ∧
    ∀ x, X x → x ≠ ⊤ ∧ XTree.findLeafFrom x d₀ root₀ = .ok p

section Entries
variable {addr : Ptr → ℕ} {n : ℕ} {w w' : World N K V TrivalAlloc} {X Y : K → Prop} {e : ℕ}
  {p : Ptr} {root root' : RawPtr K} {ops : Multiset (K × V)} {off : Ptr → List Ptr}
  {splits : Ptr → ℕ}

theorem Entered.imp (h : Entered addr n w X e p) (hXY : ∀ x, Y x → X x) :
    Entered addr n w Y e p := by
  obtain ⟨m₀, d₀, root₀, root, off, splits, hroot, hp, hdesc, he, hX⟩ := h
  exact ⟨m₀, d₀, root₀, root, off, splits, hroot, hp, hdesc, he, fun x hx => hX x (hXY x hx)⟩

theorem Entered.descends (h : Entered addr n w X e p) (hroot : w.tree.root = some root)
    (hroot' : w'.tree.root = some root')
    (hdesc' : Descends w.mem w.tree.depth root w'.mem w'.tree.depth root' 1 off splits) :
    Entered addr (n + 1) w' X e p := by
  obtain ⟨m₀, d₀, root₀, root₁, off₁, splits₁, hroot₁, hp, hdesc, he, hX⟩ := h
  obtain rfl := Option.some.inj (hroot₁.symm.trans hroot)
  exact ⟨m₀, d₀, root₀, root', _, _, hroot', hp, hdesc.trans hdesc', he, hX⟩

theorem Entered.now [StdSort] (hN : 2 ≤ N) (h : WorldInv (fun a b => a < b) w root ops)
    (hp : p ∈ root.leaves w.tree.depth) (addr : Ptr → ℕ) (n : ℕ) :
    Entered addr n w (fun x => x ∈ keysOf (places XTreeSIter.load w.mem p))
      (pageEntry addr w.mem p) p := by
  refine ⟨w.mem, w.tree.depth, root, root, _, _, h.root_eq, hp,
    h.tree.descends_same hN Bound.lt (fun _ _ => ⟨rfl, le_rfl⟩) n, rfl, fun x hx => ?_⟩
  obtain ⟨e, he, rfl⟩ := (mem_keysOf XTreeSIter.arranges).mp hx
  exact ⟨(w.mem p).entries_ne_top he, h.tree.found hN hp he⟩

/-- Of what use an entry is: its leaf is in the tree still, and the keys that it had are in
reach of it; they are in the leaf itself while the entry has its incarnation. -/
theorem Entered.reaches (h : Entered addr n w X e p) (haddr : addr p < 2 ^ 56)
    (hworld : WorldInv (fun a b => a < b) w root ops) :
    e >>> kIncarBit = addr p ∧ p ∈ w.tree.leaves ∧ ∀ x, X x → ∃ q,
      w.tree.findLeaf x = .ok (some q) ∧
      (∃ i ≤ n, (follow (fun p => (w.mem p).next) (i + 1) (some p)).getLast? = some q) ∧
      (n < 2 ^ kIncarBit → (w.mem p).getIncarnation.toNat % 2 ^ kIncarBit = e % 2 ^ kIncarBit →
        q = p) := by
  obtain ⟨m₀, d₀, root₀, root₁, off, splits, hroot₁, hp, hdesc, rfl, hX⟩ := h
  obtain rfl := Option.some.inj (hroot₁.symm.trans hworld.root_eq)
  obtain ⟨-, hshift, hlow⟩ := pageEntry_spec addr m₀ p haddr
  refine ⟨hshift, ?_, fun x hx => ?_⟩
  · rw [XTree.leaves_of_root hroot₁]
    exact hdesc.mem_leaves hp List.mem_cons_self
  · obtain ⟨htop, hfind⟩ := hX x hx
    obtain ⟨p', -, q, hq, hfind', hnow⟩ := hdesc.home x htop
    obtain rfl := Except.ok.inj (hfind.symm.trans hfind')
    obtain ⟨i, hi, hlast, -⟩ := hdesc.reach hworld.tree.linked hp hq
    refine ⟨q, XTree.findLeaf_of_root hroot₁ hnow, ⟨i, hi, hlast⟩, fun hn hinc => ?_⟩
    have hfew := hdesc.fewSplits p
    have hzero : splits p = 0 := by
      rw [hlow, hdesc.incarnation p hp, UInt16.toNat_add, UInt16.toNat_ofNat',
        show kIncarBit = 8 from rfl] at hinc
      rw [show kIncarBit = 8 from rfl] at hn
      omega
    rw [(hdesc.unsplit p hp hzero).1] at hq
    exact List.mem_singleton.mp hq

end Entries
/-- The keys that were labelled with the page `i`, or will be. -/
def PageKeys (s : LiveTable N K V) (rest : List (Place K)) (i : ℕ) (x : K) : Prop :=
  (∃ l, (x, l) ∈ s.yielded ∧ l / N = i) ∨ i + 1 = s.iter.logicPageId ∧ x ∈ keysOf rest

structure Tabling [StdSort] (addr : Ptr → ℕ) (base ops : Multiset (K × V)) (k : K) (n : ℕ)
    (s : LiveTable N K V) (p : Ptr) (rest : List (Place K)) : Prop where
  reads : Reading XTreeSIter.load base ops k s.world s.iter.coreIter (s.yielded.map Prod.fst) p rest
  prev : s.iter.prevNode = some p
  table : ∃ tt, s.iter.tt = some tt ∧ tt.size = s.iter.logicPageId ∧
    ∀ i e, tt.entries[i]? = some e → ∃ q, Entered addr n s.world (PageKeys s rest i) e q
  started : 0 < s.iter.logicPageId
  labels : (s.yielded.map Prod.snd).Pairwise (fun a b => a < b)
  below : ∀ l ∈ s.yielded.map Prod.snd, l < s.iter.logicPageId * N
  behind : rest ≠ [] → ∀ l ∈ s.yielded.map Prod.snd,
    l < (s.iter.logicPageId - 1) * N + s.iter.coreIter.idx

section Table
variable [StdSort] {addr : Ptr → ℕ} {base ops : Multiset (K × V)} {k : K} {n : ℕ}
  {s s' : LiveTable N K V} {p : Ptr} {x y : Place K} {rest : List (Place K)}

theorem Tabling.head (h : Tabling addr base ops k n s p (x :: rest)) :
    s.iter.curKey = .ok x.2.2 ∧
      s.iter.opaqueVal = .ok ((s.iter.logicPageId - 1) * N + s.iter.coreIter.idx) ∧
      s.iter.coreIter.idx < N ∧
      (s.iter.logicPageId - 1) * N + s.iter.coreIter.idx < s.iter.logicPageId * N := by
  obtain ⟨root, b, after, -, hhold, -⟩ := h.reads.covers
  obtain ⟨-, hkey, -, -, hlt, -⟩ := hhold.head
  have hpos := h.started
  refine ⟨hkey, ?_, hlt, ?_⟩
  · simp [XCacheTreeIter.opaqueVal, LogicAddr.encodeLogicAddr, hpos, hlt]
  · calc (s.iter.logicPageId - 1) * N + s.iter.coreIter.idx
        < (s.iter.logicPageId - 1) * N + N := Nat.add_lt_add_left hlt _
      _ = s.iter.logicPageId * N := by
        rw [← Nat.succ_mul, Nat.succ_eq_add_one, Nat.sub_add_cancel hpos]

def yields (s : LiveTable N K V) (x : Place K) (it : XCacheTreeIter N K) : LiveTable N K V :=
  { s with iter := it, yielded := s.yielded ++
      [(x.2.2, (s.iter.logicPageId - 1) * N + s.iter.coreIter.idx)] }

theorem Tabling.labels_snoc (h : Tabling addr base ops k n s p (x :: rest))
    (it : XCacheTreeIter N K) :
    ((yields s x it).yielded.map Prod.snd).Pairwise (fun a b => a < b) ∧
      ∀ l ∈ (yields s x it).yielded.map Prod.snd,
        l ≤ (s.iter.logicPageId - 1) * N + s.iter.coreIter.idx := by
  have hlt := h.behind (List.cons_ne_nil _ _)
  rw [yields, List.map_append, List.map_singleton]
  refine ⟨List.pairwise_append.mpr ⟨h.labels, List.pairwise_singleton _ _, ?_⟩, ?_⟩
  · intro a ha b hb
    rw [List.mem_singleton.mp hb]
    exact hlt a ha
  · intro l hl
    cases List.mem_append.mp hl with
    | inl hl => exact (hlt l hl).le
    | inr hl => exact (List.mem_singleton.mp hl).le

theorem PageKeys.of_yields (h : Tabling addr base ops k n s p (x :: rest))
    {it : XCacheTreeIter N K} {rest' : List (Place K)} {i : ℕ} {a : K}
    (hold : ∀ a, i + 1 = it.logicPageId → a ∈ keysOf rest' →
      i + 1 = s.iter.logicPageId ∧ a ∈ keysOf rest)
    (ha : PageKeys (yields s x it) rest' i a) : PageKeys s (x :: rest) i a := by
  obtain ⟨-, -, hidx, -⟩ := h.head
  have hpos := h.started
  have hdiv : ((s.iter.logicPageId - 1) * N + s.iter.coreIter.idx) / N =
      s.iter.logicPageId - 1 := by
    rw [Nat.mul_comm, Nat.mul_add_div (by omega), Nat.div_eq_of_lt hidx, Nat.add_zero]
  rcases ha with ⟨l, hl, hli⟩ | ⟨hi, ha⟩
  · cases List.mem_append.mp hl with
    | inl hl => exact Or.inl ⟨l, hl, hli⟩
    | inr hl =>
      obtain ⟨rfl, rfl⟩ := Prod.mk.inj (List.mem_singleton.mp hl)
      exact Or.inr ⟨by omega, List.mem_cons_self⟩
  · obtain ⟨hi', ha'⟩ := hold a hi ha
    exact Or.inr ⟨hi', List.mem_cons_of_mem _ ha'⟩

theorem Tabling.step (h : Tabling addr base ops k n s p (x :: y :: rest)) :
    ∃ it, s.iter.next addr s.world.mem = .ok it ∧
      Tabling addr base ops k n (yields s x it) p (y :: rest) := by
  obtain ⟨core, hstep, hreads⟩ := h.reads.step
  obtain ⟨root, b, after, -, hhold, -⟩ := h.reads.covers
  obtain ⟨root', b', after', -, hhold', -⟩ := hreads.covers
  obtain ⟨-, -, -, -, -, hahead⟩ := hhold.head
  obtain ⟨hptr, -, hidx, -⟩ := hhold'.head
  obtain ⟨-, -, -, hpage⟩ := h.head
  obtain ⟨tt, htt, hsize, hentries⟩ := h.table
  have hmore : s.iter.coreIter.idx < core.idx := by
    rw [hidx]
    exact hahead y List.mem_cons_self
  obtain ⟨hlabels, hle⟩ := h.labels_snoc { s.iter with coreIter := core }
  refine ⟨{ s.iter with coreIter := core }, ?_, ⟨?_, h.prev, ⟨tt, htt, hsize, ?_⟩, h.started,
    hlabels, fun l hl => ?_, fun _ l hl => ?_⟩⟩
  · simp [XCacheTreeIter.next, XTreeSIter.next, hstep, XCacheTreeIter.resetOldPtr, hptr, h.prev]
  · simpa [yields] using hreads
  · intro i e he
    obtain ⟨q, hq⟩ := hentries i e he
    exact ⟨q, hq.imp (fun a ha => PageKeys.of_yields h (fun _ hi ha => ⟨hi, ha⟩) ha)⟩
  · exact lt_of_le_of_lt (hle l hl) hpage
  · exact lt_of_le_of_lt (hle l hl) (Nat.add_lt_add_left hmore _)

/-- The round behind the last place of the copy: the scan ends, or the next page goes into the
table. -/
theorem Tabling.turn (hN : 2 ≤ N) (haddr : ∀ p, addr p < 2 ^ 56)
    (h : Tabling addr base ops k n s p [x]) :
    ∃ it, s.iter.next addr s.world.mem = .ok it ∧ ∃ p' rest',
      Tabling addr base ops k n (yields s x it) p' rest' := by
  obtain ⟨core, hstep, hreads⟩ := h.reads.turn hN XTreeSIter.arranges
  obtain ⟨-, -, -, hpage⟩ := h.head
  obtain ⟨tt, htt, hsize, hentries⟩ := h.table
  cases hreads with
  | inl hreads =>
    obtain ⟨root, b, after, -, hhold, -⟩ := hreads.covers
    have hend : core.hasNext = false := by
      rw [Bool.eq_false_iff, ne_eq, hhold.hasNext_iff]
      exact fun hne => hne rfl
    obtain ⟨hlabels, hle⟩ := h.labels_snoc { s.iter with coreIter := core }
    refine ⟨{ s.iter with coreIter := core }, ?_, p, [], ?_, h.prev, ⟨tt, htt, hsize, ?_⟩,
      h.started, hlabels, fun l hl => lt_of_le_of_lt (hle l hl) hpage, fun hne => absurd rfl hne⟩
    · simp [XCacheTreeIter.next, XTreeSIter.next, hstep, XCacheTreeIter.resetOldPtr, hend]
    · simpa [yields] using hreads
    · intro i e he
      obtain ⟨q, hq⟩ := hentries i e he
      exact ⟨q, hq.imp (fun a ha => PageKeys.of_yields h
        (fun _ _ ha => absurd ha List.not_mem_nil) ha)⟩
  | inr hreads =>
    obtain ⟨q, hq, hqp, hreads⟩ := hreads
    obtain ⟨root, b, after, hworld, hhold, -⟩ := hreads.covers
    rw [XTree.leaves_of_root hworld.root_eq] at hq
    have hne := places_ne_nil (m := s.world.mem) XTreeSIter.arranges (hworld.tree.occupied q hq)
    obtain ⟨z, zs, hzs⟩ := List.exists_cons_of_ne_nil hne
    have hptr : core.hasNext = true ∧ core.curNodePtr = some q := by
      rw [hzs] at hhold
      exact ⟨hhold.hasNext_iff.mpr (List.cons_ne_nil _ _), hhold.head.1⟩
    obtain ⟨hlabels, hle⟩ := h.labels_snoc { s.iter with
      coreIter := core, tt := some ⟨tt.entries ++ [pageEntry addr s.world.mem q]⟩
      prevNode := some q, logicPageId := s.iter.logicPageId + 1 }
    have hlt := fun l hl => lt_of_le_of_lt (hle l hl) hpage
    refine ⟨_, ?_, q, places XTreeSIter.load s.world.mem q, ?_, rfl,
      ⟨_, rfl, by simp [TT.size, yields, ← hsize], ?_⟩, ?_,
      hlabels, fun l hl => ?_, fun _ l hl => ?_⟩
    · have hnew : some q ≠ some p := fun heq => hqp (Option.some.inj heq)
      simp [XCacheTreeIter.next, XTreeSIter.next, hstep, XCacheTreeIter.resetOldPtr, hptr, h.prev,
        hnew, htt, addWIncar_page addr _ q (haddr q)]
    · simpa [yields] using hreads
    · intro i e he
      by_cases hi : i < tt.entries.length
      · rw [List.getElem?_append_left hi] at he
        obtain ⟨r, hr⟩ := hentries i e he
        refine ⟨r, hr.imp (fun a ha => PageKeys.of_yields h (fun _ hid _ => ?_) ha)⟩
        change i + 1 = s.iter.logicPageId + 1 at hid
        simp only [TT.size] at hsize
        omega
      · -- the new page: no label is behind it yet
        obtain ⟨hi', rfl⟩ : i = tt.entries.length ∧ pageEntry addr s.world.mem q = e := by
          rw [List.getElem?_append_right (by omega), List.getElem?_singleton] at he
          split at he
          · exact ⟨by omega, Option.some.inj he⟩
          · cases he
        refine ⟨q, (Entered.now hN hworld hq addr n).imp (fun a ha => ?_)⟩
        rcases ha with ⟨l, hl, hli⟩ | ⟨-, ha⟩
        · have hdiv := Nat.div_lt_of_lt_mul
            (Nat.mul_comm _ N ▸ hlt l (List.mem_map_of_mem (f := Prod.snd) hl))
          simp only [TT.size] at hsize
          omega
        · exact ha
    · exact Nat.succ_pos _
    · exact (hlt l hl).trans_le (Nat.mul_le_mul_right N (Nat.le_succ _))
    · exact (hlt l hl).trans_le (Nat.le_add_right _ _)

theorem Tabling.seek (hN : 2 ≤ N) (haddr : ∀ p, addr p < 2 ^ 56) {w : World N K V TrivalAlloc}
    {root : RawPtr K} (hworld : WorldInv (fun a b => a < b) w root ops) (k : K)
    {it₀ : XCacheTreeIter N K} (htt : it₀.tt = some .empty) :
    ∃ it p rest, it₀.seek addr w.mem w.tree k = .ok it ∧
      Tabling addr ops ops k 0 ⟨w, it, []⟩ p rest := by
  obtain ⟨core, p, hseek, hp, hreads⟩ := Reading.seek hN XTreeSIter.arranges hworld k it₀.coreIter
  obtain ⟨root', b, after, -, hhold, -⟩ := hreads.covers
  have hne := places_ne_nil (m := w.mem) XTreeSIter.arranges (hworld.tree.occupied p hp)
  obtain ⟨z, zs, hzs⟩ := List.exists_cons_of_ne_nil hne
  have hptr : core.hasNext = true ∧ core.curNodePtr = some p := by
    rw [hzs] at hhold
    exact ⟨hhold.hasNext_iff.mpr (List.cons_ne_nil _ _), hhold.head.1⟩
  refine ⟨{ prevNode := some p, coreIter := core, tt := some ⟨[pageEntry addr w.mem p]⟩
            logicPageId := 1 }, p, _, ?_, hreads, rfl, ⟨_, rfl, rfl, fun i e he => ?_⟩, Nat.one_pos,
    List.Pairwise.nil, fun l hl => absurd hl List.not_mem_nil,
    fun _ l hl => absurd hl List.not_mem_nil⟩
  · simp [XCacheTreeIter.seek, XTreeSIter.seek, hseek, XCacheTreeIter.resetOldPtr, hptr, htt,
      addWIncar_page addr _ p (haddr p), TT.empty]
  · obtain ⟨rfl, rfl⟩ : i = 0 ∧ pageEntry addr w.mem p = e := by
      rw [List.getElem?_singleton] at he
      split at he
      · exact ⟨by assumption, Option.some.inj he⟩
      · cases he
    refine ⟨p, (Entered.now hN hworld hp addr 0).imp (fun a ha => ?_)⟩
    rcases ha with ⟨l, hl, -⟩ | ⟨-, ha⟩
    · exact absurd hl List.not_mem_nil
    · exact ha

variable [Inhabited V]

theorem Tabling.insert (hN : 2 ≤ N) (h : Tabling addr base ops k n s p rest) {key : K} (v : V)
    (hkey : key ≠ ⊤) (hnew : key ∉ ops.map Prod.fst) :
    ∃ w, s.world.insert key v = .ok w ∧
      Tabling addr base ((key, v) ::ₘ ops) k (n + 1) { s with world := w } p rest := by
  obtain ⟨w, hins, hreads⟩ := h.reads.insert hN v hkey hnew
  obtain ⟨root, b, after, hworld, -⟩ := h.reads.covers
  obtain ⟨root', off, splits, hworld', hdesc⟩ :=
    hworld.descends hN Bound.lt hkey (fun _ => hnew) hins
  obtain ⟨tt, htt, hsize, hentries⟩ := h.table
  refine ⟨w, hins, hreads, h.prev, ⟨tt, htt, hsize, fun i e he => ?_⟩, h.started, h.labels,
    h.below, h.behind⟩
  obtain ⟨q, hq⟩ := hentries i e he
  exact ⟨q, hq.descends hworld.root_eq hworld'.root_eq hdesc⟩

/-- One step of a run, with a key that is new. -/
theorem Tabling.exec (hN : 2 ≤ N) (haddr : ∀ p, addr p < 2 ^ 56)
    (h : Tabling addr base ops k n s p rest) {e : ScanEvent K V}
    (hop : ∀ op ∈ e.op, op.1 ≠ ⊤ ∧ op.1 ∉ ops.map Prod.fst)
    {r : Res (LiveTable N K V)} (hexec : s.exec addr e = some r) :
    ∃ s' p' rest', r = .ok s' ∧
      Tabling addr base (↑e.op.toList + ops) k (n + e.op.toList.length) s' p' rest' := by
  cases e with
  | insert key v =>
    obtain ⟨hkey, hnew⟩ := hop (key, v) rfl
    obtain ⟨w, hins, h'⟩ := h.insert hN v hkey hnew
    simp only [LiveTable.exec, hins, ok_bind, pure_eq_ok, Option.some.injEq] at hexec
    exact ⟨_, p, rest, hexec.symm, h'⟩
  | next =>
    simp only [LiveTable.exec, Option.ite_none_right_eq_some, Option.some.injEq] at hexec
    obtain ⟨hnext, hr⟩ := hexec
    obtain ⟨root, b, after, -, hhold, -⟩ := h.reads.covers
    cases rest with
    | nil => exact absurd rfl (hhold.hasNext_iff.mp hnext)
    | cons x rest =>
      obtain ⟨hkey, hlabel, -⟩ := h.head
      obtain ⟨it, p', rest', hstep, h'⟩ : ∃ it p' rest',
          s.iter.next addr s.world.mem = .ok it ∧
            Tabling addr base ops k n (yields s x it) p' rest' := by
        cases rest with
        | cons y rest =>
          obtain ⟨it, hstep, h'⟩ := h.step
          exact ⟨it, p, _, hstep, h'⟩
        | nil =>
          obtain ⟨it, hstep, p', rest', h'⟩ := h.turn hN haddr
          exact ⟨it, p', rest', hstep, h'⟩
      rw [hkey, ok_bind, hlabel, ok_bind, hstep, ok_bind] at hr
      refine ⟨_, p', rest', hr.symm, ?_⟩
      simpa [ScanEvent.op, yields] using h'

/-- A table that is filled, from the leaf of `k` on, with inserts of new keys between the rounds.
Nothing fails. The keys and their labels ascend, and by the end all keys from `k` on that were there
when it began are labelled. Every entry leads to a leaf of the tree. From the entry of a label the
leaf of its key is reached by at most one link for each insert; it is that leaf itself as long as
the entry has its incarnation, with fewer inserts than the entry can count. -/
theorem table_between_inserts {ops : List (K × V)} (hN : 2 ≤ N) {w : World N K V TrivalAlloc}
    (hw : Built w ops) (haddr : ∀ p, addr p < 2 ^ 56) (k : K) (it₀ : XCacheTreeIter N K)
    (htt : it₀.tt = some .empty) :
    ∃ it, it₀.seek addr w.mem w.tree k = .ok it ∧
    ∀ (es : List (ScanEvent K V)) (s : LiveTable N K V),
      Lib.run (LiveTable.step addr) es ⟨w, it, []⟩ = some s →
      (∀ op ∈ es.filterMap ScanEvent.op, op.1 ≠ ⊤) →
      ((es.filterMap ScanEvent.op ++ ops).map Prod.fst).Nodup →
      (∀ e r, (∀ op ∈ e.op, op.1 ≠ ⊤ ∧ op.1 ∉ (es.filterMap ScanEvent.op ++ ops).map Prod.fst) →
        s.exec addr e = some r → ∃ s', r = .ok s') ∧
      (s.yielded.map Prod.fst).Pairwise (fun a b => a < b) ∧
      (s.yielded.map Prod.snd).Pairwise (fun a b => a < b) ∧
      (s.iter.hasNext = false → ∀ x ∈ ops.map Prod.fst, k ≤ x → x ∈ s.yielded.map Prod.fst) ∧
      ∃ tt, s.iter.tt = some tt ∧
        (∀ e ∈ tt.entries, ∃ p ∈ s.world.tree.leaves, e >>> kIncarBit = addr p) ∧
        ∀ x l, (x, l) ∈ s.yielded → ∃ p q e, tt.entries[LogicAddr.decodeLogicId N l]? = some e ∧
          e >>> kIncarBit = addr p ∧ s.world.tree.findLeaf x = .ok (some q) ∧
          (∃ i ≤ (es.filterMap ScanEvent.op).length,
            (follow (fun p => (s.world.mem p).next) (i + 1) (some p)).getLast? = some q) ∧
          ((es.filterMap ScanEvent.op).length < 2 ^ kIncarBit →
            (s.world.mem p).getIncarnation.toNat % 2 ^ kIncarBit = e % 2 ^ kIncarBit → q = p) := by
  obtain ⟨root₀, hinv⟩ := hw.inv hN
  obtain ⟨it, p₀, rest₀, hseek, hstart⟩ := Tabling.seek hN haddr hinv k htt
  refine ⟨it, hseek, fun es s hrun hkeys hd => ?_⟩
  obtain ⟨p, rest, h⟩ := ScanEvent.run
    (fun ops n s => ∃ p rest, Tabling addr _ ops k n s p rest)
    (fun _ _ _ _ _ h hop hexec => by
      obtain ⟨p, rest, h⟩ := h
      obtain ⟨s', p', rest', hr, h'⟩ := h.exec hN haddr hop hexec
      exact ⟨s', hr, p', rest', h'⟩) ⟨p₀, rest₀, hstart⟩ hrun hkeys (by simpa using hd)
  rw [Nat.zero_add] at h
  obtain ⟨root, b, after, hworld, hhold, hcovers⟩ := h.reads.covers
  obtain ⟨tt, htab, hsize, hentries⟩ := h.table
  refine ⟨fun e r hop hexec => ?_, ?_, h.labels, fun hend x hx hkx => ?_, tt, htab,
    fun e he => ?_, fun x l hxl => ?_⟩
  · obtain ⟨s', -, -, hs', -⟩ := h.exec hN haddr (by simpa using hop) hexec
    exact ⟨s', hs'⟩
  · exact (List.pairwise_append.mp (hcovers.sorted XTreeSIter.sorted)).1
  · have hrest : rest = [] := by
      by_contra hne
      have hmore : s.iter.hasNext = true := hhold.hasNext_iff.mpr hne
      rw [hmore] at hend
      cases hend
    subst hrest
    obtain ⟨op, hop, rfl⟩ := List.mem_map.mp hx
    exact h.reads.complete (Multiset.mem_map_of_mem Prod.fst (Multiset.mem_coe.mpr hop))
      (hw.keys op hop) hkx
  · obtain ⟨i, hi, rfl⟩ := List.mem_iff_getElem.mp he
    obtain ⟨q, hq⟩ := hentries i _ (List.getElem?_eq_getElem hi)
    obtain ⟨hshift, hleaf, -⟩ := hq.reaches (haddr q) hworld
    exact ⟨q, hleaf, hshift⟩
  · have hlt : l / N < tt.entries.length := by
      have hbound := h.below l (List.mem_map_of_mem (f := Prod.snd) hxl)
      have hid : tt.entries.length = s.iter.logicPageId := hsize
      rw [hid]
      exact Nat.div_lt_of_lt_mul (Nat.mul_comm _ N ▸ hbound)
    obtain ⟨p', hp'⟩ := hentries _ _ (List.getElem?_eq_getElem hlt)
    obtain ⟨hshift, -, hreach⟩ := hp'.reaches (haddr p') hworld
    obtain ⟨q, hfind, hlinks, hsame⟩ := hreach x (Or.inl ⟨l, hxl, rfl⟩)
    exact ⟨p', q, _, List.getElem?_eq_getElem hlt, hshift, hfind, hlinks, hsame⟩

omit [StdSort] [Inhabited V] [LinearOrder K] [BoundedOrder K] in
/-- The page that is copied splits before its second key is read. -/
theorem table_between_inserts_three :
    letI := insertionStdSort
    let addr : Ptr → ℕ := fun p => 512 * (p % 2 ^ 40)
    ∃ (w : World 2 XKey ℕ TrivalAlloc) (it : XCacheTreeIter 2 XKey) (s : LiveTable 2 XKey ℕ),
      Built w [(1, 10), (3, 30)] ∧
      XCacheTreeIter.seek addr w.mem w.tree 1 ⟨none, .init, some .empty, 0⟩ = .ok it ∧
      Lib.run (LiveTable.step addr) [.next, .insert 2 20, .next] ⟨w, it, []⟩ = some s ∧
      (s.yielded.map Prod.fst).Pairwise (fun a b => a < b) ∧
      (s.yielded.map Prod.snd).Pairwise (fun a b => a < b) := by
  let : StdSort := insertionStdSort
  intro addr
  obtain ⟨w, hrun, -⟩ := Ready.insertAll (le_refl 2) (K := XKey) (V := ℕ)
    (Or.inl ⟨fun _ => XNode.new, rfl, rfl⟩) [(1, 10), (3, 30)] (by decide) (by decide)
  have hw : Built w [(1, 10), (3, 30)] :=
    ⟨⟨_, hrun⟩, List.cons_ne_nil _ _, by decide, by decide⟩
  have haddr : ∀ p, addr p < 2 ^ 56 := by
    intro p
    have hmod := Nat.mod_lt p (show 0 < 2 ^ 40 by decide)
    change 512 * (p % 2 ^ 40) < 2 ^ 56
    omega
  obtain ⟨it, hseek, hscan⟩ := table_between_inserts (le_refl 2) hw haddr 1
    ⟨none, .init, some .empty, 0⟩ rfl
  have hgo : ((World.init (fun _ => XNode.new : Mem 2 XKey ℕ)).insertAll [(1, 10), (3, 30)] >>=
      fun w => XCacheTreeIter.seek addr w.mem w.tree 1 ⟨none, .init, some .empty, 0⟩ >>= fun it =>
        pure (Lib.run (LiveTable.step addr) [.next, .insert 2 20, .next]
          ⟨w, it, []⟩).isSome) = .ok true := by decide +kernel
  rw [hrun, ok_bind, hseek, ok_bind, pure_eq_ok, Except.ok.injEq] at hgo
  obtain ⟨s, hs⟩ := Option.isSome_iff_exists.mp hgo
  obtain ⟨-, hsorted, hlabels, -⟩ := hscan _ s hs (by decide) (by decide)
  exact ⟨w, it, s, hw, hseek, hs, hsorted, hlabels⟩

end Table
end XStore.Xcache
