import XStore.Xcomm.BatchChain
import XStore.Ycsb.Eval

/-! A lookup by a client of data_dist (eval_c.hh): up to 200 pages, which it reads in batches
of 16. -/
namespace XStore.DataDist
open XStore.Lib XStore.Xkv XStore.Xcache XStore.Xcomm XStore.Xml
open XStore.Ycsb (Coroutine evalWRpc searchPages readValue pageRange pageCount toUsize)
variable {A V M₁ M₂ : Type} [Plain V]

def kMaxBatch : ℕ := 200

/-- What `core_eval` reads of a page: the keys and the incarnation in front of the values. -/
def readSz : ℕ := XNode.valueStartOffset Ycsb.kNPageKey XKey

def bufSz : ℕ := kMaxBatch * 128

/-- The connection of a client: how it makes the id of a request, what the NIC makes of the posts
one after the other, and the memory at its other end. -/
structure Conn where
  enc : ℤ → ℕ
  nic : ℕ → Chain.Nic
  ram : ℕ → Byte

/-- The state of the loop that fetches the pages. `batches` are the reads posted so far. -/
structure Fetch where
  reqs : Chain.BatchOp 16 ReadOp
  current : ℕ
  mem : ℕ → Byte
  batches : List (List ReadOp)

namespace Fetch

/-- `op₀` is what the constructor of an op leaves. -/
def start (op₀ : Chain.Op ReadOp) (mem : ℕ → Byte) : Fetch where
  reqs := Chain.BatchOp.new op₀
  current := 0
  mem := mem
  batches := []

/-- `execute_async`, which must return Ok. -/
def flush (c : Conn) (s : Fetch) : Res Fetch := do
  let (chain, ok, reqs) ← s.reqs.executeAsync c.enc (c.nic s.batches.length)
  ensure ok .batchPosted
  let reads := chain.map (fun x => x.2.req)
  pure { s with reqs := reqs, mem := reads.foldl (ReadOp.execute c.ram) s.mem
                batches := s.batches ++ [reads] }

def page (c : Conn) (rbuf : ℕ → Res ℕ) (buf ns : ℕ) (s : Fetch) (i : ℕ) : Res Fetch := do
  let addr ← rbuf (ns + i)
  let reqs ← s.reqs.fill (Chain.setReq ⟨addr, buf + readSz * i, readSz⟩)
  let s := { s with reqs := reqs, current := s.current + 1 }
  if s.current = 16 then do
    let s ← s.flush c
    pure { s with reqs := s.reqs.reset, current := 0 }
  else pure s

def pages (c : Conn) (rbuf : ℕ → Res ℕ) (buf ns count : ℕ) (s : Fetch) : Res Fetch := do
  let s ← (List.range count).foldlM (page c rbuf buf ns) s
  if s.current > 0 then s.flush c else pure s

end Fetch

section CoreEval
variable [Usize] [DoubleArith] [MlTrait M₁ XKey] [MlTrait M₂ XKey]

def evalPages (c : Conn) (op₀ : Chain.Op ReadOp) (co : Coroutine A) (tt : TT) (ns count : ℕ)
    (key : XKey) : Res (RPCCore A × V) := do
  let s ← (Fetch.start op₀ co.core.mem).pages c tt.getWoIncar co.myBuf ns count
  searchPages s.mem co.myBuf readSz key (fun i idx => do
    let addr ← tt.getWoIncar (ns + i)
    pure (readValue c.ram s.mem co addr idx)) (List.range count)

def coreEval (cache : LocalTwoRMI M₁ M₂) (tts : List TT) (c : Conn) (op₀ : Chain.Op ReadOp)
    (co : Coroutine A) (key : XKey) : Res (Ycsb.Eval A V) := do
  let m := cache.selectSecModel key
  let range ← cache.getPredictRange key
  let tt ← need tts[m]? .outOfRange
  ensure (decide (tt.size > 0)) .tableNotEmpty
  let (ns, ne) := pageRange tt range
  if toUsize (ne - ns + 1) > kMaxBatch then do
    let (core, req) ← evalWRpc V co key
    pure (.waits core req)
  else do
    let (core, v) ← evalPages c op₀ co tt ns.toNat (pageCount ns ne) key
    pure (.done core v)

end CoreEval

namespace Fetch
variable {c : Conn} {rbuf : ℕ → Res ℕ} {g : ℕ → ℕ} {buf ns count : ℕ} {s : Fetch}
  {xs done : List ReadOp} {mem : ℕ → Byte}

def Serves (c : Conn) : Prop := ∀ k, (c.nic k).posts = true ∧ (c.nic k).completes = true

def pageRead (g : ℕ → ℕ) (buf i : ℕ) : ReadOp := ⟨g i, buf + readSz * i, readSz⟩

/-- The reads `done` have been posted, in batches that are not too long, and `xs` are still in the
batch. -/
structure Holds (c : Conn) (mem : ℕ → Byte) (s : Fetch) (done xs : List ReadOp) : Prop where
  ready : s.reqs.Ready xs
  posted : s.batches.flatten = done
  short : ∀ batch ∈ s.batches, batch.length ≤ 16
  mem : s.mem = done.foldl (ReadOp.execute c.ram) mem

theorem Holds.start (c : Conn) (op₀ : Chain.Op ReadOp) (mem : ℕ → Byte) :
    (start op₀ mem).Holds c mem [] [] where
  ready := Chain.BatchOp.Ready.new op₀
  posted := rfl
  short := by simp [Fetch.start]
  mem := rfl

theorem Holds.flush (hc : Serves c) (h : s.Holds c mem done xs) (hne : xs ≠ []) :
    ∃ s', s.flush c = .ok s' ∧ s'.Holds c mem (done ++ xs) [] ∧ s'.current = s.current := by
  obtain ⟨hposts, hcompletes⟩ := hc s.batches.length
  obtain ⟨chain, reqs, hexec, hchain, hreqs⟩ := h.ready.executeAsync c.enc hne hposts
  rw [hcompletes] at hexec
  have hlen : xs.length ≤ 16 := h.ready.holds.length_le
  refine ⟨{ s with reqs := reqs, mem := xs.foldl (ReadOp.execute c.ram) s.mem
                   batches := s.batches ++ [xs] }, ?_, ⟨hreqs, ?_, ?_, ?_⟩, rfl⟩
  · simp only [Fetch.flush, hexec, hchain, ok_bind, ensure_true, pure_eq_ok]
  · rw [List.flatten_append, h.posted, List.flatten_singleton]
  · intro batch hbatch
    rcases List.mem_append.mp hbatch with hold | hnew
    · exact h.short batch hold
    · rw [List.mem_singleton.mp hnew]
      exact hlen
  · rw [List.foldl_append, ← h.mem]

theorem Holds.page (hc : Serves c) (buf : ℕ) {i : ℕ} (hr : rbuf (ns + i) = .ok (g i))
    (h : s.Holds c mem done xs) (hcur : s.current = xs.length) (hlt : xs.length < 16) :
    ∃ s' done' xs', s.page c rbuf buf ns i = .ok s' ∧ s'.Holds c mem done' xs' ∧
      s'.current = xs'.length ∧ xs'.length < 16 ∧
      done' ++ xs' = done ++ xs ++ [pageRead g buf i] := by
  obtain ⟨reqs, hfill, hreqs⟩ := h.ready.fill hlt (pageRead g buf i)
  have hmore : ({ s with reqs := reqs, current := s.current + 1 } : Fetch).Holds c mem done
      (xs ++ [pageRead g buf i]) := ⟨hreqs, h.posted, h.short, h.mem⟩
  rw [pageRead] at hfill
  by_cases hfull : s.current + 1 = 16
  · obtain ⟨s', hflush, hs', -⟩ := hmore.flush hc (by simp)
    have hreset : s'.reqs.reset.Ready [] := ⟨hs'.ready.whole, rfl, by
      simp [Xcomm.BatchOp.posted, Chain.BatchOp.toReads]⟩
    refine ⟨{ s' with reqs := s'.reqs.reset, current := 0 }, _, [], ?_,
      ⟨hreset, hs'.posted, hs'.short, hs'.mem⟩, rfl, by decide, by simp⟩
    simp only [Fetch.page, hr, hfill, if_pos hfull, hflush, ok_bind, pure_eq_ok]
  · refine ⟨_, done, _, ?_, hmore, ?_, ?_, by simp⟩
    · simp only [Fetch.page, hr, hfill, ok_bind, pure_eq_ok, if_neg hfull]
    · simp [hcur]
    · rw [List.length_append, List.length_singleton]
      omega

theorem Holds.loop (hc : Serves c) (buf : ℕ) (is : List ℕ)
    (hr : ∀ i ∈ is, rbuf (ns + i) = .ok (g i))
    (h : s.Holds c mem done xs) (hcur : s.current = xs.length) (hlt : xs.length < 16) :
    ∃ s' done' xs', is.foldlM (Fetch.page c rbuf buf ns) s = .ok s' ∧ s'.Holds c mem done' xs' ∧
      s'.current = xs'.length ∧ done' ++ xs' = done ++ xs ++ is.map (pageRead g buf) := by
  induction is generalizing s done xs with
  | nil => exact ⟨s, done, xs, rfl, h, hcur, by simp⟩
  | cons i is ih =>
    obtain ⟨s₁, done₁, xs₁, hpage, h₁, hcur₁, hlt₁, heq₁⟩ :=
      h.page hc buf (hr i List.mem_cons_self) hcur hlt
    obtain ⟨s', done', xs', hrest, h', hcur', heq'⟩ :=
      ih (fun j hj => hr j (List.mem_cons_of_mem i hj)) h₁ hcur₁ hlt₁
    refine ⟨s', done', xs', ?_, h', hcur', ?_⟩
    · rw [List.foldlM_cons, hpage, ok_bind, hrest]
    · rw [heq', heq₁, List.map_cons, List.append_assoc]
      rfl

/-- All pages are read, each once and in their order, in batches of at most 16. -/
theorem pages_ok (hc : Serves c) (op₀ : Chain.Op ReadOp) (mem : ℕ → Byte) (buf : ℕ)
    (hr : ∀ i < count, rbuf (ns + i) = .ok (g i)) :
    ∃ s', (start op₀ mem).pages c rbuf buf ns count = .ok s' ∧
      s'.batches.flatten = (List.range count).map (pageRead g buf) ∧
      (∀ batch ∈ s'.batches, batch.length ≤ 16) ∧
      s'.mem = ((List.range count).map (pageRead g buf)).foldl (ReadOp.execute c.ram) mem := by
  obtain ⟨s₁, done, xs, hloop, h₁, hcur, heq⟩ := (Holds.start c op₀ mem).loop hc buf
    (List.range count) (fun i hi => hr i (List.mem_range.mp hi)) rfl (by decide)
  rw [List.nil_append, List.nil_append] at heq
  by_cases hrest : s₁.current > 0
  · have hne : xs ≠ [] := by
      rintro rfl
      rw [hcur] at hrest
      exact absurd hrest (by decide)
    obtain ⟨s', hflush, hs', -⟩ := h₁.flush hc hne
    refine ⟨s', ?_, hs'.posted.trans heq, hs'.short, heq ▸ hs'.mem⟩
    simp only [pages, hloop, ok_bind, if_pos hrest, hflush]
  · have hnil : xs = [] := List.length_eq_zero_iff.mp (by omega)
    rw [hnil, List.append_nil] at heq
    refine ⟨s₁, ?_, h₁.posted.trans heq, h₁.short, heq ▸ h₁.mem⟩
    simp only [pages, hloop, ok_bind, if_neg hrest, pure_eq_ok]

/-- Each page of a range is read once, to a place of its own in the buffer. -/
structure Covers (tt : TT) (buf ns ne : ℕ) (s : Fetch) : Prop where
  each : ∃ g : ℕ → ℕ, (∀ p, ns ≤ p → p ≤ ne → tt.getWoIncar p = .ok (g p)) ∧
    s.batches.flatten = (List.range' ns (ne + 1 - ns)).map
      (fun p => ⟨g p, buf + readSz * (p - ns), readSz⟩)
  short : ∀ batch ∈ s.batches, batch.length ≤ 16
  apart : s.batches.flatten.Pairwise (fun a b => a.payload + a.sz ≤ b.payload)

def Inside (buf : ℕ) (s : Fetch) : Prop :=
  ∀ op ∈ s.batches.flatten, buf ≤ op.payload ∧ op.payload + op.sz ≤ buf + bufSz

theorem readSz_eq : readSz = 130 := rfl

theorem pairwise_pageReads (g : ℕ → ℕ) (buf count : ℕ) :
    ((List.range count).map (pageRead g buf)).Pairwise
      (fun a b => a.payload + a.sz ≤ b.payload) := by
  rw [List.pairwise_map]
  refine List.pairwise_lt_range.imp (fun {i j} hij => ?_)
  simp only [pageRead, readSz_eq]
  omega

theorem inside_iff {reads : List ReadOp} (h : reads = (List.range count).map (pageRead g buf))
    (hpos : 0 < count) : (∀ op ∈ reads, buf ≤ op.payload ∧ op.payload + op.sz ≤ buf + bufSz) ↔
      readSz * count ≤ bufSz := by
  subst h
  simp only [List.forall_mem_map, List.mem_range, pageRead, readSz_eq]
  constructor
  · intro h
    have hlast := (h (count - 1) (by omega)).2
    omega
  · intro h i hi
    omega

theorem covers_pages (hc : Serves c) (op₀ : Chain.Op ReadOp) (mem : ℕ → Byte) (buf : ℕ) {tt : TT}
    {ne : ℕ} (hle : ns ≤ ne) (hne : ne < tt.size) (hint : ne < 2 ^ 31) :
    ∃ s, (start op₀ mem).pages c tt.getWoIncar buf ns (ne + 1 - ns) = .ok s ∧
      s.Covers tt buf ns ne ∧ (s.Inside buf ↔ readSz * (ne + 1 - ns) ≤ bufSz) := by
  have hget : ∀ p ≤ ne, tt.getWoIncar p = .ok (tt.entries.getD p 0 >>> kIncarBit) := by
    intro p hp
    have hlt : p < tt.entries.length := by
      unfold TT.size at hne
      omega
    exact TT.getWoIncar_eq (by omega) (by simp [hlt])
  obtain ⟨s, hpages, hreads, hshort, -⟩ := pages_ok hc op₀ mem buf
    (fun i (hi : i < ne + 1 - ns) => hget (ns + i) (by omega))
  refine ⟨s, hpages, ⟨⟨_, fun p _ hp => hget p hp, ?_⟩, hshort, ?_⟩, inside_iff hreads (by omega)⟩
  · rw [hreads, List.range'_eq_map_range, List.map_map]
    refine List.map_congr_left (fun i _ => ?_)
    simp [pageRead]
  · rw [hreads]
    exact pairwise_pageReads _ _ _

/-- A lookup that reads its pages itself reads each page of its range once, in batches of at most
16 and to places of their own. The places are inside the buffer exactly for 196 pages or fewer. -/
theorem pages_inside_iff (hc : Serves c) (op₀ : Chain.Op ReadOp) (mem : ℕ → Byte) {tt : TT}
    {ne : ℕ} (hle : ns ≤ ne) (hne : ne < tt.size) (hint : ne < 2 ^ 31) :
    (∃ s, (start op₀ mem).pages c tt.getWoIncar buf ns (ne + 1 - ns) = .ok s ∧
      s.Covers tt buf ns ne ∧ s.Inside buf) ↔ ne - ns + 1 ≤ 196 := by
  obtain ⟨s, hpages, hcovers, hinside⟩ := covers_pages hc op₀ mem buf hle hne hint
  have hcount : readSz * (ne + 1 - ns) ≤ bufSz ↔ ne - ns + 1 ≤ 196 := by
    simp only [readSz_eq, bufSz, kMaxBatch]
    omega
  rw [← hcount, ← hinside]
  constructor
  · rintro ⟨s', hpages', -, hinside'⟩
    obtain rfl := Except.ok.inj (hpages.symm.trans hpages')
    exact hinside'
  · intro h
    exact ⟨s, hpages, hcovers, h⟩

def goodConn : Conn := ⟨Int.toNat, fun _ => ⟨true, true⟩, fun _ => 0⟩

theorem goodConn_serves : Serves goodConn := fun _ => ⟨rfl, rfl⟩

/-- Twenty pages of a table of forty, in two batches. -/
theorem pages_inside_twenty :
    ((∃ s, (start ⟨⟨0, 0, 0⟩, 0, none, 0⟩ fun _ => 0).pages goodConn
        (TT.mk (List.replicate 40 256)).getWoIncar 4096 1 20 = .ok s ∧
      s.Covers (TT.mk (List.replicate 40 256)) 4096 1 20 ∧ s.Inside 4096) ↔ 20 - 1 + 1 ≤ 196) ∧
    ((start ⟨⟨0, 0, 0⟩, 0, none, 0⟩ fun _ => 0).pages goodConn
      (TT.mk (List.replicate 40 256)).getWoIncar 4096 1 20).toOption.map
        (fun s => s.batches.map List.length) = some [16, 4] :=
  ⟨pages_inside_iff goodConn_serves _ _ (by decide) (by decide) (by decide), by decide +kernel⟩

/-- With 200 pages, as many as the lookup reads itself, the last slots are behind the buffer. -/
theorem pages_outside_two_hundred :
    200 ≤ kMaxBatch ∧ ¬ ∃ s, (start ⟨⟨0, 0, 0⟩, 0, none, 0⟩ fun _ => 0).pages goodConn
        (TT.mk (List.replicate 200 256)).getWoIncar 4096 0 200 = .ok s ∧
      s.Covers (TT.mk (List.replicate 200 256)) 4096 0 199 ∧ s.Inside 4096 := by
  have hsize : (TT.mk (List.replicate 200 256)).size = 200 := List.length_replicate
  obtain ⟨s, hpages, -, hinside⟩ := covers_pages goodConn_serves ⟨⟨0, 0, 0⟩, 0, none, 0⟩
    (fun _ => 0) 4096 (show 0 ≤ 199 by decide) (by rw [hsize]; decide) (by decide)
  refine ⟨le_refl _, ?_⟩
  rintro ⟨s', hpages', -, hinside'⟩
  obtain rfl := Except.ok.inj (hpages.symm.trans hpages')
  exact absurd (hinside.mp hinside') (by decide)

end Fetch
end XStore.DataDist
