import XStore.Ycsb.EvalAgree

/-! The pages that the client of variable-length values reads. `core_eval_v` takes an entry of
the table for an address, with the incarnation in it, and has room for 16 reads. -/
namespace XStore.Ycsb
open XStore.Lib XStore.Xkv XStore.Xcache XStore.Xcomm XStore.Xml
variable {pages : List (ℕ × ℕ)} {tt : TT} {range : ℤ × ℤ}

def fillTT (pages : List (ℕ × ℕ)) : Res TT :=
  pages.foldlM (fun t page => t.addWIncar page.1 page.2) .empty

def firstPageV (tt : TT) (range : ℤ × ℤ) : ℕ := (pageRangeV tt range).1.toNat
def pageCountV (tt : TT) (range : ℤ × ℤ) : ℕ :=
  pageCount (pageRangeV tt range).1 (pageRangeV tt range).2

section Reads
variable {M₁ M₂ : Type} [Usize] [DoubleArith] [MlTrait M₁ XKey] [MlTrait M₂ XKey]

/-- `core_eval_v` puts one read per page of the range into its batch, from the address of the
page, which is where `core_eval` reads it. -/
def ReadsPages (pages : List (ℕ × ℕ)) (cache : LocalTwoRMI M₁ M₂) (tts : List TT) (tt : TT)
    (range : ℤ × ℤ) (buf : ℕ) (key : XKey) : Prop :=
  ∃ reqs, batchV cache tts buf key = .ok (reqs, pageCountV tt range) ∧
    reqs.posted.length = pageCountV tt range ∧ reqs.posted.length ≤ 16 ∧
    ∀ i < pageCountV tt range, ∃ op page, reqs.posted[i]? = some op ∧
      pages[firstPageV tt range + i]? = some page ∧ op.rdmaRbuf = page.1 ∧
      tt.getWoIncar (firstPageV tt range + i) = .ok op.rdmaRbuf

theorem batchV_eq {cache : LocalTwoRMI M₁ M₂} {tts : List TT} {key : XKey}
    (hrange : cache.getPredictRange key = .ok range)
    (htt : tts[cache.selectSecModel key]? = some tt) (buf : ℕ) :
    batchV cache tts buf key = (do
      let reqs ← pageReads tt.at? buf (XNode.inplaceValueEndOffset kNPageKey XKey FatPointer)
        (firstPageV tt range) (pageCountV tt range)
      pure (reqs, pageCountV tt range)) := by
  simp only [batchV, hrange, htt, need_some, ok_bind]
  rfl

end Reads

/-- The range touches at most 16 pages, and each of them stands at address 0 and has an
incarnation without its low bits. -/
def RawRange (pages : List (ℕ × ℕ)) (range : ℤ × ℤ) : Prop :=
  min (range.2.tdiv 16) (toInt32 (pages.length - 1)) - max (range.1.tdiv 16) 0 < 16 ∧
    ∀ (p : ℕ) page, pages[p]? = some page → range.1.tdiv 16 ≤ p →
      p ≤ min (range.2.tdiv 16) (toInt32 (pages.length - 1)) →
      page.1 = 0 ∧ page.2 % 2 ^ kIncarBit = 0

theorem fillTT_eq (haddr : ∀ page ∈ pages, page.1 < 2 ^ 56) :
    fillTT pages = .ok ⟨pages.map (fun page => TT.entry page.1 page.2)⟩ := by
  have hfold : ∀ (t : TT) (ps : List (ℕ × ℕ)), (∀ page ∈ ps, page.1 < 2 ^ 56) →
      ps.foldlM (fun t page => t.addWIncar page.1 page.2) t =
        .ok ⟨t.entries ++ ps.map (fun page => TT.entry page.1 page.2)⟩ := by
    intro t ps hps
    induction ps generalizing t with
    | nil => simp
    | cons page ps ih =>
      rw [List.foldlM_cons, TT.addWIncar_ok (hps page List.mem_cons_self), ok_bind,
        ih _ (fun q hq => hps q (List.mem_cons_of_mem page hq))]
      simp
  exact hfold .empty pages haddr

theorem pageV_lt {i : ℕ} (hi : i < pageCountV tt range) :
    firstPageV tt range + i < tt.size ∧ firstPageV tt range + i < 2 ^ 31 :=
  page_lt (le_max_right _ _) (min_le_right _ _) hi

theorem rawRange_iff (hsize : tt.size = pages.length) : RawRange pages range ↔
    pageCountV tt range ≤ 16 ∧ ∀ i < pageCountV tt range, ∀ page,
      pages[firstPageV tt range + i]? = some page → page.1 = 0 ∧ page.2 % 2 ^ kIncarBit = 0 := by
  unfold RawRange pageCountV firstPageV pageCount pageRangeV
  rw [hsize]
  refine and_congr (by omega) ?_
  constructor
  · intro h i hi page hpage
    exact h _ page hpage (by omega) (by omega)
  · intro h p page hpage hfirst hlast
    have hp : (max (range.1.tdiv 16) 0).toNat + (p - (max (range.1.tdiv 16) 0).toNat) = p := by
      omega
    exact h (p - (max (range.1.tdiv 16) 0).toNat) (by omega) page (by rwa [hp])

/-- The entry is the address only at address 0, and without an incarnation. -/
theorem entry_eq_self_iff {e incar : ℕ} (h : e < 2 ^ 56) :
    TT.entry e incar = e ↔ e = 0 ∧ incar % 2 ^ kIncarBit = 0 := by
  rw [TT.entry_eq h]
  simp only [kIncarBit]
  omega

theorem pageReads_posted (buf readSz : ℕ) (hcount : pageCountV tt range ≤ 16)
    (htt : tt.entries = pages.map (fun page => TT.entry page.1 page.2)) :
    ∃ reqs : BatchOp 16, pageReads tt.at? buf readSz (firstPageV tt range) (pageCountV tt range) =
        .ok reqs ∧ reqs.posted.length = pageCountV tt range ∧
      ∀ i < pageCountV tt range, ∃ op page, reqs.posted[i]? = some op ∧
        pages[firstPageV tt range + i]? = some page ∧ op.rdmaRbuf = TT.entry page.1 page.2 := by
  have hpage : ∀ i < pageCountV tt range, ∃ page, pages[firstPageV tt range + i]? = some page ∧
      tt.at? (firstPageV tt range + i) = .ok (TT.entry page.1 page.2) := by
    intro i hi
    obtain ⟨hlt, hint⟩ := pageV_lt hi
    rw [TT.size, htt, List.length_map] at hlt
    refine ⟨_, List.getElem?_eq_getElem hlt, TT.at?_eq hint ?_⟩
    rw [htt, List.getElem?_map, List.getElem?_eq_getElem hlt, Option.map_some]
  have hreads : ∀ i < pageCountV tt range, tt.at? (firstPageV tt range + i) =
      .ok (((pages[firstPageV tt range + i]?).map
        (fun page => TT.entry page.1 page.2)).getD 0) := by
    intro i hi
    obtain ⟨page, hget, hat⟩ := hpage i hi
    rw [hat, hget]
    rfl
  obtain ⟨reqs, hreqs, hholds⟩ : ∃ reqs : BatchOp 16, pageReads tt.at? buf readSz
      (firstPageV tt range) (pageCountV tt range) = .ok reqs ∧ reqs.Holds _ :=
    pageReads_ok hcount hreads
  refine ⟨reqs, hreqs, by rw [hholds.posted]; simp, fun i hi => ?_⟩
  obtain ⟨page, hget, -⟩ := hpage i hi
  refine ⟨_, page, by rw [hholds.posted, List.getElem?_map, List.getElem?_range hi]; rfl, hget, ?_⟩
  simp [hget]

section Exact
variable {M₁ M₂ : Type} [Usize] [DoubleArith] [MlTrait M₁ XKey] [MlTrait M₂ XKey]

/-- Every page is read where it stands, and within the batch, exactly if the entries of the
range happen to be the addresses and there are at most 16 of them. -/
theorem reads_pages_iff (haddr : ∀ page ∈ pages, page.1 < 2 ^ 56) (cache : LocalTwoRMI M₁ M₂)
    (tts : List TT) (key : XKey) (buf : ℕ) (hrange : cache.getPredictRange key = .ok range) :
    ∃ tt, fillTT pages = .ok tt ∧ (tts[cache.selectSecModel key]? = some tt →
      (ReadsPages pages cache tts tt range buf key ↔ RawRange pages range)) := by
  refine ⟨_, fillTT_eq haddr, ?_⟩
  generalize htt : (⟨pages.map (fun page => TT.entry page.1 page.2)⟩ : TT) = tt
  intro hsel
  have hentries : tt.entries = pages.map (fun page => TT.entry page.1 page.2) := by rw [← htt]
  have hbatch := batchV_eq hrange hsel buf
  rw [rawRange_iff (show tt.size = pages.length by rw [TT.size, hentries, List.length_map])]
  constructor
  · intro h
    obtain ⟨reqs, hreqs, hlen, hfits, hall⟩ := h
    have hcount : pageCountV tt range ≤ 16 := hlen ▸ hfits
    obtain ⟨reqs', hreqs', -, hposted⟩ := pageReads_posted buf
      (XNode.inplaceValueEndOffset kNPageKey XKey FatPointer) hcount hentries
    rw [hbatch, hreqs'] at hreqs
    obtain rfl : reqs' = reqs := congrArg Prod.fst (Except.ok.inj hreqs)
    refine ⟨hcount, fun i hi page hpage => ?_⟩
    obtain ⟨op, page₁, hop, hpage₁, haddr₁, -⟩ := hall i hi
    obtain ⟨op₂, page₂, hop₂, hpage₂, hentry⟩ := hposted i hi
    obtain rfl := Option.some.inj (hop.symm.trans hop₂)
    obtain rfl := Option.some.inj (hpage.symm.trans hpage₁)
    obtain rfl := Option.some.inj (hpage.symm.trans hpage₂)
    have hbound := haddr page (List.mem_of_getElem? hpage)
    exact (entry_eq_self_iff hbound).mp (hentry.symm.trans haddr₁)
  · intro h
    obtain ⟨hcount, hraw⟩ := h
    obtain ⟨reqs, hreqs, hlen, hposted⟩ := pageReads_posted buf
      (XNode.inplaceValueEndOffset kNPageKey XKey FatPointer) hcount hentries
    refine ⟨reqs, by rw [hbatch, hreqs]; rfl, hlen, hlen.trans_le hcount, fun i hi => ?_⟩
    obtain ⟨op, page, hop, hpage, hentry⟩ := hposted i hi
    have hbound := haddr page (List.mem_of_getElem? hpage)
    have hself := (entry_eq_self_iff hbound).mpr (hraw i hi page hpage)
    refine ⟨op, page, hop, hpage, hentry.trans hself, ?_⟩
    have hget : tt.entries[firstPageV tt range + i]? = some (TT.entry page.1 page.2) := by
      rw [hentries, List.getElem?_map, hpage, Option.map_some]
    rw [TT.getWoIncar_eq (pageV_lt hi).2 hget, (TT.entry_spec hbound page.2).1, hentry, hself]

end Exact

theorem reads_pages_iff_two :
    letI := usize64
    letI := exactDouble
    ∃ tt, fillTT [(0, 256), (4096, 3)] = .ok tt ∧
      (ReadsPages [(0, 256), (4096, 3)] (flatCache 15) [tt] tt (0, 15) 64 (5 : XKey) ↔
        RawRange [(0, 256), (4096, 3)] (0, 15)) := by
  let : Usize := usize64
  let : DoubleArith := exactDouble
  have hfill : fillTT [(0, 256), (4096, 3)] = .ok ⟨[0, 1048579]⟩ := by decide
  have haddr : ∀ page ∈ [(0, 256), (4096, 3)], page.1 < 2 ^ 56 := by simp
  have hrange : (flatCache 15).getPredictRange (5 : XKey) = .ok (0, 15) := by decide +kernel
  obtain ⟨tt, htt, hiff⟩ := reads_pages_iff haddr (flatCache 15) [⟨[0, 1048579]⟩] 5 64 hrange
  obtain rfl : tt = ⟨[0, 1048579]⟩ := Except.ok.inj (htt.symm.trans hfill)
  exact ⟨_, hfill, hiff (by decide +kernel)⟩

/-- A table of one page at 4096: the read goes to 4096 · 256. -/
theorem reads_other_address :
    letI := usize64
    letI := exactDouble
    ¬ ∀ (pages : List (ℕ × ℕ)) (tt : TT) (cache : LocalTwoRMI FlatLR FlatLR) (range : ℤ × ℤ)
      (buf : ℕ) (key : XKey), (∀ page ∈ pages, page.1 < 2 ^ 56) → fillTT pages = .ok tt →
        cache.getPredictRange key = .ok range → cache.selectSecModel key = 0 → 0 ≤ range.1 →
        range.1 ≤ range.2 → range.2 < 16 * tt.size →
        ReadsPages pages cache [tt] tt range buf key := by
  let : Usize := usize64
  let : DoubleArith := exactDouble
  intro hall
  have hfill : fillTT [(4096, 0)] = .ok ⟨[1048576]⟩ := by decide
  obtain ⟨reqs, hreqs, -, -, hpages⟩ := hall _ _ (flatCache 15) (0, 15) 64 5 (by simp) hfill
    (by decide +kernel) (by decide +kernel) (by decide) (by decide) (by decide)
  obtain ⟨op, page, hop, hpage, haddr, -⟩ := hpages 0 (by decide)
  have hposted : (batchV (flatCache 15) [⟨[1048576]⟩] 64 5).map (fun b => b.1.posted) =
      .ok [⟨1048576, 64, 258⟩] := by decide +kernel
  rw [hreqs] at hposted
  have hops : reqs.posted = [⟨1048576, 64, 258⟩] := Except.ok.inj hposted
  rw [hops] at hop
  obtain rfl := Option.some.inj hop
  obtain rfl := Option.some.inj hpage
  exact absurd haddr (by decide)

end XStore.Ycsb
