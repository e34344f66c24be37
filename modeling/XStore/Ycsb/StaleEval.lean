import XStore.Xkv.Stale
import XStore.Ycsb.EvalAgree

/-! `core_eval` with a cache and tables from an earlier moment. The pages of the range are
leaves that were in the tree then; the server has inserted since. -/
namespace XStore.Ycsb
open XStore.Lib XStore.Xkv XStore.Xcache XStore.Xcomm XStore.Xml
variable {A V M₁ M₂ : Type} [Plain V]

theorem searchPages_hidden {β : Type} {mem : ℕ → Byte} {buf readSz : ℕ} {key : XKey}
    (fetch : ℕ → Fin kNPageKey → Res β) {is : List ℕ}
    (h : ∀ i ∈ is, Hides mem (buf + readSz * i) key) :
    searchPages mem buf readSz key fetch is = .error (.assert .valueFound) := by
  induction is with
  | nil => rfl
  | cons i is ih =>
    have hi : (XNodeKeys.ofBuffer kNPageKey XKey mem (buf + readSz * i)).search key = none :=
      h i List.mem_cons_self
    simp only [searchPages, hi, ih (fun j hj => h j (List.mem_cons_of_mem i hj))]

theorem evalPages_hidden {ram : ℕ → Byte} {tt : TT} {ns count : ℕ} {key : XKey}
    (co : Coroutine A) {g : ℕ → ℕ} (hcount : count ≤ kMaxBatch)
    (hr : ∀ i < count, tt.getWoIncar (ns + i) = .ok (g i))
    (hall : ∀ i < count, Hides ram (g i) key) :
    (evalPages ram co tt ns count key : Res (RPCCore A × V)) = .error (.assert .valueFound) := by
  obtain ⟨reqs, hreqs, hholds⟩ : ∃ reqs : BatchOp kMaxBatch, pageReads tt.getWoIncar co.myBuf
      (XNode.valueStartOffset kNPageKey XKey) ns count = .ok reqs ∧ reqs.Holds _ :=
    pageReads_ok hcount hr
  obtain ⟨mem, reqs', hexec, hslots⟩ := executeAsync_pages ram co.core.mem hholds
  have hhides : ∀ i ∈ List.range count, Hides mem (co.myBuf +
      XNode.valueStartOffset kNPageKey XKey * i) key := by
    intro i hi
    have hi := List.mem_range.mp hi
    rw [Hides, XNodeKeys.ofBuffer_congr (hslots i hi)]
    exact hall i hi
  simp only [evalPages, hreqs, hexec, ok_bind]
  exact searchPages_hidden _ hhides

section Stale
variable [StdSort] [Inhabited V] {w w' : World kNPageKey XKey V TrivalAlloc}
  {ops new : List (XKey × V)} {addr : Ptr → ℕ} {ram : ℕ → Byte} {leaf p : Ptr} {key : XKey}

theorem Resident.shows_iff (hw : Built w ops) (hram : Resident ram ⟨addr, w.mem, w.tree⟩)
    (hkey : key ∈ ops.map Prod.fst) (hp : p ∈ w.tree.leaves) :
    ¬ Hides ram (addr p) key ↔ w.tree.findLeaf key = .ok (some p) := by
  obtain ⟨root, h⟩ := hw.inv (by decide)
  obtain ⟨op, hop, rfl⟩ := List.mem_map.mp hkey
  have htop := hw.keys op hop
  rw [Hides, hram.keys hp, XTree.findLeaf_iff h.root_eq]
  rw [XTree.leaves_of_root h.root_eq] at hp
  obtain ⟨hsome, hnone⟩ := search_entries (w.mem p) op.1 htop
  constructor
  · intro hshown
    obtain ⟨i, hi⟩ := Option.ne_none_iff_exists'.mp hshown
    have hfound := h.tree.found (by decide) hp (hsome i hi)
    exact hfound
  · intro hfind hhidden
    obtain ⟨q, -, hfind', hent⟩ := h.tree.find (by decide) htop
    obtain rfl := Except.ok.inj (hfind'.symm.trans hfind)
    exact hnone hhidden op.2 ((hent op.2).mpr hop)

variable [ConnectData A] [Usize] [DoubleArith] [MlTrait M₁ XKey] [MlTrait M₂ XKey]
  {cache : LocalTwoRMI M₁ M₂} {tts : List TT} {tt : TT} {range : ℤ × ℤ}

/-- The client reads pages itself, and none of them is at the address. -/
def Misses (tt : TT) (range : ℤ × ℤ) (a : ℕ) : Prop :=
  ¬ toUsize ((pageRange tt range).2 - (pageRange tt range).1 + 1) > kMaxBatch ∧
    ∀ q, InRange tt range q → tt.getWoIncar q ≠ .ok a

section Pages
variable (hw : Built w ops) (hram : Resident ram ⟨addr, w.mem, w.tree⟩)
  (hkey : key ∈ ops.map Prod.fst) (hrange : cache.getPredictRange key = .ok range)
  (htt : tts[cache.selectSecModel key]? = some tt)
  (hpages : ∀ q, InRange tt range q →
    ∃ p ∈ w.tree.leaves, tt.getWoIncar q = .ok (addr p))
  (hfind : w.tree.findLeaf key = .ok (some leaf))
include hw hram hkey hrange htt hpages hfind

omit [ConnectData A] in
theorem coreEval_hit (hV : Plain.size V ≤ 8)
    (hbatch : ¬ toUsize ((pageRange tt range).2 - (pageRange tt range).1 + 1) >
      kMaxBatch) {q : ℕ} (hq : InRange tt range q)
    (hpage : tt.getWoIncar q = .ok (addr leaf)) (hleaf : leaf ∈ w.tree.leaves)
    (co : Coroutine A) :
    ∃ core v, coreEval cache tts ram co key = .ok (.done core v) ∧
      w.get key = .ok (some v) := by
  obtain ⟨hoffset, hplace⟩ := hq.offset
  have haddr := Except.ok.inj (hq.address.symm.trans hpage)
  obtain ⟨i, hi, -, idx, core, hidx, heval⟩ := evalPages_ok (V := V) co
    (hq.count_le hbatch) (fun i hi => (InRange.place hi).address)
    ⟨_, hoffset, by rw [hplace, haddr]; exact (hram.shows_iff hw hkey hleaf).mpr hfind⟩
  -- the page that was found first is a leaf, and what it shows is stored
  obtain ⟨p, hp, hpaddr⟩ := hpages _ (InRange.place hi)
  have hpi := Except.ok.inj ((InRange.place hi).address.symm.trans hpaddr)
  rw [hpi] at hidx heval
  refine ⟨core, _, ?_, hram.value hw hV hkey hp hidx⟩
  rw [coreEval_eq hrange htt ram co, if_neg hbatch, heval]
  rfl

omit [ConnectData A] in
theorem coreEval_miss (hmiss : Misses tt range (addr leaf)) (co : Coroutine A) :
    (coreEval cache tts ram co key : Res (Eval A V)) = .error (.assert .valueFound) := by
  obtain ⟨hbatch, hout⟩ := hmiss
  have hcount : pageCount (pageRange tt range).1 (pageRange tt range).2 ≤ kMaxBatch := by
    by_contra hmany
    have hfirst : InRange tt range ((pageRange tt range).1.toNat + 0) :=
      InRange.place (by omega)
    exact hmany (hfirst.count_le hbatch)
  have hpages' : (evalPages ram co tt (pageRange tt range).1.toNat
      (pageCount (pageRange tt range).1 (pageRange tt range).2) key :
        Res (RPCCore A × V)) = .error (.assert .valueFound) := by
    refine evalPages_hidden co hcount (fun i hi => (InRange.place hi).address) (fun i hi => ?_)
    obtain ⟨p, hp, hpaddr⟩ := hpages _ (InRange.place hi)
    rw [Except.ok.inj ((InRange.place hi).address.symm.trans hpaddr)]
    by_contra hshown
    have hleaf := (hram.shows_iff hw hkey hp).mp hshown
    obtain rfl := Option.some.inj (Except.ok.inj (hleaf.symm.trans hfind))
    exact hout _ (InRange.place hi) hpaddr
  rw [coreEval_eq hrange htt ram co, if_neg hbatch, hpages']
  rfl

/-- Pages that are leaves: either the lookup misses, or it comes back with what is stored. -/
theorem coreEval_outcome (hV : Plain.size V ≤ 8) {v : V} (hget : w.get key = .ok (some v))
    (hleaf : leaf ∈ w.tree.leaves) {co : Coroutine A} (hidle : co.Idle) {srv : RPCCore A}
    (hsrv : 2 ≤ srv.callbacks.length) :
    (Misses tt range (addr leaf) ∧
      (coreEval cache tts ram co key : Res (Eval A V)) = .error (.assert .valueFound)) ∨
      ¬ Misses tt range (addr leaf) ∧ ∃ out, coreEval cache tts ram co key = .ok out ∧
        Returns ⟨addr, w.mem, w.tree⟩ srv co v out := by
  by_cases hmiss : Misses tt range (addr leaf)
  · exact Or.inl ⟨hmiss, coreEval_miss hw hram hkey hrange htt hpages hfind hmiss co⟩
  refine Or.inr ⟨hmiss, ?_⟩
  by_cases hbatch : toUsize ((pageRange tt range).2 - (pageRange tt range).1 + 1) >
      kMaxBatch
  · have hdb : (⟨addr, w.mem, w.tree⟩ : Store kNPageKey XKey V).tree.get w.mem key =
        .ok (some v) := hget
    obtain ⟨core, req, hreq, hreturns⟩ := evalWRpc_returns hV hdb hidle hsrv
    exact ⟨_, by rw [coreEval_eq hrange htt ram co, if_pos hbatch, hreq]; rfl, hreturns⟩
  · have hin : ∃ q, InRange tt range q ∧ tt.getWoIncar q = .ok (addr leaf) := by
      by_contra hno
      exact hmiss ⟨hbatch, fun q hq hqa => hno ⟨q, hq, hqa⟩⟩
    obtain ⟨q, hq, hqa⟩ := hin
    obtain ⟨core, v', heval, hget'⟩ := coreEval_hit hw hram hkey hrange htt hpages hfind
      hV hbatch hq hqa hleaf co
    obtain rfl := Option.some.inj (Except.ok.inj (hget'.symm.trans hget))
    exact ⟨_, heval, .done core⟩

end Pages

/-- A lookup with tables from an earlier moment never returns a value that is not stored with
the key now. It fails, at the ASSERT that the value was found, exactly if the client reads the
pages itself and the leaf that the key is in by now is not among them; a leaf that was among
them for the key is it still as long as it has the incarnation that it had. -/
theorem core_eval_stale (hw : Built w ops) (hrun : w.insertAll new = .ok w')
    (hnew : ∀ op ∈ new, op.1 ≠ ⊤) (hd : ((ops ++ new).map Prod.fst).Nodup)
    (hV : Plain.size V ≤ 8) (hram : Resident ram ⟨addr, w'.mem, w'.tree⟩)
    (hkey : key ∈ (ops ++ new).map Prod.fst)
    (hrange : cache.getPredictRange key = .ok range)
    (htt : tts[cache.selectSecModel key]? = some tt)
    (hpages : ∀ q, InRange tt range q →
      ∃ p ∈ w.tree.leaves, tt.getWoIncar q = .ok (addr p))
    {co : Coroutine A} (hidle : co.Idle) {srv : RPCCore A} (hsrv : 2 ≤ srv.callbacks.length) :
    ∃ v leaf, w'.get key = .ok (some v) ∧ w'.tree.findLeaf key = .ok (some leaf) ∧
      (∀ out, coreEval cache tts ram co key = .ok out →
        Returns ⟨addr, w'.mem, w'.tree⟩ srv co v out) ∧
      (Misses tt range (addr leaf) → (coreEval cache tts ram co key :
        Res (Eval A V)) = .error (.assert .valueFound)) ∧
      (¬ Misses tt range (addr leaf) →
        ∃ out, (coreEval cache tts ram co key : Res (Eval A V)) = .ok out) ∧
      ∀ p q, w.tree.findLeaf key = .ok (some p) → InRange tt range q →
        tt.getWoIncar q = .ok (addr p) → new.length < 2 ^ 16 →
        (w'.mem p).getIncarnation = (w.mem p).getIncarnation →
        ¬ Misses tt range (addr leaf) := by
  have hw' := hw.insertAll hrun hnew hd
  obtain ⟨root, root', off, splits, hroot, hroot', hnodup, hdesc⟩ :=
    hw.descends (by decide) hrun hnew
  obtain ⟨root₁, h'⟩ := hw'.inv (by decide)
  obtain rfl := Option.some.inj (h'.root_eq.symm.trans hroot')
  obtain ⟨op, hop, rfl⟩ := List.mem_map.mp hkey
  have htop := hw'.keys op hop
  obtain ⟨leaf, hleaf, hfrom, hent⟩ := h'.tree.find (by decide) htop
  rw [← XTree.findLeaf_iff h'.root_eq] at hfrom
  rw [← XTree.leaves_of_root h'.root_eq] at hleaf
  have hget : w'.get op.1 = .ok (some op.2) := by
    have htree : w'.tree = ⟨w'.tree.depth, some root₁⟩ := by rw [← h'.root_eq]
    rw [World.get, htree]
    exact (h'.tree.get (by decide) htop).1 op.2 hop
  have hpages' : ∀ q, InRange tt range q →
      ∃ p ∈ w'.tree.leaves, tt.getWoIncar q = .ok (addr p) := by
    intro q hq
    obtain ⟨p, hp, haddr⟩ := hpages q hq
    rw [XTree.leaves_of_root hroot] at hp
    rw [XTree.leaves_of_root hroot']
    exact ⟨p, hdesc.mem_leaves hp (List.mem_cons_self ..), haddr⟩
  -- either the lookup misses, or it comes back with what is stored now
  have hout := coreEval_outcome hw' hram hkey hrange htt hpages' hfrom hV hget hleaf hidle
    hsrv
  refine ⟨op.2, leaf, hget, hfrom, fun out heval => ?_, fun hmiss => ?_, fun hhit => ?_, ?_⟩
  · rcases hout with ⟨-, herr⟩ | ⟨-, out', heval', hreturns⟩
    · rw [heval] at herr
      cases herr
    · rw [heval] at heval'
      exact Except.ok.inj heval' ▸ hreturns
  · exact (hout.resolve_right (fun h => h.1 hmiss)).2
  · obtain ⟨-, out, heval, -⟩ := hout.resolve_left (fun h => hhit h.1)
    exact ⟨out, heval⟩
  · intro p q hfind hq hqa hfew hinc hmiss
    rw [XTree.findLeaf_iff hroot] at hfind
    obtain ⟨R, hR, -, -, hRfind, -⟩ := hdesc.home op.1 htop
    obtain rfl := Except.ok.inj (hRfind.symm.trans hfind)
    obtain ⟨hoff, -⟩ := hdesc.unsplit R hR (hdesc.splits_eq_zero hfew hR hinc)
    rw [hdesc.find_iff hnodup hR hoff htop, ← XTree.findLeaf_iff h'.root_eq, hfrom,
      Except.ok.injEq, Option.some.injEq] at hfind
    exact hmiss.2 q hq (hfind ▸ hqa)

end Stale

def splitting : List (XKey × XKey) := (List.range 16).map fun i => (Fin.ofNat _ (i + 2), 20)

theorem splitting_runs : letI := insertionStdSort
    ∃ w w₁ w₂ : World kNPageKey XKey XKey TrivalAlloc, Built w [(1, 10)] ∧
      w.insertAll [(2, 20)] = .ok w₁ ∧ w.insertAll splitting = .ok w₂ ∧ 0 ∈ w.tree.leaves ∧
      w.tree.findLeaf 2 = .ok (some 0) ∧
      (w₁.mem 0).getIncarnation = (w.mem 0).getIncarnation ∧
      w₂.tree.findLeaf 17 = .ok (some 1) := by
  let : StdSort := insertionStdSort
  let start : World kNPageKey XKey XKey TrivalAlloc := World.init fun _ => XNode.new
  have hruns : ((do
      let w ← start.insertAll [(1, 10)]
      let w₁ ← w.insertAll [(2, 20)]
      let w₂ ← w.insertAll splitting
      let p ← w.tree.findLeaf 2
      let q ← w₂.tree.findLeaf 17
      pure (w.tree.leaves, p, q,
        decide ((w₁.mem 0).getIncarnation = (w.mem 0).getIncarnation))) : Res _) =
      .ok ([0], some 0, some 1, true) := by
    decide +kernel
  obtain ⟨w, hw, hruns⟩ := bind_eq_ok.mp hruns
  obtain ⟨w₁, hw₁, hruns⟩ := bind_eq_ok.mp hruns
  obtain ⟨w₂, hw₂, hruns⟩ := bind_eq_ok.mp hruns
  obtain ⟨p, hp, hruns⟩ := bind_eq_ok.mp hruns
  obtain ⟨q, hq, hruns⟩ := bind_eq_ok.mp hruns
  have hkeys : ∀ op ∈ [((1 : XKey), (10 : XKey))], op.1 ≠ ⊤ :=
    List.forall_mem_singleton.mpr (by decide)
  simp only [pure_eq_ok, Except.ok.injEq, Prod.mk.injEq, decide_eq_true_eq] at hruns
  obtain ⟨hleaves, rfl, rfl, hinc⟩ := hruns
  exact ⟨w, w₁, w₂, ⟨⟨_, hw⟩, List.cons_ne_nil _ _, hkeys, List.nodup_singleton _⟩, hw₁, hw₂,
    hleaves ▸ List.mem_cons_self, hp, hinc, hq⟩

/-- The table was made when the only leaf had the key 1. A lookup of the key 2 returns what came
since then, and that of the key 17 fails because the leaf was split. -/
theorem core_eval_stale_split :
    letI := usize64
    letI := insertionStdSort
    letI := exactDouble
    letI : ConnectData (List Byte) := ⟨fun payload => some payload⟩
    ∃ (w w₁ w₂ : World kNPageKey XKey XKey TrivalAlloc) (v : XKey), Built w [(1, 10)] ∧
      w.insertAll [(2, 20)] = .ok w₁ ∧ w₁.get 2 = .ok (some v) ∧
      (∃ out, coreEval (flatCache 15) [⟨[ramEntry 0]⟩] (serverRam w₁.mem) oneCoroutine 2 =
        .ok out ∧ Returns ⟨fun p => 512 * p, w₁.mem, w₁.tree⟩ twoCallbacks oneCoroutine v out) ∧
      w.insertAll splitting = .ok w₂ ∧ w₂.tree.findLeaf 17 = .ok (some 1) ∧
      (coreEval (flatCache 15) [⟨[ramEntry 0]⟩] (serverRam w₂.mem) oneCoroutine 17 :
        Res (Eval (List Byte) XKey)) = .error (.assert .valueFound) := by
  let : Usize := usize64
  let : StdSort := insertionStdSort
  let : DoubleArith := exactDouble
  let : ConnectData (List Byte) := ⟨fun payload => some payload⟩
  obtain ⟨w, w₁, w₂, hw, hrun₁, hrun₂, hleaf, hfind, hinc, hmoved⟩ := splitting_runs
  have hram : ∀ w : World kNPageKey XKey XKey TrivalAlloc,
      Resident (serverRam w.mem) ⟨fun p => 512 * p, w.mem, w.tree⟩ :=
    fun w p _ => serverRam_at w.mem (by decide) p
  have hpage : (⟨[ramEntry 0]⟩ : TT).getWoIncar 0 = .ok (512 * 0) :=
    getWoIncar_ramEntry (by decide) rfl
  have hpages : ∀ q, InRange ⟨[ramEntry 0]⟩ (0, 15) q →
      ∃ p ∈ w.tree.leaves, (⟨[ramEntry 0]⟩ : TT).getWoIncar q = .ok (512 * p) := by
    intro q hq
    obtain rfl := (inRange_ramEntry 0 q).mp hq
    exact ⟨0, hleaf, hpage⟩
  have hsrv : 2 ≤ twoCallbacks.callbacks.length := le_refl 2
  have hnew : splitting.all (fun op => decide (op.1 ≠ ⊤)) = true := by decide
  -- the leaf has the incarnation that it had, so that the key 2 is found in it
  obtain ⟨v, leaf, hget, -, hreturns, -, hfound, hsame⟩ := core_eval_stale hw hrun₁
    (List.forall_mem_singleton.mpr (by decide)) (by decide) (by decide) (hram w₁)
    (by decide : (2 : XKey) ∈ ([((1 : XKey), (10 : XKey))] ++ [(2, 20)]).map Prod.fst)
    (by decide +kernel : (flatCache 15).getPredictRange (2 : XKey) = .ok (0, 15))
    (select_flatCache 15 2 _) hpages oneCoroutine_idle hsrv
  obtain ⟨out, hout⟩ :=
    hfound (hsame 0 0 hfind ((inRange_ramEntry 0 0).mpr rfl) hpage (by decide) hinc)
  -- the key 17 is in the leaf that the split made, and the table does not have that
  obtain ⟨v', leaf', -, hfind', -, hmiss, -⟩ := core_eval_stale hw hrun₂
    (fun op hop => of_decide_eq_true (List.all_eq_true.mp hnew op hop)) (by decide) (by decide)
    (hram w₂)
    (by decide : (17 : XKey) ∈ ([((1 : XKey), (10 : XKey))] ++ splitting).map Prod.fst)
    (by decide +kernel : (flatCache 15).getPredictRange (17 : XKey) = .ok (0, 15))
    (select_flatCache 15 17 _) hpages oneCoroutine_idle hsrv
  obtain rfl := Option.some.inj (Except.ok.inj (hfind'.symm.trans hmoved))
  refine ⟨w, w₁, w₂, v, hw, hrun₁, hget, ⟨out, hout, hreturns out hout⟩, hrun₂, hmoved,
    hmiss ⟨?_, fun q hq hqa => ?_⟩⟩
  · rw [pageRange_ramEntry]
    decide +kernel
  · obtain rfl := (inRange_ramEntry 0 q).mp hq
    rw [hpage] at hqa
    cases hqa

end XStore.Ycsb
