import XStore.Ycsb.Bootstrap
import XStore.Ycsb.StaleEval
import XStore.Ycsb.TrainDb

/-! From the load of the server to the lookup of a client: the server trains its index (db.hh,
main.cc) and writes it, a client reads it back (client.cc) and looks keys up with it. -/
namespace XStore.Ycsb
open XStore.Lib XStore.Xkv XStore.Xcache XStore.Xcomm XStore.Xml
variable {V : Type} [Plain V]

section Image
variable {cache : LocalTwoRMI LR LR} {tts : List TT} {server server' : Server}

theorem writeAll_fits {bufEnd : ℕ} {ss : List (List Byte)} (hne : ss ≠ []) {cur cur' : ℕ}
    {mem mem' : ℕ → Byte} (h : writeAll bufEnd ss cur mem = .ok (cur', mem')) :
    cur' = cur + ss.flatten.length ∧ cur' ≤ bufEnd := by
  induction ss generalizing cur mem with
  | nil => exact absurd rfl hne
  | cons s ss ih =>
    rw [writeAll, bind_eq_ok] at h
    obtain ⟨u, hfit, h⟩ := h
    have hle : s.length + cur ≤ bufEnd := by
      by_contra hnot
      simp [hnot] at hfit
    rw [List.flatten_cons, List.length_append]
    cases ss with
    | nil =>
      obtain ⟨rfl, -⟩ := Prod.mk.inj (Except.ok.inj h)
      simp only [List.flatten_nil, List.length_nil]
      omega
    | cons s' ss =>
      have hrest := ih (List.cons_ne_nil _ _) h
      omega

/-- Submodels that end at a word leave no gap before the tables. -/
theorem tableStart_aligned (hword : 8 ∣ server.modelBuf + 36 * cache.secondLayer.length) :
    tableStart cache server = modelEnd cache server ∧ gap cache server = [] := by
  have hend : modelEnd cache server = server.modelBuf + 36 * cache.secondLayer.length := by
    rw [modelEnd, length_modelBytes]
    omega
  have hstart : tableStart cache server = modelEnd cache server := by
    unfold tableStart
    omega
  refine ⟨hstart, List.length_eq_zero_iff.mp ?_⟩
  have := length_gap cache server
  omega

theorem serializeDb_holds (ht : Trained cache tts)
    (hword : 8 ∣ server.modelBuf + 36 * cache.secondLayer.length) (hend : server.bufEnd < 2 ^ 64)
    (hrun : serializeDb cache tts server = .ok server')
    (hsmall : server'.bufEnd - server.modelBuf < 2 ^ 32) : server.Holds cache tts := by
  have hne := List.length_pos_of_ne_nil ht.ne
  have htts : tts ≠ [] := by
    rw [← List.length_pos_iff, ht.tables]
    exact hne
  obtain ⟨⟨cur, mem⟩, hmodels, hrest⟩ := bind_eq_ok.mp hrun
  obtain ⟨⟨cur', mem'⟩, htables, hserver⟩ := bind_eq_ok.mp hrest
  obtain rfl := Except.ok.inj hserver
  obtain ⟨hcur, hfit⟩ := writeAll_fits (by simpa using ht.ne) hmodels
  obtain ⟨hcur', hfit'⟩ := writeAll_fits (by simpa using htts) htables
  rw [← List.flatMap_def] at hcur hcur'
  -- an address at a word does not wrap when it is rounded up
  have hmodel : cur = modelEnd cache server := hcur
  have hlen := length_modelBytes cache
  have hround : roundUp cur 8 = tableStart cache server := by
    rw [hmodel]
    refine roundUp_eight ?_
    unfold modelEnd at hmodel ⊢
    omega
  rw [hround] at hcur'
  have htable : cur' = tableStart cache server + (tableBytes tts).length := hcur'
  exact ⟨htable ▸ hfit', hend, htable ▸ hsmall⟩

/-- The image is written behind the leaves, which stay where they are. -/
theorem Resident.written {kv : Store kNPageKey XKey V} (h : Resident server.mem kv)
    (hbehind : ∀ p ∈ kv.tree.leaves,
      kv.addr p + XNode.inplaceValueEndOffset kNPageKey XKey V ≤ server.modelBuf) :
    Resident (written cache tts server).mem kv := by
  intro p hp
  refine (h p hp).congr (fun i hi => ?_)
  have hle := hbehind p hp
  have hstart := modelEnd_le cache server
  have hmodel : modelEnd cache server = server.modelBuf + (modelBytes cache).length := rfl
  simp only [Ycsb.written]
  rw [memcpy_behind (Or.inl (by omega)), memcpy_behind (Or.inl (by omega))]

end Image

section Lookup
variable {A : Type} [StdSort] [Inhabited V] [Usize] [DoubleArith] [MlTrait LR XKey]
  {w : World kNPageKey XKey V TrivalAlloc} {ops : List (XKey × V)} {addr : Ptr → ℕ}
  {server : Server} {fuel nmodels : ℕ}

omit [Plain V] [StdSort] [Inhabited V] [DoubleArith] in
theorem trained_of_serves {db : Store kNPageKey XKey V} {cache : LocalTwoRMI LR LR}
    {tts : List TT} {stored : XKey → Prop} {keys : ℕ → XKey → Prop} (hn : 0 < nmodels)
    (hnum : cache.firstLayer.dispatchNum = nmodels) (hup : cache.firstLayer.upBound < 2 ^ 32)
    (hlen : cache.secondLayer.length = nmodels) (htts : tts.length = nmodels)
    (hall : ∀ i model tt, cache.secondLayer[i]? = some model → tts[i]? = some tt →
      Serves db stored (keys i) model tt) : Trained cache tts where
  ne := by
    rw [← List.length_pos_iff]
    omega
  num := hnum.trans hlen.symm
  tables := htts.trans hlen.symm
  upBound := hup
  subs model hmodel := by
    obtain ⟨i, hi⟩ := List.getElem?_of_mem hmodel
    have hlt := (List.getElem?_eq_some_iff.mp hi).1
    exact (hall i model _ hi (List.getElem?_eq_getElem (by omega))).ints
  entries tt htt := by
    obtain ⟨i, hi⟩ := List.getElem?_of_mem htt
    have hlt := (List.getElem?_eq_some_iff.mp hi).1
    exact (hall i _ tt (List.getElem?_eq_getElem (by omega)) hi).entries

variable [ConnectData A]

/-- A lookup of a stored key with submodels and tables that serve the tree. -/
theorem serves_lookup (hw : Built w ops) (hV : Plain.size V ≤ 8) {ram : ℕ → Byte}
    (hram : Resident ram ⟨addr, w.mem, w.tree⟩) {cache : LocalTwoRMI LR LR} {tts : List TT}
    (hsub : cache.secondLayer ≠ []) (htts : tts.length = cache.secondLayer.length)
    (hall : ∀ i model tt, cache.secondLayer[i]? = some model → tts[i]? = some tt →
      Serves (⟨addr, w.mem, w.tree⟩ : Store _ _ V) (· ∈ ops.map Prod.fst)
        (fun k => k ∈ ops.map Prod.fst ∧ cache.selectSecModel k = i) model tt)
    {op : XKey × V} (hop : op ∈ ops) {co : Coroutine A} (hidle : co.Idle)
    {srv : RPCCore A} (hsrv : 2 ≤ srv.callbacks.length) :
    ((coreEval cache tts ram co op.1 : Res (Eval A V)) = .error (.assert .valueFound) ∨
      ∃ out, coreEval cache tts ram co op.1 = .ok out ∧
        Returns ⟨addr, w.mem, w.tree⟩ srv co op.2 out) ∧
    ((∀ model ∈ cache.secondLayer, Steady (· ∈ ops.map Prod.fst) model.ml) →
      ∃ out, (coreEval cache tts ram co op.1 : Res (Eval A V)) = .ok out) := by
  have hkey : op.1 ∈ ops.map Prod.fst := List.mem_map_of_mem hop
  have hi := LocalTwoRMI.selectSecModel_lt hsub op.1
  have hmodel := List.getElem?_eq_getElem hi
  have htt := List.getElem?_eq_getElem (htts.symm ▸ hi)
  have hserves := hall _ _ _ hmodel htt
  have hrange : cache.getPredictRange op.1 =
      .ok (cache.secondLayer[cache.selectSecModel op.1].getPredictRange op.1) := by
    rw [LocalTwoRMI.getPredictRange, hmodel]
    rfl
  obtain ⟨root, hinv⟩ := hw.inv (by decide)
  have htop := hw.keys op hop
  obtain ⟨leaf, hleaf, hfind, -⟩ := hinv.tree.find (by decide) htop
  rw [← XTree.findLeaf_iff hinv.root_eq] at hfind
  rw [← XTree.leaves_of_root hinv.root_eq] at hleaf
  have hget : w.get op.1 = .ok (some op.2) := by
    have htree : w.tree = ⟨w.tree.depth, some root⟩ := by rw [← hinv.root_eq]
    rw [World.get, htree]
    exact (hinv.tree.get (by decide) htop).1 op.2 hop
  have hout := coreEval_outcome hw hram hkey hrange htt
    (fun q hq => hserves.leaves q hq.lt.1) hfind hV hget hleaf hidle hsrv
  refine ⟨hout.imp And.right And.right, fun hsteady => ?_⟩
  obtain ⟨leaf', q, hfind', hpage, hin⟩ := hserves.covers
    (hsteady _ (List.getElem_mem hi)) op.1 ⟨hkey, rfl⟩
  obtain rfl := Option.some.inj (Except.ok.inj (hfind.symm.trans hfind'))
  obtain ⟨-, out, heval, -⟩ := hout.resolve_left (fun hmiss => hmiss.1.2 q hin hpage)
  exact ⟨out, heval⟩

/-- From end to end: the training goes through; once the image is written, a client with a copy
of it holds what the server holds, and its lookup of a loaded key ends with the value that was
loaded with it, or fails at the ASSERT that the value was found. If the models are steady it
does not fail. -/
theorem index_serves (hw : Built w ops) (haddr : ∀ p < w.alloc.allocated, addr p < 2 ^ 56)
    (hV : Plain.size V ≤ 8) (hfuel : ops.length < fuel)
    (hfew : kNPageKey * ops.length ≤ 2 ^ 30) (hn : 0 < nmodels) (hmany : nmodels < 4000000)
    (hend : server.bufEnd < 2 ^ 64) (hword : 8 ∣ server.modelBuf + 36 * nmodels)
    (hram : Resident server.mem ⟨addr, w.mem, w.tree⟩)
    (hbehind : ∀ p ∈ w.tree.leaves,
      addr p + XNode.inplaceValueEndOffset kNPageKey XKey V ≤ server.modelBuf) :
    ∃ (cache : LocalTwoRMI LR LR) (tts : List TT),
      trainDb false nmodels fuel (⟨addr, w.mem, w.tree⟩ : Store _ _ V) = .ok (cache, tts) ∧
      ∀ server', serializeDb cache tts server = .ok server' →
        server'.bufEnd - server.modelBuf < 2 ^ 32 → ∀ buf, Copied server' buf →
        Lossless cache tts server'.reply.totalSz (bootstrap cache.firstLayer.serialize buf) ∧
        ∀ client : Client LR LR, bootstrap cache.firstLayer.serialize buf = .ok client →
          ∀ op ∈ ops, ∀ (co : Coroutine A) (srv : RPCCore A), co.Idle →
            2 ≤ srv.callbacks.length →
            ((coreEval client.cache client.tts server'.mem co op.1 : Res (Eval A V)) =
                .error (.assert .valueFound) ∨
              ∃ out, coreEval client.cache client.tts server'.mem co op.1 = .ok out ∧
                Returns ⟨addr, w.mem, w.tree⟩ srv co op.2 out) ∧
            ((∀ model ∈ client.cache.secondLayer, Steady (· ∈ ops.map Prod.fst) model.ml) →
              ∃ out, (coreEval client.cache client.tts server'.mem co op.1 :
                Res (Eval A V)) = .ok out) := by
  obtain ⟨cache, tts, htrain, hnum, hup, hlen, htts, hall⟩ :=
    trainDb_ok (M := LR) hw haddr hfuel hfew false hn hmany
  have ht := trained_of_serves hn hnum hup hlen htts hall
  refine ⟨cache, tts, htrain, fun server' hrun hsmall buf hcopy => ?_⟩
  rw [← hlen] at hword
  have hholds := serializeDb_holds ht hword hend hrun hsmall
  obtain rfl := Except.ok.inj ((serializeDb_eq ht hholds).symm.trans hrun)
  have hlossless : Lossless cache tts (written cache tts server).reply.totalSz
      (bootstrap cache.firstLayer.serialize buf) := by
    have hgap : gap cache server = [] := (tableStart_aligned hword).2
    have htables := (hcopy.parts hholds).2
    rw [hgap, List.nil_append] at htables
    rw [bootstrap, hcopy.lossless_iff ht hholds]
    refine ⟨?_, htables⟩
    simp only [image, hgap, List.nil_append, List.length_append, id_eq, le_refl]
  refine ⟨hlossless, fun client hclient op hop co srv hidle hsrv => ?_⟩
  obtain ⟨c, hc, rfl, rfl, -⟩ := hlossless
  obtain rfl := Except.ok.inj (hc.symm.trans hclient)
  exact serves_lookup hw hV (hram.written hbehind) ht.ne ht.tables hall hop hidle hsrv

end Lookup

@[reducible]
def zeroLR : MlTrait LR XKey where
  init := default
  train m _ _ := m
  predict _ _ := 0

/-- Two keys on one leaf, two submodels: the lookup of the key 3. -/
theorem index_serves_three :
    letI := usize64
    letI := insertionStdSort
    letI := exactDouble
    letI := zeroLR
    letI : ConnectData (List Byte) := ⟨fun payload => some payload⟩
    ∃ (w : World kNPageKey XKey XKey TrivalAlloc) (cache : LocalTwoRMI LR LR) (tts : List TT)
      (server server' : Server) (client : Client LR LR), Built w [(1, 1), (3, 3)] ∧
      trainDb false 2 3 (⟨fun p => 512 * p, w.mem, w.tree⟩ : Store kNPageKey XKey XKey) =
        .ok (cache, tts) ∧
      serializeDb cache tts server = .ok server' ∧
      bootstrap cache.firstLayer.serialize (fun i => server'.mem (server'.modelBuf + i)) =
        .ok client ∧
      ∃ out, coreEval client.cache client.tts server'.mem oneCoroutine 3 = .ok out ∧
        Returns ⟨fun p => 512 * p, w.mem, w.tree⟩ twoCallbacks oneCoroutine (3 : XKey) out := by
  let : Usize := usize64
  let : StdSort := insertionStdSort
  let : DoubleArith := exactDouble
  let : MlTrait LR XKey := zeroLR
  let : ConnectData (List Byte) := ⟨fun payload => some payload⟩
  have hkeys : ∀ op ∈ [((1 : XKey), (1 : XKey)), (3, 3)], op.1 ≠ ⊤ :=
    List.forall_mem_cons.mpr ⟨by decide, List.forall_mem_singleton.mpr (by decide)⟩
  obtain ⟨w, hrun, -⟩ := Ready.insertAll (by decide)
    (Or.inl ⟨(fun _ => XNode.new : Mem kNPageKey XKey XKey), rfl, rfl⟩) [(1, 1), (3, 3)] hkeys
    (by decide)
  have hw : Built w [(1, 1), (3, 3)] :=
    ⟨⟨_, hrun⟩, List.cons_ne_nil _ _, hkeys, by decide⟩
  have hvalues : ((World.init (fun _ => XNode.new : Mem kNPageKey XKey XKey)).insertAll
      [(1, 1), (3, 3)] >>= fun w => (trainDb false 2 3 ⟨fun p => 512 * p, w.mem, w.tree⟩ :
        Res (LocalTwoRMI LR LR × List TT)) >>= fun r =>
        pure (w.tree.leaves, w.alloc.allocated, r)) =
      .ok ([0], 2, ⟨⟨default, 2, 2⟩, [.blank, .blank]⟩, [⟨[0]⟩, ⟨[]⟩]) := by
    decide +kernel
  rw [hrun, ok_bind] at hvalues
  obtain ⟨⟨cache, tts⟩, htrain, hvalues⟩ := bind_eq_ok.mp hvalues
  rw [pure_eq_ok, Except.ok.injEq, Prod.mk.injEq, Prod.mk.injEq, Prod.mk.injEq] at hvalues
  obtain ⟨hleaves, hallocated, rfl, rfl⟩ := hvalues
  let server : Server := { mem := serverRam w.mem, modelBuf := 4096, ttBuf := 0, bufEnd := 8192 }
  have hram : Resident server.mem ⟨fun p => 512 * p, w.mem, w.tree⟩ :=
    fun p _ => serverRam_at w.mem (by decide) p
  obtain ⟨cache', tts', htrain', hall⟩ := index_serves (A := List Byte) hw
    (fun p hp => by omega) (by decide) (by decide : 2 < 3) (by decide) (by decide : 0 < 2)
    (by decide : 2 < 4000000) (by decide : 8192 < 2 ^ 64) (by decide : 8 ∣ 4096 + 36 * 2) hram
    (fun p hp => by
      rw [hleaves, List.mem_singleton] at hp
      rw [hp]
      exact (by decide : 512 * 0 + XNode.inplaceValueEndOffset kNPageKey XKey XKey ≤ 4096))
  obtain ⟨rfl, rfl⟩ := Prod.mk.inj (Except.ok.inj (htrain.symm.trans htrain'))
  -- the numbers of the server are those of `zeroServer`
  have hzero : zeroServer.Holds ⟨⟨default, 2, 2⟩, [.blank, .blank]⟩ [⟨[0]⟩, ⟨[]⟩] :=
    ⟨by decide, by decide, by decide⟩
  have hholds : server.Holds ⟨⟨default, 2, 2⟩, [.blank, .blank]⟩ [⟨[0]⟩, ⟨[]⟩] :=
    ⟨hzero.fits, hzero.bufEnd, hzero.small⟩
  have hserialize := serializeDb_eq
    ⟨by decide, by decide, by decide, by decide, by decide, by decide⟩ hholds
  obtain ⟨⟨client, hclient, -⟩, hlookup⟩ := hall _ hserialize hzero.small _ (fun i _ => rfl)
  obtain ⟨hsafe, hok⟩ := hlookup client hclient (3, 3) (by decide) oneCoroutine twoCallbacks
    oneCoroutine_idle (by decide)
  obtain ⟨out, hout⟩ := hok (fun _ _ =>
    ⟨fun _ _ _ => le_rfl, fun _ _ => (by decide : truncate 0 < 2 ^ 31)⟩)
  obtain ⟨out', hout', hreturns⟩ := hsafe.resolve_left (fun herr => by
    rw [hout] at herr
    cases herr)
  exact ⟨w, _, _, server, _, client, hw, htrain, hserialize, hclient, out', hout', hreturns⟩

end XStore.Ycsb
