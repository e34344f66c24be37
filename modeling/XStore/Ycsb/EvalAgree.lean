import XStore.Xcache.Complete
import XStore.Xcomm.RpcBounds
import XStore.Xkv.Spare
import XStore.Ycsb.Eval

/-! Both ways of `core_eval` end with the value that the callback finds. -/
namespace XStore.Ycsb
open XStore.Lib XStore.Xkv XStore.Xcache XStore.Xcomm XStore.Xml
variable {A V M₁ M₂ : Type} [Plain V]

/-- The lookup ends with `v`. Where it waits, the server calls `get_callback` for its request,
and the reply, in whatever state it finds the station waiting, wakes the coroutine with `v`. -/
inductive Returns [ConnectData A] (db : Store kNPageKey XKey V) (srv : RPCCore A)
    (co : Coroutine A) (v : V) : Eval A V → Prop where
  | done (core : RPCCore A) : Returns db srv co v (.done core v)
  | replied (core : RPCCore A) (req : List Byte)
      (hserved : ∀ sid rest, ∃ f call reply, srv.dispatch ⟨sid, req ++ rest⟩ = .ok (.call f call) ∧
        call.rpcId = RPCId.GET.toNat ∧ getCallback db call.header call.args = .ok reply ∧
        ∀ (core₁ : RPCCore A) sid₁ rest₁,
          core₁.replyStation.corReplies[co.corId]? = core.replyStation.corReplies[co.corId]? →
          ∃ core₂, core₁.poll ⟨sid₁, reply ++ rest₁⟩ = .ok core₂ ∧
            core₂.addedBack = core₁.addedBack ++ [co.corId] ∧ evalWRpcResult co core₂ = v) :
      Returns db srv co v (.waits core req)

/-- The coroutine has an entry in the station, under an id that a header holds, and waits for no
reply. -/
def Coroutine.Idle (co : Coroutine A) : Prop :=
  co.corId < 2 ^ 7 ∧ ∃ r, co.core.replyStation.corReplies[co.corId]? = some r ∧
    r.pendingReplies = 0

section Rpc
variable {co : Coroutine A} {key : XKey} {v : V}

def newMsg : RPCOp := { RPCOp.blank with msg := List.replicate 64 0, curSz := Header.size }

theorem setMsg_new : RPCOp.blank.setMsg (List.replicate 64 0) = .ok newMsg := rfl

theorem addArg_fits {op : RPCOp} {bs : List Byte} (hmsg : op.msg = newMsg.msg)
    (hcur : op.curSz = Header.size) (h : bs.length ≤ 56) : (op.addArg bs).2 = true := by
  have hlen : op.msg.length = 64 := by rw [hmsg]; rfl
  have hfit : ¬ op.msg.length < bs.length + op.curSz := by
    rw [hlen, hcur, Header.size]
    omega
  simp [RPCOp.addArg, RPCOp.append, hfit]

def getSteps (c : ℕ) (key : XKey) : List BuildStep :=
  [.setReq, .setRpcId RPCId.GET.toNat, .setCorid c, .addArg (Plain.toBytes key)]

theorem evalWRpc_ok (hidle : co.Idle) (key : XKey) :
    ∃ core req, evalWRpc V co key = .ok (core, req) ∧
      core.replyStation.corReplies[co.corId]? =
        some (.ofBuf ⟨co.replyBuf, Plain.size V⟩) ∧
      ∀ srv : RPCCore A, 2 ≤ srv.callbacks.length → ∀ sid rest, ∃ f h,
        h.corId.val = co.corId ∧ srv.dispatch ⟨sid, req ++ rest⟩ =
          .ok (.call f ⟨RPCId.GET.toNat, h, Plain.toBytes key, srv.replyChannel sid⟩) := by
  obtain ⟨hc, r, hr, hready⟩ := hidle
  generalize hop : ((newMsg.setReq).setRpcId RPCId.GET.toNat).setCorid co.corId = op
  have hlen : (Plain.toBytes key).length = 8 := Plain.length_toBytes key
  have hadd : (op.addArg (Plain.toBytes key)).2 = true :=
    addArg_fits (by rw [← hop]; rfl) (by rw [← hop]; rfl) (by omega)
  have hcor : op.header.corId.val = co.corId := by
    subst hop
    simp only [RPCOp.setCorid, Fin.val_ofNat]
    omega
  have hlt := (List.getElem?_eq_some_iff.mp hr).1
  generalize hst : (⟨co.core.replyStation.corReplies.set co.corId
    (.ofBuf ⟨co.replyBuf, Plain.size V⟩)⟩ : ReplyStation) = station
  have hentry : station.corReplies[co.corId]? = some (.ofBuf ⟨co.replyBuf, Plain.size V⟩) := by
    rw [← hst]
    exact List.getElem?_set_self hlt
  have hreg : op.addOneReply co.core.replyStation ⟨co.replyBuf, Plain.size V⟩ = .ok station := by
    simp only [RPCOp.addOneReply, RPCOp.addReplyEntry, hcor,
      ReplyStation.addPendingReply_added hr hready, ok_bind, pure_eq_ok, hst]
  have hwaits : station.corReady co.corId = .ok false := ReplyStation.corReady_eq hentry
  refine ⟨{ co.core with replyStation := station }, (op.addArg (Plain.toBytes key)).1.finalize.msg,
    ?_, hentry, fun srv hsrv sid rest => ?_⟩
  · simp only [evalWRpc, setMsg_new, hop, hreg, hwaits, ok_bind, pure_eq_ok, Bool.not_false,
      ensure_true]
  · have hbuild : newMsg.build (getSteps co.corId key) =
        some (op.addArg (Plain.toBytes key)).1 := by
      simp only [getSteps, RPCOp.build, List.foldlM_cons, List.foldlM_nil, BuildStep.run, hop, hadd,
        if_true, Option.bind_eq_bind, Option.bind_some, Option.pure_def]
    have hfor : ∀ s ∈ getSteps co.corId key, s.For RPCId.GET.toNat co.corId := by
      simp [getSteps, BuildStep.For]
    have hdata : (getSteps co.corId key).flatMap BuildStep.bytes = Plain.toBytes key := by
      simp [getSteps, BuildStep.bytes]
    have hget : RPCId.GET.toNat < srv.callbacks.length := hsrv
    obtain ⟨f, h, -, hcorId, hdisp⟩ := request_dispatch setMsg_new hbuild hfor (by simp [getSteps])
      (by simp [getSteps]) (by simp [getSteps]) hget sid rest hdata
    refine ⟨f, h, hcorId.trans (Nat.mod_eq_of_lt hc), ?_⟩
    rw [hdisp, hlen, List.take_of_length_le (by omega)]
    rfl

theorem getCallback_ok {db : Store kNPageKey XKey V} (hV : Plain.size V ≤ 8)
    (hget : db.tree.get db.mem key = .ok (some v)) (h : Header) :
    ∃ (reply : List Byte) (h' : Header) (pad : ℕ),
      getCallback db h (Plain.toBytes key) = .ok reply ∧
      reply = h'.toBytes pad ++ Plain.toBytes v ∧ h'.type = MsgType.reply.toBits ∧
      h'.corId = h.corId ∧ h'.payload.val = Plain.size V := by
  have hholds := RPCOp.Holds.setMsg setMsg_new
  have hlen : (Plain.toBytes v).length = Plain.size V := Plain.length_toBytes v
  have hargs : (Plain.toBytes key).length = 8 := Plain.length_toBytes key
  have hadd : (newMsg.setReply.addArg (Plain.toBytes v)).2 = true :=
    addArg_fits rfl rfl (by omega)
  have hreply : newMsg.setReply.Holds [] := ⟨hholds.parts, hholds.used⟩
  have happended := hreply.append hadd
  change (newMsg.setReply.addArg (Plain.toBytes v)).1.Holds ([] ++ Plain.toBytes v) ∧
    (newMsg.setReply.addArg (Plain.toBytes v)).1.header = newMsg.setReply.header at happended
  obtain ⟨hadded, hheader⟩ := happended
  rw [List.nil_append] at hadded
  generalize hop : (newMsg.setReply.addArg (Plain.toBytes v)).1 = op at hadded hheader
  have hsent : (op.setCorid h.corId).Holds (Plain.toBytes v) := ⟨hadded.parts, hadded.used⟩
  obtain ⟨hfin, hmsg⟩ := hsent.finalize
  have hsmall : Plain.size V % 2 ^ 18 = Plain.size V := Nat.mod_eq_of_lt (by omega)
  rw [hlen, hsmall, List.take_of_length_le hlen.le] at hmsg
  refine ⟨_, (op.setCorid h.corId).finalize.header, _, ?_, hmsg, ?_, ?_, ?_⟩
  · simp only [getCallback, hargs, Plain.ofBytes_toBytes, hget, setMsg_new, hadd, hop,
      ok_bind, pure_eq_ok, need_some, beq_self_eq_true, ensure_true]
  · rw [hfin]
    exact congrArg Header.type hheader
  · rw [hfin]
    refine Fin.ext ?_
    simp only [RPCOp.setCorid, Fin.val_ofNat]
    omega
  · rw [hfin, hlen]
    simp only [Fin.val_ofNat, hsmall]

theorem poll_reply [ConnectData A] {core : RPCCore A} {h : Header} (pad : ℕ)
    (ht : h.type = MsgType.reply.toBits) (hc : h.corId.val = co.corId)
    (hp : h.payload.val = Plain.size V)
    (hentry : core.replyStation.corReplies[co.corId]? = some (.ofBuf ⟨co.replyBuf, Plain.size V⟩))
    (v : V) (sid : UInt32) (rest : List Byte) :
    ∃ core', core.poll ⟨sid, h.toBytes pad ++ Plain.toBytes v ++ rest⟩ = .ok core' ∧
      core'.addedBack = core.addedBack ++ [co.corId] ∧ evalWRpcResult co core' = v := by
  have hlen : (Plain.toBytes v).length = Plain.size V := Plain.length_toBytes v
  have hlt := (List.getElem?_eq_some_iff.mp hentry).1
  have hparse := RPCCore.parse_toBytes h pad (Plain.toBytes v) rest (by rw [hlen, hp])
  have hdisp : core.dispatch ⟨sid, h.toBytes pad ++ Plain.toBytes v ++ rest⟩ =
      .ok (.append h.corId (Plain.toBytes v)) :=
    RPCCore.dispatch_reply hparse (by rw [ht]; exact MsgType.ofBits_toBits _)
  generalize hst : (⟨core.replyStation.corReplies.set co.corId
    ⟨0, ⟨co.replyBuf, Plain.size V⟩, co.replyBuf + (Plain.toBytes v).length⟩⟩ : ReplyStation) =
      station
  have happ : core.replyStation.appendReply core.mem co.corId (Plain.toBytes v) =
      .ok (memcpy core.mem co.replyBuf (Plain.toBytes v), station, true) := by
    rw [ReplyStation.appendReply_wait hentry Nat.one_pos, ← hst]
    exact if_pos (by rw [hlen]; exact le_rfl)
  have hready : station.corReady co.corId = .ok true := by
    have hset : station.corReplies[co.corId]? =
        some ⟨0, ⟨co.replyBuf, Plain.size V⟩, co.replyBuf + (Plain.toBytes v).length⟩ := by
      rw [← hst]
      exact List.getElem?_set_self hlt
    exact ReplyStation.corReady_eq hset
  refine ⟨{ core with mem := memcpy core.mem co.replyBuf (Plain.toBytes v)
                      replyStation := station
                      addedBack := core.addedBack ++ [co.corId] }, ?_, rfl, ?_⟩
  · simp only [RPCCore.poll, hdisp, RPCCore.pollReply, RPCCore.reply, hc, happ, hready, ok_bind,
      pure_eq_ok, if_true]
  · rw [evalWRpcResult, ← hlen, slice_memcpy, Plain.ofBytes_toBytes]

/-- The way over the server: what `core_eval` waits for brings the value that is stored. -/
theorem evalWRpc_returns [ConnectData A] {db : Store kNPageKey XKey V} (hV : Plain.size V ≤ 8)
    (hget : db.tree.get db.mem key = .ok (some v)) (hidle : co.Idle) {srv : RPCCore A}
    (hsrv : 2 ≤ srv.callbacks.length) :
    ∃ core req, evalWRpc V co key = .ok (core, req) ∧ Returns db srv co v (.waits core req) := by
  obtain ⟨core, req, hreq, hentry, hserved⟩ := evalWRpc_ok (V := V) hidle key
  refine ⟨core, req, hreq, .replied core req (fun sid rest => ?_)⟩
  obtain ⟨f, h, hcor, hdisp⟩ := hserved srv hsrv sid rest
  obtain ⟨reply, h', pad, hcallback, rfl, ht, hcor', hpayload⟩ := getCallback_ok hV hget h
  refine ⟨f, _, _, hdisp, rfl, hcallback, fun core₁ sid₁ rest₁ hsame => ?_⟩
  exact poll_reply pad ht (by rw [hcor', hcor]) hpayload (hsame.trans hentry) v sid₁ rest₁

end Rpc

/-- What the bytes at an address show in their key slots does not have the key. -/
def Hides (ram : ℕ → Byte) (a : ℕ) (key : XKey) : Prop :=
  (XNodeKeys.ofBuffer kNPageKey XKey ram a).search key = none

section Pages
variable {ram mem : ℕ → Byte} {buf readSz ns count : ℕ} {key : XKey} {β : Type}

theorem range_split {n i : ℕ} {before after : List ℕ} (h : List.range n = before ++ i :: after) :
    i < n ∧ ∀ j < i, j ∈ before := by
  have hlen := congrArg List.length h
  rw [List.length_range, List.length_append, List.length_cons] at hlen
  have hi : (List.range n)[before.length]? = some i := by simp [h]
  rw [List.getElem?_range (by omega)] at hi
  obtain rfl := Option.some.inj hi
  refine ⟨by omega, fun j hj => ?_⟩
  have hget : (List.range n)[j]? = some j := List.getElem?_range (by omega)
  rw [h, List.getElem?_append_left hj] at hget
  exact List.mem_of_getElem? hget

/-- A loop that meets a node with the key fetches from the first one. -/
theorem searchPages_found (fetch : ℕ → Fin kNPageKey → Res β) {is : List ℕ}
    (h : ∃ i ∈ is, ¬ Hides mem (buf + readSz * i) key) :
    ∃ before i after idx, is = before ++ i :: after ∧
      (∀ j ∈ before, Hides mem (buf + readSz * j) key) ∧
      (XNodeKeys.ofBuffer kNPageKey XKey mem (buf + readSz * i)).search key = some idx ∧
      searchPages mem buf readSz key fetch is = fetch i idx := by
  induction is with
  | nil =>
    obtain ⟨i, hi, -⟩ := h
    cases hi
  | cons j is ih =>
    cases hj : (XNodeKeys.ofBuffer kNPageKey XKey mem (buf + readSz * j)).search key with
    | some idx =>
      refine ⟨[], j, is, idx, rfl, ?_, hj, by simp only [searchPages, hj]⟩
      exact fun i hi => absurd hi List.not_mem_nil
    | none =>
      obtain ⟨i, hi, hshown⟩ := h
      have hrest : i ∈ is := by
        cases List.mem_cons.mp hi with
        | inl heq => exact absurd (heq ▸ hj) hshown
        | inr hmem => exact hmem
      obtain ⟨before, i', after, idx, hsplit, hbefore, hidx, heq⟩ := ih ⟨i, hrest, hshown⟩
      refine ⟨j :: before, i', after, idx, by rw [hsplit]; rfl, ?_, hidx, ?_⟩
      · exact List.forall_mem_cons.mpr ⟨hj, hbefore⟩
      · simp only [searchPages, hj, heq]

theorem executeAsync_pages (ram mem : ℕ → Byte) {n : ℕ} {g : ℕ → ℕ} {reqs : BatchOp n}
    (h : reqs.Holds ((List.range count).map (fun i => ⟨g i, buf + readSz * i, readSz⟩))) :
    ∃ mem' reqs', reqs.executeAsync ram mem = .ok (mem', reqs') ∧
      ∀ i < count, slice mem' (buf + readSz * i) readSz = slice ram (g i) readSz := by
  obtain ⟨reqs', hexec⟩ := h.executeAsync ram mem
  refine ⟨_, reqs', hexec, fun i hi => ?_⟩
  rw [List.foldl_map]
  exact slice_blocks (fun i => length_slice readSz) hi

theorem readValue_eq (mem : ℕ → Byte) (co : Coroutine A) (addr : ℕ) (idx : Fin kNPageKey) :
    (readValue ram mem co addr idx : RPCCore A × V).2 = Plain.ofBytes
      (slice ram (addr + XNode.valueOffset kNPageKey XKey V idx) (Plain.size V)) := by
  have hle : Plain.size V ≤ (max co.flagsLen (Plain.size V)).toNat := by omega
  exact congrArg Plain.ofBytes (ReadOp.slice_execute _ hle)

end Pages

section Agree
variable {ram : ℕ → Byte} {tt : TT} {ns count : ℕ} {key : XKey}

/-- The one-sided way: the value comes from the first page of the range that shows the key. -/
theorem evalPages_ok (co : Coroutine A) {g : ℕ → ℕ} (hcount : count ≤ kMaxBatch)
    (hr : ∀ i < count, tt.getWoIncar (ns + i) = .ok (g i))
    (hfound : ∃ i < count, ¬ Hides ram (g i) key) :
    ∃ i < count, (∀ j < i, Hides ram (g j) key) ∧ ∃ idx core,
      (XNodeKeys.ofBuffer kNPageKey XKey ram (g i)).search key = some idx ∧
      (evalPages ram co tt ns count key : Res (RPCCore A × V)) = .ok (core, Plain.ofBytes
        (slice ram (g i + XNode.valueOffset kNPageKey XKey V idx) (Plain.size V))) := by
  obtain ⟨reqs, hreqs, hholds⟩ : ∃ reqs : BatchOp kMaxBatch, pageReads tt.getWoIncar co.myBuf
      (XNode.valueStartOffset kNPageKey XKey) ns count = .ok reqs ∧ reqs.Holds _ :=
    pageReads_ok hcount hr
  obtain ⟨mem, reqs', hexec, hslots⟩ := executeAsync_pages ram co.core.mem hholds
  have hnode : ∀ i < count, XNodeKeys.ofBuffer kNPageKey XKey mem (co.myBuf +
      XNode.valueStartOffset kNPageKey XKey * i) = XNodeKeys.ofBuffer kNPageKey XKey ram (g i) :=
    fun i hi => XNodeKeys.ofBuffer_congr (hslots i hi)
  obtain ⟨i, hi, hshown⟩ := hfound
  obtain ⟨before, j, after, idx, hsplit, hbefore, hidx, heq⟩ := searchPages_found (fun i idx => do
      let addr ← tt.getWoIncar (ns + i)
      pure (readValue ram mem co addr idx : RPCCore A × V))
    ⟨i, List.mem_range.mpr hi, by rwa [Hides, hnode i hi]⟩
  obtain ⟨hj, hfront⟩ := range_split hsplit
  rw [hnode j hj] at hidx
  refine ⟨j, hj, fun j' hj' => ?_, idx, (readValue ram mem co (g j) idx : RPCCore A × V).1, hidx,
    ?_⟩
  · have hhides := hbefore j' (hfront j' hj')
    rwa [Hides, hnode j' (hj'.trans hj)] at hhides
  · rw [← readValue_eq mem co]
    simp only [evalPages, hreqs, hexec, ok_bind]
    rw [heq, hr j hj, ok_bind]
    rfl

end Agree

/-- The leaves of a store stand in the memory of the server. -/
def Resident {N : ℕ} {K : Type} [KeyType K] [Plain K] (ram : ℕ → Byte) (kv : Store N K V) : Prop :=
  ∀ p ∈ kv.tree.leaves, (kv.mem p).At ram (kv.addr p)

/-- A page of the range, which the client may read. -/
def InRange [Usize] (tt : TT) (range : ℤ × ℤ) (p : ℕ) : Prop :=
  (pageRange tt range).1 ≤ p ∧ p ≤ (pageRange tt range).2

section Range
variable [Usize] {tt : TT} {range : ℤ × ℤ} {p : ℕ}

theorem InRange.place {i : ℕ}
    (hi : i < pageCount (pageRange tt range).1 (pageRange tt range).2) :
    InRange tt range ((pageRange tt range).1.toNat + i) := by
  have hns : 0 ≤ (pageRange tt range).1 := le_max_right _ _
  unfold pageCount at hi
  unfold InRange
  omega

theorem InRange.offset (hp : InRange tt range p) :
    p - (pageRange tt range).1.toNat <
      pageCount (pageRange tt range).1 (pageRange tt range).2 ∧
    (pageRange tt range).1.toNat + (p - (pageRange tt range).1.toNat) = p := by
  have hns : 0 ≤ (pageRange tt range).1 := le_max_right _ _
  unfold InRange at hp
  unfold pageCount
  omega

theorem InRange.lt (hp : InRange tt range p) : p < tt.size ∧ p < 2 ^ 31 := by
  have hns : (0 : ℤ) ≤ (pageRange tt range).1 := le_max_right _ _
  have hne : (pageRange tt range).2 ≤ toInt32 (tt.size - 1) := min_le_left _ _
  obtain ⟨hi, heq⟩ := hp.offset
  have hlt := page_lt hns hne hi
  rwa [heq] at hlt

theorem InRange.address (hp : InRange tt range p) :
    tt.getWoIncar p = .ok ((tt.entries[p]?).getD 0 >>> kIncarBit) := by
  obtain ⟨hsize, hint⟩ := hp.lt
  have hget : tt.entries[p]? = some tt.entries[p] := List.getElem?_eq_getElem hsize
  rw [TT.getWoIncar_eq hint hget, hget, Option.getD_some]

/-- The comparison of the int with the usize is one of numbers once a page is in the range. -/
theorem InRange.count_le (hp : InRange tt range p)
    (hbatch : ¬ toUsize ((pageRange tt range).2 - (pageRange tt range).1 + 1) > kMaxBatch) :
    pageCount (pageRange tt range).1 (pageRange tt range).2 ≤ kMaxBatch := by
  have hns : 0 ≤ (pageRange tt range).1 := le_max_right _ _
  have hlast : (pageRange tt range).2 < 2 ^ 31 := (min_le_left _ _).trans_lt (toInt32_lt _)
  have hwide : (2 : ℤ) ^ 32 ≤ 2 ^ Usize.bits :=
    pow_le_pow_right₀ (by decide) Usize.bits_ge
  unfold InRange at hp
  have hint : toUsize ((pageRange tt range).2 - (pageRange tt range).1 + 1) =
      (pageRange tt range).2 - (pageRange tt range).1 + 1 :=
    Int.emod_eq_of_lt (by omega) (by omega)
  rw [hint] at hbatch
  unfold pageCount
  omega

end Range

section Store
variable [StdSort] [Inhabited V] {w : World kNPageKey XKey V TrivalAlloc}
  {ops : List (XKey × V)} {addr : Ptr → ℕ} {ram : ℕ → Byte} {leaf : Ptr} {key : XKey}

omit [StdSort] [Inhabited V] in
theorem Resident.keys (hram : Resident ram ⟨addr, w.mem, w.tree⟩) (hleaf : leaf ∈ w.tree.leaves) :
    XNodeKeys.ofBuffer kNPageKey XKey ram (addr leaf) = (w.mem leaf).keys :=
  XNodeKeys.ofBuffer_eq (hram leaf hleaf).keys

omit [Plain V] in
theorem leaf_of_key {N : ℕ} {w : World N XKey V TrivalAlloc} (hN : 2 ≤ N) (hw : Built w ops)
    (hkey : key ∈ ops.map Prod.fst) :
    ∃ leaf ∈ w.tree.leaves, ∃ slot, (w.mem leaf).getKey slot = key := by
  obtain ⟨root, h⟩ := hw.inv hN
  obtain ⟨op, hop, rfl⟩ := List.mem_map.mp hkey
  obtain ⟨p, hp, -, hent⟩ := h.tree.find hN (hw.keys op hop)
  obtain ⟨slot, -, heq⟩ := ((w.mem p).mem_entries _).mp ((hent op.2).mpr hop)
  rw [XTree.leaves_of_root h.root_eq]
  exact ⟨p, hp, slot, congrArg Prod.fst heq⟩

/-- No leaf of the tree shows a key that another leaf stores. -/
theorem Resident.hides (hw : Built w ops) (hram : Resident ram ⟨addr, w.mem, w.tree⟩)
    (hkey : key ∈ ops.map Prod.fst) (hleaf : leaf ∈ w.tree.leaves)
    (hstored : ∃ slot, (w.mem leaf).getKey slot = key) {q : Ptr} (hq : q ∈ w.tree.leaves)
    (hne : addr q ≠ addr leaf) : Hides ram (addr q) key := by
  obtain ⟨root, h⟩ := hw.inv (by decide)
  obtain ⟨op, hop, rfl⟩ := List.mem_map.mp hkey
  have htop := hw.keys op hop
  rw [XTree.leaves_of_root h.root_eq] at hleaf hq
  rw [Hides, hram.keys (by rw [XTree.leaves_of_root h.root_eq]; exact hq),
    XNodeKeys.search_none_iff]
  intro slot hslot
  obtain ⟨slot', hslot'⟩ := hstored
  have hentry : ∀ (n : XNode kNPageKey XKey V) slot, n.keys.keys slot = op.1 →
      (op.1, n.values slot) ∈ n.entries := fun n slot heq =>
    (n.mem_entries _).mpr ⟨slot, by rw [heq]; exact htop, by rw [heq]⟩
  have hfound := h.tree.found (by decide) hleaf (hentry _ slot' hslot')
  have hfound' := h.tree.found (by decide) hq (hentry _ slot hslot)
  exact hne (congrArg addr (Except.ok.inj (hfound'.symm.trans hfound)))

theorem Resident.shown (hw : Built w ops) (hram : Resident ram ⟨addr, w.mem, w.tree⟩)
    (hkey : key ∈ ops.map Prod.fst) (hleaf : leaf ∈ w.tree.leaves)
    (hstored : ∃ slot, (w.mem leaf).getKey slot = key) {a : ℕ} {idx : Fin kNPageKey}
    (hother : (∀ l ∈ w.tree.leaves, addr l ≠ a) → Hides ram a key)
    (hidx : (XNodeKeys.ofBuffer kNPageKey XKey ram a).search key = some idx) : a = addr leaf := by
  by_contra hne
  have hhides : Hides ram a key := by
    by_cases hin : ∃ l ∈ w.tree.leaves, addr l = a
    · obtain ⟨l, hl, rfl⟩ := hin
      exact hram.hides hw hkey hleaf hstored hl hne
    · exact hother (fun l hl heq => hin ⟨l, hl, heq⟩)
  rw [Hides, hidx] at hhides
  cases hhides

theorem Resident.value (hw : Built w ops) (hV : Plain.size V ≤ 8)
    (hram : Resident ram ⟨addr, w.mem, w.tree⟩) (hkey : key ∈ ops.map Prod.fst)
    (hleaf : leaf ∈ w.tree.leaves) {idx : Fin kNPageKey}
    (hsearch : (XNodeKeys.ofBuffer kNPageKey XKey ram (addr leaf)).search key = some idx) :
    w.get key = .ok (some (Plain.ofBytes
      (slice ram (addr leaf + XNode.valueOffset kNPageKey XKey V idx) (Plain.size V)))) := by
  obtain ⟨root, h⟩ := hw.inv (by decide)
  obtain ⟨op, hop, rfl⟩ := List.mem_map.mp hkey
  have htop := hw.keys op hop
  rw [hram.keys hleaf] at hsearch
  have hslot := (w.mem leaf).keys.search_some hsearch
  have hvalue := (hram leaf hleaf).values hV idx (by simpa [hslot] using htop)
  rw [hvalue, Plain.ofBytes_toBytes]
  rw [XTree.leaves_of_root h.root_eq] at hleaf
  have hstored := h.tree.mem_entries hleaf ((search_entries (w.mem leaf) op.1 htop).1 idx hsearch)
  have htree : w.tree = ⟨w.tree.depth, some root⟩ := by rw [← h.root_eq]
  rw [World.get, htree]
  exact (h.tree.get (by decide) htop).1 _ hstored

variable [ConnectData A] [Usize] [DoubleArith] [MlTrait M₁ XKey] [MlTrait M₂ XKey]
  {cache : LocalTwoRMI M₁ M₂} {tts : List TT} {tt : TT} {range : ℤ × ℤ} {p : ℕ}

omit [StdSort] [Inhabited V] [ConnectData A] in
theorem coreEval_eq (hrange : cache.getPredictRange key = .ok range)
    (htt : tts[cache.selectSecModel key]? = some tt) (ram : ℕ → Byte) (co : Coroutine A) :
    (coreEval cache tts ram co key : Res (Eval A V)) =
      if toUsize ((pageRange tt range).2 - (pageRange tt range).1 + 1) > kMaxBatch
      then (evalWRpc V co key).map (fun out => .waits out.1 out.2)
      else (evalPages ram co tt (pageRange tt range).1.toNat
        (pageCount (pageRange tt range).1 (pageRange tt range).2) key).map
          (fun out => .done out.1 out.2) := by
  simp only [coreEval, hrange, htt, need_some, ok_bind]
  rfl

/-- The one-sided way and the way over the server agree: with a range that covers the leaf of
the key, and no page outside the tree that shows the key, `core_eval` ends with the value that
the callback finds. -/
theorem core_eval_agrees (hw : Built w ops) (hV : Plain.size V ≤ 8)
    (hram : Resident ram ⟨addr, w.mem, w.tree⟩) (hkey : key ∈ ops.map Prod.fst)
    (hleaf : leaf ∈ w.tree.leaves) (hstored : ∃ slot, (w.mem leaf).getKey slot = key)
    (hrange : cache.getPredictRange key = .ok range)
    (htt : tts[cache.selectSecModel key]? = some tt) (hp : InRange tt range p)
    (hpage : tt.getWoIncar p = .ok (addr leaf))
    (hother : ∀ q a, InRange tt range q → tt.getWoIncar q = .ok a →
      (∀ l ∈ w.tree.leaves, addr l ≠ a) → Hides ram a key)
    {co : Coroutine A} (hidle : co.Idle) {srv : RPCCore A} (hsrv : 2 ≤ srv.callbacks.length) :
    ∃ v, w.get key = .ok (some v) ∧ ∃ out, coreEval cache tts ram co key = .ok out ∧
      Returns ⟨addr, w.mem, w.tree⟩ srv co v out := by
  have hshown : ¬ Hides ram (addr leaf) key := by
    obtain ⟨slot, hslot⟩ := hstored
    rw [Hides, hram.keys hleaf, XNodeKeys.search_none_iff]
    exact fun hnone => hnone slot hslot
  rw [coreEval_eq hrange htt ram co]
  by_cases hbatch : toUsize ((pageRange tt range).2 - (pageRange tt range).1 + 1) > kMaxBatch
  · obtain ⟨idx, hidx⟩ := Option.ne_none_iff_exists'.mp hshown
    have hget : (⟨addr, w.mem, w.tree⟩ : Store kNPageKey XKey V).tree.get w.mem key = _ :=
      hram.value hw hV hkey hleaf hidx
    obtain ⟨core, req, hreq, hreturns⟩ := evalWRpc_returns hV hget hidle hsrv
    exact ⟨_, hget, _, by rw [if_pos hbatch, hreq]; rfl, hreturns⟩
  · obtain ⟨hoffset, hplace⟩ := hp.offset
    have haddr := Except.ok.inj (hp.address.symm.trans hpage)
    obtain ⟨i, hi, -, idx, core, hidx, hpages⟩ := evalPages_ok (V := V) co
      (hp.count_le hbatch) (fun i hi => (InRange.place hi).address)
      ⟨_, hoffset, by rw [hplace, haddr]; exact hshown⟩
    -- the page that was found first is the leaf, as no other one shows the key
    have hleafPage := hram.shown hw hkey hleaf hstored (fun hnone =>
      hother _ _ (InRange.place hi) (InRange.place hi).address hnone) hidx
    rw [hleafPage] at hidx hpages
    exact ⟨_, hram.value hw hV hkey hleaf hidx, _, by rw [if_neg hbatch, hpages]; rfl, .done core⟩

end Store

/-- A memory in which every node stands at 512 times its number. -/
def serverRam (m : Mem kNPageKey XKey V) : ℕ → Byte :=
  fun a => ((m (a / 512)).image[a % 512]?).getD 0

theorem serverRam_at (m : Mem kNPageKey XKey V) (hV : Plain.size V ≤ 8) (p : ℕ) :
    (m p).At (serverRam m) (512 * p) := by
  refine .of_image ?_
  have hlen : (m p).image.length = XNode.inplaceValueEndOffset kNPageKey XKey V :=
    XNode.length_image (m p)
  have hsmall : XNode.inplaceValueEndOffset kNPageKey XKey V ≤ 512 := by
    have hkeys : XNode.valueStartOffset kNPageKey XKey = 130 := rfl
    have hsixteen : Plain.size V * kNPageKey ≤ 8 * 16 := Nat.mul_le_mul_right 16 hV
    rw [XNode.inplaceValueEndOffset, hkeys]
    omega
  refine List.ext_getElem (by simp) (fun i h₁ h₂ => ?_)
  have hi : i < 512 := by omega
  have hdiv : (512 * p + i) / 512 = p := by omega
  have hmod : (512 * p + i) % 512 = i := by omega
  simp only [slice, List.getElem_map, List.getElem_range]
  rw [serverRam, hdiv, hmod, List.getElem?_eq_getElem h₂,
    Option.getD_some]

/-- A cache of one model, which predicts the positions from 0 to `last` for every key. -/
def flatCache (last : ℤ) : LocalTwoRMI FlatLR FlatLR where
  firstLayer := ⟨{}, 1, 1⟩
  secondLayer := [⟨{}, 0, last, last⟩]

theorem select_flatCache [Usize] [DoubleArith] (last : ℤ) (key : XKey) (tt : TT) :
    [tt][(flatCache last).selectSecModel key]? = some tt := by
  have hlt : (flatCache last).selectSecModel key < 1 :=
    LocalTwoRMI.selectSecModel_lt (List.cons_ne_nil _ _) key
  rw [Nat.lt_one_iff.mp hlt]
  rfl

def ramEntry (p : ℕ) : ℕ := 512 * p * 256

theorem getWoIncar_ramEntry {tt : TT} {i p : ℕ} (hi : i < 2 ^ 31)
    (h : tt.entries[i]? = some (ramEntry p)) : tt.getWoIncar i = .ok (512 * p) := by
  have hdiv : ramEntry p / 2 ^ kIncarBit = 512 * p := by
    rw [ramEntry, show 2 ^ kIncarBit = 256 from rfl]
    omega
  rw [TT.getWoIncar_eq hi h, Nat.shiftRight_eq_div_pow, hdiv]

theorem pageRange_ramEntry (p : ℕ) :
    letI := usize64
    pageRange ⟨[ramEntry p]⟩ (0, 15) = (0, 0) := by
  let : Usize := usize64
  have hsize : (⟨[ramEntry p]⟩ : TT).size = 1 := rfl
  simp only [pageRange, hsize]
  decide +kernel

theorem inRange_ramEntry (p q : ℕ) :
    letI := usize64
    InRange ⟨[ramEntry p]⟩ (0, 15) q ↔ q = 0 := by
  let : Usize := usize64
  rw [InRange, pageRange_ramEntry]
  omega

def oneCoroutine : Coroutine (List Byte) where
  core := .new 1 (fun _ => 0)
  corId := 0
  myBuf := 4096
  replyBuf := 16
  flagsLen := 8

def twoCallbacks : RPCCore (List Byte) :=
  .setup 1 (fun _ => 0) [fun _ _ => true, fun _ _ => true]

theorem oneCoroutine_idle : oneCoroutine.Idle := ⟨by decide, .empty, rfl, rfl⟩

theorem core_eval_agrees_one :
    letI := usize64
    letI := insertionStdSort
    letI := exactDouble
    letI : ConnectData (List Byte) := ⟨fun payload => some payload⟩
    ∃ (w : World kNPageKey XKey XKey TrivalAlloc) (leaf : ℕ) (v : XKey), Built w [(1, 10)] ∧
      w.get 1 = .ok (some v) ∧ ∃ out, coreEval (flatCache 15) [⟨[ramEntry leaf]⟩]
        (serverRam w.mem) oneCoroutine 1 = .ok out ∧
      Returns ⟨fun p => 512 * p, w.mem, w.tree⟩ twoCallbacks oneCoroutine v out := by
  let : Usize := usize64
  let : StdSort := insertionStdSort
  let : DoubleArith := exactDouble
  let : ConnectData (List Byte) := ⟨fun payload => some payload⟩
  obtain ⟨w, hw⟩ := Built.exists (by decide) (fun _ => XNode.new : Mem kNPageKey XKey XKey)
    [(1, 10)] (List.cons_ne_nil _ _) (List.forall_mem_singleton.mpr (by decide))
    (List.nodup_singleton _)
  have hkey : (1 : XKey) ∈ [((1 : XKey), (10 : XKey))].map Prod.fst := List.mem_cons_self
  obtain ⟨leaf, hleaf, hslot⟩ := leaf_of_key (by decide) hw hkey
  have hram : Resident (serverRam w.mem) ⟨fun p => 512 * p, w.mem, w.tree⟩ :=
    fun p _ => serverRam_at w.mem (by decide) p
  have hpage : (⟨[ramEntry leaf]⟩ : TT).getWoIncar 0 = .ok (512 * leaf) :=
    getWoIncar_ramEntry (by decide) rfl
  have hrange : (flatCache 15).getPredictRange (1 : XKey) = .ok (0, 15) := by decide +kernel
  obtain ⟨v, hget, out, hout, hreturns⟩ := core_eval_agrees hw (by decide) hram hkey hleaf
    hslot hrange (select_flatCache 15 1 ⟨[ramEntry leaf]⟩) ((inRange_ramEntry leaf 0).mpr rfl)
    hpage (fun q a hq hqa hnone => by
      obtain rfl := (inRange_ramEntry leaf q).mp hq
      exact absurd (Except.ok.inj (hpage.symm.trans hqa)) (hnone leaf hleaf))
    oneCoroutine_idle (show 2 ≤ twoCallbacks.callbacks.length from le_refl 2)
  exact ⟨w, leaf, v, hw, hget, out, hout, hreturns⟩

/-- A node outside the tree that shows the key 1, with another value. -/
def strayNode : XNode kNPageKey XKey XKey where
  keys := ⟨fun i => if i.val = 0 then 1 else ⊤, 0⟩
  values _ := 99
  next := none

theorem coreEval_stray [Usize] [DoubleArith] [ConnectData (List Byte)]
    {cache : LocalTwoRMI FlatLR FlatLR} {tts : List TT} {tt : TT} {range : ℤ × ℤ}
    {ram : ℕ → Byte} {a b : ℕ} (hrange : cache.getPredictRange (1 : XKey) = .ok range)
    (htt : tts[cache.selectSecModel (1 : XKey)]? = some tt)
    (hpages : pageRange tt range = (0, 1)) (hstray : strayNode.At ram a)
    (hfirst : tt.getWoIncar 0 = .ok a) (hsecond : tt.getWoIncar 1 = .ok b) :
    ∃ core, coreEval cache tts ram oneCoroutine (1 : XKey) = .ok (.done core (99 : XKey)) := by
  have hsearch : (XNodeKeys.ofBuffer kNPageKey XKey ram a).search 1 = some ⟨0, by decide⟩ := by
    rw [XNodeKeys.ofBuffer_eq hstray.keys]
    decide +kernel
  have haddr : ∀ i < 2, tt.getWoIncar (0 + i) = .ok (if i = 0 then a else b) := by
    intro i hi
    cases i with
    | zero => exact hfirst
    | succ i =>
      obtain rfl : i = 0 := by omega
      exact hsecond
  have hfound : ∃ i < 2, ¬ Hides ram (if i = 0 then a else b) (1 : XKey) :=
    ⟨0, by decide, by rw [Hides, if_pos rfl, hsearch]; simp⟩
  obtain ⟨i, -, hbefore, idx, core, hidx, heval⟩ :=
    evalPages_ok (V := XKey) oneCoroutine (by decide) haddr hfound
  have hzero : i = 0 := by
    by_contra hne
    have hhides := hbefore 0 (Nat.pos_of_ne_zero hne)
    rw [Hides, if_pos rfl, hsearch] at hhides
    cases hhides
  rw [hzero, if_pos rfl] at hidx heval
  obtain rfl := Option.some.inj (hsearch.symm.trans hidx)
  have hvalue := hstray.values (by decide) ⟨0, by decide⟩ (by decide)
  rw [hvalue, Plain.ofBytes_toBytes] at heval
  have hwide : (2 : ℤ) ^ 32 ≤ 2 ^ Usize.bits :=
    pow_le_pow_right₀ (by decide) Usize.bits_ge
  have hbatch : toUsize (1 - 0 + 1) = 2 := Int.emod_eq_of_lt (by decide) (by omega)
  refine ⟨core, ?_⟩
  rw [coreEval_eq hrange htt, hpages, hbatch, if_neg (by decide)]
  exact congrArg (Except.map (fun out => Eval.done out.1 out.2)) heval

/-- A table whose first page is no leaf of the tree: its value is returned. -/
theorem core_eval_stray_page :
    letI := usize64
    letI := insertionStdSort
    letI := exactDouble
    letI : ConnectData (List Byte) := ⟨fun payload => some payload⟩
    ¬ ∀ (w : World kNPageKey XKey XKey TrivalAlloc) (ops : List (XKey × XKey)) (addr : Ptr → ℕ)
      (ram : ℕ → Byte) (leaf : Ptr) (key : XKey) (cache : LocalTwoRMI FlatLR FlatLR)
      (tts : List TT) (tt : TT) (range : ℤ × ℤ) (p : ℕ) (co : Coroutine (List Byte))
      (srv : RPCCore (List Byte)), Built w ops → Resident ram ⟨addr, w.mem, w.tree⟩ →
      key ∈ ops.map Prod.fst → leaf ∈ w.tree.leaves → (∃ slot, (w.mem leaf).getKey slot = key) →
      cache.getPredictRange key = .ok range → tts[cache.selectSecModel key]? = some tt →
      InRange tt range p → tt.getWoIncar p = .ok (addr leaf) → co.Idle →
      2 ≤ srv.callbacks.length →
      ∃ v, w.get key = .ok (some v) ∧ ∃ out, coreEval cache tts ram co key = .ok out ∧
        Returns ⟨addr, w.mem, w.tree⟩ srv co v out := by
  let : Usize := usize64
  let : StdSort := insertionStdSort
  let : DoubleArith := exactDouble
  let : ConnectData (List Byte) := ⟨fun payload => some payload⟩
  intro hall
  obtain ⟨w, hw⟩ := Built.exists (by decide) (fun _ => XNode.new : Mem kNPageKey XKey XKey)
    [(1, 10)] (List.cons_ne_nil _ _) (List.forall_mem_singleton.mpr (by decide))
    (List.nodup_singleton _)
  have hkey : (1 : XKey) ∈ [((1 : XKey), (10 : XKey))].map Prod.fst := List.mem_cons_self
  obtain ⟨leaf, hleaf, hslot⟩ := leaf_of_key (by decide) hw hkey
  obtain ⟨root, hinv⟩ := hw.inv (by decide)
  -- the stray node stands in the next block of the allocator
  generalize hc : w.alloc.allocated = c
  generalize hm : Function.update w.mem c strayNode = m
  have hat : ∀ p ∈ w.tree.leaves, (w.mem p).At (serverRam m) (512 * p) := by
    intro p hp
    rw [XTree.leaves_of_root hinv.root_eq] at hp
    have hne : p ≠ c := hc ▸ (hinv.allocated p hp).ne
    have hsame : m p = w.mem p := by rw [← hm, Function.update_of_ne hne]
    rw [← hsame]
    exact serverRam_at m (by decide) p
  have hstray : strayNode.At (serverRam m) (512 * c) := by
    have hself : m c = strayNode := by rw [← hm, Function.update_self]
    rw [← hself]
    exact serverRam_at m (by decide) c
  generalize hentries : (⟨[ramEntry c, ramEntry leaf]⟩ : TT) = tt
  have hfirst : tt.getWoIncar 0 = .ok (512 * c) :=
    getWoIncar_ramEntry (by decide) (by rw [← hentries]; rfl)
  have hsecond : tt.getWoIncar 1 = .ok (512 * leaf) :=
    getWoIncar_ramEntry (by decide) (by rw [← hentries]; rfl)
  have hsize : tt.size = 2 := by rw [← hentries]; rfl
  have hpages : pageRange tt (0, 16) = (0, 1) := by
    simp only [pageRange, hsize]
    decide +kernel
  have hrange : (flatCache 16).getPredictRange (1 : XKey) = .ok (0, 16) := by decide +kernel
  have htt := select_flatCache 16 1 tt
  obtain ⟨v, hget, out, hout, hreturns⟩ := hall w _ (fun p => 512 * p) (serverRam m) leaf 1
    (flatCache 16) [tt] tt (0, 16) 1 oneCoroutine twoCallbacks hw hat hkey hleaf hslot hrange
    htt (by rw [InRange, hpages]; exact ⟨by decide, le_rfl⟩) hsecond oneCoroutine_idle (le_refl 2)
  obtain ⟨core, hstop⟩ := coreEval_stray hrange htt hpages hstray hfirst hsecond
  obtain rfl := Except.ok.inj (hstop.symm.trans hout)
  cases hreturns
  have htree : w.tree = ⟨w.tree.depth, some root⟩ := by rw [← hinv.root_eq]
  have hten := (hinv.tree.get (by decide) (show (1 : XKey) ≠ ⊤ by decide)).1 10
    (by exact List.mem_cons_self)
  rw [World.get, htree, hten] at hget
  exact absurd hget (by decide)

end XStore.Ycsb
