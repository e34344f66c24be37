import XStore.Ycsb.GetNet

/-! The calls of a get: what the request, the reply and the poll of it do, each as bytes. -/
namespace XStore.Ycsb
open XStore.Lib XStore.Xkv XStore.Xcache XStore.Xcomm
variable {A V : Type} [Plain V]

/-- Whatever server with both callbacks gets the bytes calls `get_callback` for the coroutine with
the key. -/
def Asks (A : Type) (bytes : List Byte) (c : ℕ) (key : XKey) : Prop :=
  ∀ srv : RPCCore A, 2 ≤ srv.callbacks.length → ∀ sid rest, ∃ f h, h.corId.val = c ∧
    srv.dispatch ⟨sid, bytes ++ rest⟩ =
      .ok (.call f ⟨RPCId.GET.toNat, h, Plain.toBytes key, srv.replyChannel sid⟩)

def Brings (bytes : List Byte) (c : ℕ) (v : V) : Prop :=
  ∃ (h : Header) (pad : ℕ), bytes = h.toBytes pad ++ Plain.toBytes v ∧
    h.type = MsgType.reply.toBits ∧ h.corId.val = c ∧ h.payload.val = Plain.size V

section Calls
variable {co : Coroutine A} {key : XKey} {core : RPCCore A} {db : Store kNPageKey XKey V} {v : V}
  {c : ℕ}

/-- The request registers the reply buffer, and nothing else in the client changes. -/
theorem evalWRpc_asks (hidle : co.Idle) (key : XKey) :
    ∃ req, evalWRpc V co key = .ok ({ co.core with
      replyStation := ⟨co.core.replyStation.corReplies.set co.corId
        (.ofBuf ⟨co.replyBuf, Plain.size V⟩)⟩ }, req) ∧ Asks A req co.corId key := by
  obtain ⟨core, req, heval, -, hasks⟩ := evalWRpc_ok (V := V) hidle key
  refine ⟨req, ?_, hasks⟩
  obtain ⟨hc, r, hr, hready⟩ := hidle
  obtain ⟨op, hop, hrest⟩ := bind_eq_ok.mp heval
  obtain rfl := Except.ok.inj (setMsg_new.symm.trans hop)
  obtain ⟨station, hstation, hwait⟩ := bind_eq_ok.mp hrest
  obtain ⟨ready, -, hlast⟩ := bind_eq_ok.mp hwait
  obtain ⟨-, -, hcore⟩ := bind_eq_ok.mp hlast
  have hcor : (((newMsg.setReq).setRpcId RPCId.GET.toNat).setCorid co.corId).header.corId.val =
      co.corId := by
    simp only [RPCOp.setCorid, Fin.val_ofNat]
    omega
  simp only [RPCOp.addOneReply, RPCOp.addReplyEntry, hcor,
    ReplyStation.addPendingReply_added hr hready, ok_bind, pure_eq_ok] at hstation
  obtain rfl := Except.ok.inj hstation
  have heq := (Prod.mk.inj (Except.ok.inj hcore)).1
  rw [heval, heq]

theorem dispatch_call {srv : RPCCore A} {msg : Msg} {f : Callback A} {call : Call A}
    (h : srv.dispatch msg = .ok (.call f call)) : srv.callbacks[call.rpcId]? = some f := by
  obtain ⟨⟨h, payload⟩, -, hswitch⟩ := bind_eq_ok.mp h
  cases ht : MsgType.ofBits h.type with
  | none => simp [ht] at hswitch
  | some t =>
    cases t with
    | req =>
      simp only [ht] at hswitch
      obtain ⟨g, hg, hcall⟩ := bind_eq_ok.mp hswitch
      obtain ⟨rfl, rfl⟩ := Action.call.inj (Except.ok.inj hcall)
      exact need_eq_ok.mp hg
    | reply =>
      simp only [ht, pure_eq_ok, Except.ok.injEq] at hswitch
      cases hswitch
    | connect =>
      simp only [ht, pure_eq_ok, Except.ok.injEq] at hswitch
      cases hswitch

/-- A request for a key of the store, from a client that is connected, is answered. -/
theorem serve_ok (hV : Plain.size V ≤ 8) {srv : RPCCore A} {metaFunc : Callback A}
    (hcallbacks : srv.callbacks = [metaFunc, getFunc db]) {sid : UInt32} {a : A}
    (hconnected : srv.incomingSessions sid = some (some ⟨sid, a⟩)) {bytes : List Byte}
    (hasks : Asks A bytes c key) (hget : db.tree.get db.mem key = .ok (some v))
    (rest : List Byte) :
    ∃ srv' reply, serve db srv ⟨sid, bytes ++ rest⟩ = .ok (srv', reply, ⟨sid, a⟩) ∧
      srv'.callbacks = srv.callbacks ∧ srv'.incomingSessions = srv.incomingSessions ∧
      Brings reply c v := by
  obtain ⟨f, h, hc, hdisp⟩ := hasks srv (by simp [hcallbacks]) sid rest
  obtain ⟨reply, h', pad, hcallback, hreply, ht, hcor, hpayload⟩ := getCallback_ok hV hget h
  have hf : f = getFunc db := by
    have hat := dispatch_call hdisp
    rw [hcallbacks] at hat
    exact (Option.some.inj hat).symm
  have hindex : srv.incomingSessions.index sid = (srv.incomingSessions, some ⟨sid, a⟩) := by
    simp [Sessions.index, hconnected]
  subst hf
  refine ⟨{ srv with calls := srv.calls ++ [⟨RPCId.GET.toNat, h, Plain.toBytes key,
    some ⟨sid, a⟩⟩] }, reply, ?_, rfl, rfl, h', pad, hreply, ht, by rw [hcor, hc], hpayload⟩
  have hruns : getFunc db srv.calls ⟨RPCId.GET.toNat, h, Plain.toBytes key, some ⟨sid, a⟩⟩ =
      true := by
    simp [getFunc, hcallback, Except.isOk, Except.toBool]
  simp only [serve, hdisp, ok_bind, RPCCore.request, RPCCore.replyChannel, hindex, hruns,
    ensure_true, hcallback, need_some, pure_eq_ok]

/-- A reply fills the buffer of its coroutine and wakes it. -/
theorem poll_brings [ConnectData A] {bytes : List Byte} (hbrings : Brings bytes c v) {buf : ℕ}
    (hentry : core.replyStation.corReplies[c]? = some (.ofBuf ⟨buf, Plain.size V⟩)) (sid : UInt32)
    (rest : List Byte) :
    core.poll ⟨sid, bytes ++ rest⟩ = .ok { core with
      mem := memcpy core.mem buf (Plain.toBytes v)
      replyStation := ⟨core.replyStation.corReplies.set c
        ⟨0, ⟨buf, Plain.size V⟩, buf + (Plain.toBytes v).length⟩⟩
      addedBack := core.addedBack ++ [c] } := by
  obtain ⟨h, pad, rfl, ht, hc, hp⟩ := hbrings
  have hlen : (Plain.toBytes v).length = Plain.size V := Plain.length_toBytes v
  have hparse := RPCCore.parse_toBytes h pad (Plain.toBytes v) rest (by rw [hlen, hp])
  have hdisp : core.dispatch ⟨sid, h.toBytes pad ++ Plain.toBytes v ++ rest⟩ =
      .ok (.append h.corId (Plain.toBytes v)) :=
    RPCCore.dispatch_reply hparse (by rw [ht]; exact MsgType.ofBits_toBits _)
  generalize hst : (⟨core.replyStation.corReplies.set c
    ⟨0, ⟨buf, Plain.size V⟩, buf + (Plain.toBytes v).length⟩⟩ : ReplyStation) = station
  have happ : core.replyStation.appendReply core.mem c (Plain.toBytes v) =
      .ok (memcpy core.mem buf (Plain.toBytes v), station, true) := by
    rw [ReplyStation.appendReply_wait hentry Nat.one_pos, ← hst]
    exact if_pos (by rw [hlen]; exact le_rfl)
  have hready : station.corReady c = .ok true := by
    rw [← hst]
    exact ReplyStation.corReady_eq
      (List.getElem?_set_self (List.getElem?_eq_some_iff.mp hentry).1)
  simp only [RPCCore.poll, hdisp, RPCCore.pollReply, RPCCore.reply, hc, happ, hready, ok_bind,
    pure_eq_ok, if_true]

end Calls

end XStore.Ycsb
