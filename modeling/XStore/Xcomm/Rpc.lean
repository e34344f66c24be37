import XStore.Base
import XStore.Lib.Bytes
import Mathlib.Logic.Function.Basic

/-! The receiving side of the RPC framework: the message header (proto.hh), the reply station
(reply_station.hh), the sessions (trait.hh, rdma_ud_t.hh) and the event loops (mod.hh). -/
namespace XStore.Xcomm
open XStore.Lib

structure MemBlock where
  memPtr : ℕ
  sz : ℕ

inductive MsgType where
  | req | reply | connect
  deriving DecidableEq, Repr

namespace MsgType

def toBits : MsgType → Fin 4
  | req => 1
  | reply => 2
  | connect => 3

def ofBits (b : Fin 4) : Option MsgType :=
  if b = 1 then some req
  else if b = 2 then some reply
  else if b = 3 then some connect
  else none

@[simp] theorem ofBits_toBits (t : MsgType) : ofBits t.toBits = some t := by
  cases t <;> rfl

end MsgType

instance neZero_type : NeZero (2 ^ 2) := ⟨by decide⟩
instance neZero_rpcId : NeZero (2 ^ 5) := ⟨by decide⟩
instance neZero_payload : NeZero (2 ^ 18) := ⟨by decide⟩
instance neZero_corId : NeZero (2 ^ 7) := ⟨by decide⟩

structure Header where
  type : Fin (2^2)
  rpcId : Fin (2^5)
  payload : Fin (2^18)
  corId : Fin (2^7)
  deriving DecidableEq, Repr

namespace Header

/-- `sizeof`: the u32 of the bit-fields and four bytes of padding. -/
def size : ℕ := 8

/-- The u32 of the bit-fields, the first one in its lowest bits. -/
def toWord (h : Header) : ℕ := h.type + 2^2 * (h.rpcId + 2^5 * (h.payload + 2^18 * h.corId))

def ofWord (n : ℕ) : Header where
  type := Fin.ofNat _ n
  rpcId := Fin.ofNat _ (n / 2^2)
  payload := Fin.ofNat _ (n / 2^7)
  corId := Fin.ofNat _ (n / 2^25)

def toBytes (h : Header) (pad : ℕ) : List Byte :=
  Lib.toBytes 4 h.toWord ++ Lib.toBytes 4 pad

def ofBytes (msg : List Byte) : Header := ofWord (Lib.ofBytes (msg.take 4))

@[simp] theorem length_toBytes (h : Header) (pad : ℕ) : (h.toBytes pad).length = size := by
  simp [toBytes, size]

theorem toWord_lt (h : Header) : h.toWord < 256 ^ 4 := by
  obtain ⟨t, r, p, c⟩ := h
  simp only [toWord]
  omega

theorem ofWord_toWord (h : Header) : ofWord h.toWord = h := by
  obtain ⟨t, r, p, c⟩ := h
  simp only [ofWord, toWord, mk.injEq, Fin.ext_iff, Fin.val_ofNat]
  omega

/-- A header reads back as it was written, whatever stands in its padding and behind it. -/
@[simp] theorem ofBytes_toBytes (h : Header) (pad : ℕ) (rest : List Byte) :
    ofBytes (h.toBytes pad ++ rest) = h := by
  have htake : (h.toBytes pad ++ rest).take 4 = Lib.toBytes 4 h.toWord := by
    rw [toBytes, List.append_assoc, List.take_left' (by simp)]
  rw [ofBytes, htake, ofBytes_toBytes_of_lt h.toWord_lt, ofWord_toWord]

end Header

structure ReplyEntry where
  pendingReplies : ℕ
  replyBuf : MemBlock
  curPtr : ℕ

namespace ReplyEntry

def ofBuf (replyBuf : MemBlock) : ReplyEntry where
  pendingReplies := 1
  replyBuf := replyBuf
  curPtr := replyBuf.memPtr

def empty : ReplyEntry where
  pendingReplies := 0
  replyBuf := ⟨0, 0⟩
  curPtr := 0

end ReplyEntry

structure ReplyStation where
  corReplies : List ReplyEntry

namespace ReplyStation

def new (numCors : ℕ) : ReplyStation where
  corReplies := List.replicate numCors .empty

/-- `cor_replies[i]`, which checks nothing. -/
def entry (s : ReplyStation) (i : ℕ) : Res ReplyEntry := need s.corReplies[i]? .outOfRange

/-- An entry that still waits refuses the new one. -/
def addPendingReply (s : ReplyStation) (corId : ℕ) (reply : ReplyEntry) :
    Res (ReplyStation × Bool) := do
  ensure (corId < s.corReplies.length) .corInStation
  let r ← s.entry corId
  if r.pendingReplies > 0 then pure (s, false)
  else pure (⟨s.corReplies.set corId reply⟩, true)

def corReady (s : ReplyStation) (corId : ℕ) : Res Bool := do
  let r ← s.entry corId
  pure (r.pendingReplies == 0)

def appendReply (mem : ℕ → Byte) (s : ReplyStation) (corId : ℕ) (payload : List Byte) :
    Res ((ℕ → Byte) × ReplyStation × Bool) := do
  if ← s.corReady corId then pure (mem, s, false)
  else
    let r ← s.entry corId
    ensure (r.curPtr + payload.length ≤ r.replyBuf.memPtr + r.replyBuf.sz) .replyFits
    let mem := memcpy mem r.curPtr payload
    let r := { r with curPtr := r.curPtr + payload.length
                      pendingReplies := r.pendingReplies - 1 }
    pure (mem, ⟨s.corReplies.set corId r⟩, true)

section Spec
variable {mem : ℕ → Byte} {s : ReplyStation} {c : ℕ} {r reply : ReplyEntry} {payload : List Byte}

@[simp] theorem entry_eq_ok : s.entry c = .ok r ↔ s.corReplies[c]? = some r := by
  unfold entry
  cases s.corReplies[c]? <;> simp

theorem addPendingReply_out (h : s.corReplies.length ≤ c) :
    s.addPendingReply c reply = .error (.assert .corInStation) := by
  have hlt : ¬ c < s.corReplies.length := by omega
  simp [addPendingReply, hlt]

theorem addPendingReply_refused (hr : s.corReplies[c]? = some r) (hwait : 0 < r.pendingReplies) :
    s.addPendingReply c reply = .ok (s, false) := by
  have hlt := (List.getElem?_eq_some_iff.mp hr).1
  simp [addPendingReply, hlt, entry_eq_ok.mpr hr, hwait]

theorem addPendingReply_added (hr : s.corReplies[c]? = some r) (hready : r.pendingReplies = 0) :
    s.addPendingReply c reply = .ok (⟨s.corReplies.set c reply⟩, true) := by
  have hlt := (List.getElem?_eq_some_iff.mp hr).1
  simp [addPendingReply, hlt, entry_eq_ok.mpr hr, hready]

theorem corReady_eq (hr : s.corReplies[c]? = some r) :
    s.corReady c = .ok (r.pendingReplies == 0) := by
  simp [corReady, entry_eq_ok.mpr hr]

theorem appendReply_out (h : s.corReplies.length ≤ c) :
    appendReply mem s c payload = .error .outOfRange := by
  simp [appendReply, corReady, entry, List.getElem?_eq_none h]

theorem appendReply_late (hr : s.corReplies[c]? = some r) (hready : r.pendingReplies = 0) :
    appendReply mem s c payload = .ok (mem, s, false) := by
  simp [appendReply, corReady_eq hr, hready]

theorem appendReply_wait (hr : s.corReplies[c]? = some r) (hwait : 0 < r.pendingReplies) :
    appendReply mem s c payload =
      if r.curPtr + payload.length ≤ r.replyBuf.memPtr + r.replyBuf.sz then
        .ok (memcpy mem r.curPtr payload, ⟨s.corReplies.set c
          ⟨r.pendingReplies - 1, r.replyBuf, r.curPtr + payload.length⟩⟩, true)
      else .error (.assert .replyFits) := by
  have hne : (r.pendingReplies == 0) = false := by
    rw [beq_eq_false_iff_ne]
    omega
  have hentry := entry_eq_ok.mpr hr
  by_cases hfit : r.curPtr + payload.length ≤ r.replyBuf.memPtr + r.replyBuf.sz <;>
    simp [appendReply, corReady_eq hr, hne, hentry, hfit]

end Spec
end ReplyStation

/-- The reply channel to a session: the QP attribute that its Connect brought. -/
structure UDTransport (A : Type) where
  id : UInt32
  attr : A

/-- An `unordered_map` of `unique_ptr`s: a key may be absent, or present with a null pointer. -/
abbrev Sessions (A : Type) := UInt32 → Option (Option (UDTransport A))

namespace Sessions
variable {A : Type}

/-- `operator[]` inserts a null pointer for a key that is absent. -/
def index (m : Sessions A) (id : UInt32) : Sessions A × Option (UDTransport A) :=
  match m id with
  | some p => (m, p)
  | none => (Function.update m id (some none), none)

/-- `insert` leaves a key that is there as it is. -/
def insert (m : Sessions A) (id : UInt32) (p : Option (UDTransport A)) : Sessions A :=
  match m id with
  | some _ => m
  | none => Function.update m id (some p)

end Sessions

/-- The call of a callback: its number, the header, the arguments and the reply channel. -/
structure Call (A : Type) where
  rpcId : ℕ
  header : Header
  args : List Byte
  replyc : Option (UDTransport A)

/-- A callback returns or throws. What it does depends on the call, and on all calls that were
made before. -/
abbrev Callback (A : Type) := List (Call A) → Call A → Bool

/-- The core, with the memory that replies are written to. `calls` are the calls made so far
and `addedBack` the coroutines handed back to the scheduler. -/
structure RPCCore (A : Type) where
  incomingSessions : Sessions A
  replyStation : ReplyStation
  callbacks : List (Callback A)
  mem : ℕ → Byte
  calls : List (Call A)
  addedBack : List ℕ

structure Msg where
  sessionId : UInt32
  bytes : List Byte

inductive Action (A : Type) where
  | call (f : Callback A) (c : Call A)
  | append (corId : ℕ) (payload : List Byte)
  | connect (id : UInt32) (payload : List Byte)

/-- `interpret_as<QPAttr>(0)` of a payload: a pointer into it, null if it is too small. -/
class ConnectData (A : Type) where
  interpret : List Byte → Option A

namespace RPCCore
variable {A : Type}

def new (numCors : ℕ) (mem : ℕ → Byte) : RPCCore A where
  incomingSessions _ := none
  replyStation := .new numCors
  callbacks := []
  mem := mem
  calls := []
  addedBack := []

def regCallback (c : RPCCore A) (callback : Callback A) : RPCCore A × ℕ :=
  ({ c with callbacks := c.callbacks ++ [callback] }, c.callbacks.length)

def setup (numCors : ℕ) (mem : ℕ → Byte) (callbacks : List (Callback A)) : RPCCore A :=
  callbacks.foldl (fun c f => (c.regCallback f).1) (new numCors mem)

def replyChannel (c : RPCCore A) (id : UInt32) : Option (UDTransport A) :=
  (c.incomingSessions.index id).2

def parse (msg : List Byte) : Res (Header × List Byte) := do
  ensure (Header.size ≤ msg.length) .msgSize
  let h := Header.ofBytes msg
  ensure (h.payload + Header.size ≤ msg.length) .payloadSize
  pure (h, (msg.drop Header.size).take h.payload)

/-- The switch over the message type. `at` throws on an id that is not registered; what is
thrown there is caught, and an ASSERT fails. -/
def dispatch (c : RPCCore A) (msg : Msg) : Res (Action A) := do
  let (h, payload) ← parse msg.bytes
  match MsgType.ofBits h.type with
  | some .req =>
    let f ← need c.callbacks[h.rpcId.val]? (.assert .rpcCalled)
    pure (.call f ⟨h.rpcId, h, payload, c.replyChannel msg.sessionId⟩)
  | some .reply => pure (.append h.corId payload)
  | some .connect => pure (.connect msg.sessionId payload)
  | none => .error (.assert .msgType)

def addNewSession [ConnectData A] (c : RPCCore A) (id : UInt32) (payload : List Byte) :
    Res (RPCCore A) := do
  let attr ← need (ConnectData.interpret payload) (.assert .connectData)
  pure { c with incomingSessions := c.incomingSessions.insert id (some ⟨id, attr⟩) }

/-- Call the callback; the lookup of the channel may leave a null pointer behind. -/
def request (c : RPCCore A) (id : UInt32) (f : Callback A) (call : Call A) :
    Res (RPCCore A) := do
  ensure (f c.calls call) .rpcCalled
  pure { c with incomingSessions := (c.incomingSessions.index id).1, calls := c.calls ++ [call] }

/-- `append_reply`, and the ASSERT that it took the reply; `late` is where that leads if not. -/
def reply (c : RPCCore A) (late : Fault) (corId : ℕ) (payload : List Byte) : Res (RPCCore A) := do
  let (mem, station, ret) ← c.replyStation.appendReply c.mem corId payload
  if ret then pure { c with mem := mem, replyStation := station } else .error late

/-- The Reply case of the future: a coroutine whose last reply came goes back to the
scheduler. -/
def pollReply (c : RPCCore A) (corId : ℕ) (payload : List Byte) : Res (RPCCore A) := do
  let c ← c.reply (.assert .replyAdded) corId payload
  if ← c.replyStation.corReady corId then pure { c with addedBack := c.addedBack ++ [corId] }
  else pure c

def recv [ConnectData A] (c : RPCCore A) (msg : Msg) : Res (RPCCore A) := do
  match ← c.dispatch msg with
  | .call f call => c.request msg.sessionId f call
  -- the ASSERT prints the header, with an `operator<<` that does not return
  | .append corId payload => c.reply .noReturn corId payload
  | .connect id payload => c.addNewSession id payload

def poll [ConnectData A] (c : RPCCore A) (msg : Msg) : Res (RPCCore A) := do
  match ← c.dispatch msg with
  | .call f call => c.request msg.sessionId f call
  | .append corId payload => c.pollReply corId payload
  | .connect id payload => c.addNewSession id payload

def recvEventLoop [ConnectData A] (c : RPCCore A) (msgs : List Msg) : Res (RPCCore A) :=
  msgs.foldlM recv c

def pollFuture [ConnectData A] (c : RPCCore A) (msgs : List Msg) : Res (RPCCore A) :=
  msgs.foldlM poll c

theorem setup_eq (numCors : ℕ) (mem : ℕ → Byte) (callbacks : List (Callback A)) :
    setup numCors mem callbacks =
      { (new numCors mem : RPCCore A) with callbacks := callbacks } := by
  have hfold : ∀ (c : RPCCore A) (fs : List (Callback A)),
      fs.foldl (fun c f => (c.regCallback f).1) c = { c with callbacks := c.callbacks ++ fs } := by
    intro c fs
    induction fs generalizing c with
    | nil => simp
    | cons f fs ih =>
      rw [List.foldl_cons, ih]
      simp [regCallback]
  exact hfold _ _

inductive Recv [ConnectData A] (c : RPCCore A) (m : Msg) (h : Header) (payload : List Byte) :
    RPCCore A → Prop where
  | req (f : Callback A) (ht : MsgType.ofBits h.type = some .req)
      (hf : c.callbacks[h.rpcId.val]? = some f)
      (hret : f c.calls ⟨h.rpcId, h, payload, c.replyChannel m.sessionId⟩ = true) :
      Recv c m h payload { c with
        incomingSessions := (c.incomingSessions.index m.sessionId).1
        calls := c.calls ++ [⟨h.rpcId, h, payload, c.replyChannel m.sessionId⟩] }
  | reply (mem : ℕ → Byte) (station : ReplyStation) (ht : MsgType.ofBits h.type = some .reply)
      (happ : c.replyStation.appendReply c.mem h.corId payload = .ok (mem, station, true)) :
      Recv c m h payload { c with mem := mem, replyStation := station }
  | connect (a : A) (ht : MsgType.ofBits h.type = some .connect)
      (ha : ConnectData.interpret payload = some a) :
      Recv c m h payload { c with
        incomingSessions := c.incomingSessions.insert m.sessionId (some ⟨m.sessionId, a⟩) }

theorem ensure_eq_ok {b : Bool} {s : Site} {u : Unit} (h : ensure b s = .ok u) : b = true := by
  cases b with
  | true => rfl
  | false => cases h

theorem recv_cases [ConnectData A] {c c' : RPCCore A} {m : Msg} (hrecv : c.recv m = .ok c') :
    ∃ h payload, parse m.bytes = .ok (h, payload) ∧ Recv c m h payload c' := by
  obtain ⟨action, hdisp, hact⟩ := bind_eq_ok.mp hrecv
  obtain ⟨⟨h, payload⟩, hparse, hswitch⟩ := bind_eq_ok.mp hdisp
  refine ⟨h, payload, hparse, ?_⟩
  cases ht : MsgType.ofBits h.type with
  | none => simp [ht] at hswitch
  | some t =>
    cases t with
    | req =>
      simp only [ht] at hswitch
      obtain ⟨f, hf, hcall⟩ := bind_eq_ok.mp hswitch
      obtain rfl := Except.ok.inj hcall
      have hf' : c.callbacks[h.rpcId.val]? = some f := by
        cases hget : c.callbacks[h.rpcId.val]? with
        | none => simp [hget] at hf
        | some g => simpa [hget] using hf
      obtain ⟨u, hret, hc'⟩ := bind_eq_ok.mp hact
      obtain rfl := Except.ok.inj hc'
      exact .req f ht hf' (ensure_eq_ok hret)
    | reply =>
      simp only [ht, pure_eq_ok, Except.ok.injEq] at hswitch
      obtain rfl := hswitch
      obtain ⟨⟨mem, station, ret⟩, happ, hrest⟩ := bind_eq_ok.mp hact
      cases ret with
      | false => cases hrest
      | true =>
        obtain rfl := Except.ok.inj hrest
        exact .reply mem station ht happ
    | connect =>
      simp only [ht, pure_eq_ok, Except.ok.injEq] at hswitch
      obtain rfl := hswitch
      obtain ⟨a, ha, hc'⟩ := bind_eq_ok.mp hact
      obtain rfl := Except.ok.inj hc'
      have ha' : ConnectData.interpret payload = some a := by
        cases hint : ConnectData.interpret (A := A) payload with
        | none => simp [hint] at ha
        | some b => simpa [hint] using ha
      exact .connect a ht ha'

end RPCCore
end XStore.Xcomm
