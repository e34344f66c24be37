import XStore.Xcomm.ReplyStation
import XStore.Ycsb.EvalAgree

/-! Any number of clients, with many coroutines each, get values from a server by RPC. Messages are
bytes, which arrive in any order or not at all. -/
namespace XStore.Ycsb
open XStore.Lib XStore.Xkv XStore.Xcache XStore.Xcomm
variable {A V : Type} [Plain V]

abbrev Cor := UInt32 × ℕ

/-- A message from a client or to it; `cor` is a record of the coroutine that waits. -/
structure Packet where
  cor : Cor
  bytes : List Byte

/-- The server, the clients and the messages between them. `phase` has the key and the reply buffer
of a coroutine that waits; `lost` and `returned` record the run. -/
structure GetNet (A V : Type) where
  srv : RPCCore A
  client : UInt32 → RPCCore A
  phase : Cor → Option (XKey × ℕ)
  requests : List Packet
  replies : List Packet
  lost : List Cor
  returned : List (Cor × XKey × V)

/-- The receive buffers are larger than the messages: `rest` is what stands behind one. -/
inductive GetEvent where
  | connect (sid : UInt32) (payload : List Byte)
  | get (q : Cor) (key : XKey) (buf : ℕ)
  | serve (i : ℕ) (rest : List Byte)
  | poll (i : ℕ) (rest : List Byte)
  | resume (q : Cor)
  | dropRequest (i : ℕ)
  | dropReply (i : ℕ)

def GetEvent.key (q : Cor) : GetEvent → Option XKey
  | .get q' key _ => if q' = q then some key else none
  | _ => none

def getFunc (db : Store kNPageKey XKey V) : Callback A :=
  fun _ call => (getCallback db call.header call.args).isOk

/-- A round of the event loop of the server for a request, with the reply that is sent and the
channel that it is sent on. -/
def serve (db : Store kNPageKey XKey V) (srv : RPCCore A) (msg : Msg) :
    Res (RPCCore A × List Byte × UDTransport A) := do
  match ← srv.dispatch msg with
  | .call f call => do
    let srv ← srv.request msg.sessionId f call
    let reply ← getCallback db call.header call.args
    let replyc ← need call.replyc .nullDeref
    pure (srv, reply, replyc)
  | _ => .error (.assert .msgType)

namespace GetNet

def init (metaFunc : Callback A) (db : Store kNPageKey XKey V) (numCors : ℕ)
    (mem : UInt32 → ℕ → Byte) : GetNet A V where
  srv := .setup numCors (mem 0) [metaFunc, getFunc db]
  client sid := .new numCors (mem sid)
  phase _ := none
  requests := []
  replies := []
  lost := []
  returned := []

def coroutine (s : GetNet A V) (q : Cor) (buf : ℕ) : Coroutine A where
  core := s.client q.1
  corId := q.2
  myBuf := 0
  replyBuf := buf
  flagsLen := 0

def setClient (s : GetNet A V) (sid : UInt32) (core : RPCCore A) : GetNet A V :=
  { s with client := Function.update s.client sid core }

def setPhase (s : GetNet A V) (q : Cor) (phase : Option (XKey × ℕ)) : GetNet A V :=
  { s with phase := Function.update s.phase q phase }

def keysReturned (s : GetNet A V) (q : Cor) : List XKey :=
  s.returned.filterMap fun x => if x.1 = q then some x.2.1 else none

variable [ConnectData A]

/-- One step. No result means that nobody is there for it; `home` says to which client a queue pair
belongs. -/
def exec (db : Store kNPageKey XKey V) (home : A → UInt32) (s : GetNet A V) :
    GetEvent → Option (Res (GetNet A V))
  | .connect sid payload => some do
    let srv ← s.srv.addNewSession sid payload
    pure { s with srv := srv }
  | .get q key buf =>
    match s.phase q with
    | none => some do
      let (core, req) ← evalWRpc V (s.coroutine q buf) key
      pure { (s.setClient q.1 core).setPhase q (some (key, buf)) with
        requests := s.requests ++ [⟨q, req⟩] }
    | some _ => none
  | .serve i rest =>
    match s.requests[i]? with
    | some p => some do
      let (srv, reply, replyc) ← serve db s.srv ⟨p.cor.1, p.bytes ++ rest⟩
      pure { s with srv := srv
                    requests := s.requests.eraseIdx i
                    replies := s.replies ++ [⟨(home replyc.attr, p.cor.2), reply⟩] }
    | none => none
  | .poll i rest =>
    match s.replies[i]? with
    | some p => some do
      let core ← (s.client p.cor.1).poll ⟨p.cor.1, p.bytes ++ rest⟩
      pure { s.setClient p.cor.1 core with replies := s.replies.eraseIdx i }
    | none => none
  | .resume q =>
    match s.phase q with
    | some (key, buf) =>
      let core := s.client q.1
      if q.2 ∈ core.addedBack then
        some (pure { (s.setClient q.1 { core with addedBack := core.addedBack.erase q.2 }).setPhase
          q none with
            returned := s.returned ++ [(q, key, evalWRpcResult (s.coroutine q buf) core)] })
      else none
    | none => none
  | .dropRequest i =>
    match s.requests[i]? with
    | some p => some (pure { s with requests := s.requests.eraseIdx i
                                    lost := s.lost ++ [p.cor] })
    | none => none
  | .dropReply i =>
    match s.replies[i]? with
    | some p => some (pure { s with replies := s.replies.eraseIdx i
                                    lost := s.lost ++ [p.cor] })
    | none => none

/-- A fault ends the run. -/
def step (db : Store kNPageKey XKey V) (home : A → UInt32) (s : GetNet A V) (e : GetEvent) :
    Option (GetNet A V) :=
  (s.exec db home e).bind Except.toOption

def Connected (home : A → UInt32) (s : GetNet A V) (sid : UInt32) : Prop :=
  ∃ a, s.srv.incomingSessions sid = some (some ⟨sid, a⟩) ∧ home a = sid

/-- A Connect has the queue pair of its client. A coroutine asks for a key of the store, with a
buffer that no coroutine of its client uses, and only once the client is connected. -/
def Good (db : Store kNPageKey XKey V) (home : A → UInt32) (numCors : ℕ) (s : GetNet A V) :
    GetEvent → Prop
  | .connect sid payload => ∃ a, ConnectData.interpret payload = some a ∧ home a = sid
  | .get q key buf => s.Connected home q.1 ∧ q.2 < numCors ∧
      (∃ v, db.tree.get db.mem key = .ok (some v)) ∧
      ∀ c key' buf', s.phase (q.1, c) = some (key', buf') →
        MemBlock.Apart ⟨buf, Plain.size V⟩ ⟨buf', Plain.size V⟩
  | _ => True

end GetNet
end XStore.Ycsb
