import XStore.Xcomm.Rpc

/-! Building a message (op.hh). The header is kept aside until `finalize` writes it in front of
the appended bytes; its bit-fields keep what fits into them. -/
namespace XStore.Xcomm
open XStore.Lib

/-- A message under construction: the bytes of its block and how many of them are in use.
`pad` is what stands in the padding of the header. -/
structure RPCOp where
  header : Header
  pad : ℕ
  msg : List Byte
  curSz : ℕ

namespace RPCOp

def setMsg (op : RPCOp) (b : List Byte) : Res RPCOp := do
  ensure (Header.size ≤ b.length) .msgHoldsHeader
  pure { op with msg := b, curSz := Header.size }

/-- The argument is a u32, the field a bit-field. -/
def setRpcId (op : RPCOp) (id : ℕ) : RPCOp :=
  { op with header := { op.header with rpcId := Fin.ofNat _ (id % 2^32) } }

def setType (op : RPCOp) (t : MsgType) : RPCOp :=
  { op with header := { op.header with type := t.toBits } }

def setReq (op : RPCOp) : RPCOp := op.setType .req
def setConnect (op : RPCOp) : RPCOp := op.setType .connect
def setReply (op : RPCOp) : RPCOp := op.setType .reply

def setCorid (op : RPCOp) (id : ℕ) : RPCOp :=
  { op with header := { op.header with corId := Fin.ofNat _ (id % 2^32) } }

/-- Write bytes behind those in use, if the block holds them. -/
def append (op : RPCOp) (bs : List Byte) : RPCOp × Bool :=
  if bs.length + op.curSz > op.msg.length then (op, false)
  else ({ op with msg := op.msg.take op.curSz ++ bs ++ op.msg.drop (op.curSz + bs.length)
                  curSz := op.curSz + bs.length }, true)

def addArg (op : RPCOp) (arg : List Byte) : RPCOp × Bool := op.append arg

def addOpaque (op : RPCOp) (data : List Byte) : RPCOp × Bool := op.append data

/-- `msg.sz` is computed from the field that the payload length was stored in. -/
def finalize (op : RPCOp) : RPCOp :=
  let header := { op.header with payload := Fin.ofNat _ (op.curSz - Header.size) }
  let msg := header.toBytes op.pad ++ op.msg.drop Header.size
  { op with header := header, msg := msg.take (header.payload + Header.size) }

/-- `add_reply_entry`; what `add_pending_reply` returned is dropped. -/
def addReplyEntry (op : RPCOp) (s : ReplyStation) (reply : ReplyEntry) : Res ReplyStation := do
  let (s, _) ← s.addPendingReply op.header.corId reply
  pure s

def addOneReply (op : RPCOp) (s : ReplyStation) (reply : MemBlock) : Res ReplyStation :=
  op.addReplyEntry s (.ofBuf reply)

end RPCOp

inductive BuildStep where
  | setReq
  | setRpcId (id : ℕ)
  | setCorid (id : ℕ)
  | addArg (arg : List Byte)
  | addOpaque (data : List Byte)

namespace BuildStep

def bytes : BuildStep → List Byte
  | addArg arg => arg
  | addOpaque data => data
  | _ => []

def run (op : RPCOp) : BuildStep → Option RPCOp
  | setReq => some op.setReq
  | setRpcId id => some (op.setRpcId id)
  | setCorid id => some (op.setCorid id)
  | addArg arg => if (op.addArg arg).2 then some (op.addArg arg).1 else none
  | addOpaque data => if (op.addOpaque data).2 then some (op.addOpaque data).1 else none

def onHeader : BuildStep → Header → Header
  | setReq, h => { h with type := MsgType.req.toBits }
  | setRpcId id, h => { h with rpcId := Fin.ofNat _ (id % 2^32) }
  | setCorid id, h => { h with corId := Fin.ofNat _ (id % 2^32) }
  | _, h => h

/-- The step sets nothing but a Req with this id and this coroutine. -/
def For (id c : ℕ) : BuildStep → Prop
  | setRpcId i => i = id
  | setCorid i => i = c
  | _ => True

/-- What one step establishes and no step undoes holds behind all of them. -/
theorem foldl_onHeader {P : BuildStep → Prop} (Q : Header → Prop) {s₀ : BuildStep}
    (hset : ∀ h, Q (s₀.onHeader h)) (hkeep : ∀ s h, P s → Q h → Q (s.onHeader h))
    (steps : List BuildStep) (hP : ∀ s ∈ steps, P s) (h : Header) (hor : Q h ∨ s₀ ∈ steps) :
    Q (steps.foldl (fun h s => s.onHeader h) h) := by
  induction steps generalizing h with
  | nil => exact hor.resolve_right (by simp)
  | cons s steps ih =>
    have hs := hP s (by simp)
    refine ih (fun t ht => hP t (List.mem_cons_of_mem s ht)) _ ?_
    cases hor with
    | inl hq => exact Or.inl (hkeep s h hs hq)
    | inr hmem =>
      cases List.mem_cons.mp hmem with
      | inl heq => exact Or.inl (heq ▸ hset h)
      | inr hmem => exact Or.inr hmem

end BuildStep

/-- What the steps leave in the op: the fields of the header and the bytes of the message. -/
structure RPCOp.Holds (op : RPCOp) (data : List Byte) : Prop where
  parts : ∃ front tail, op.msg = front ++ data ++ tail ∧ front.length = Header.size
  used : op.curSz = Header.size + data.length

namespace RPCOp
variable {op op' : RPCOp} {data : List Byte} {id c : ℕ}

theorem Holds.setMsg {b : List Byte} (h : op.setMsg b = .ok op') : op'.Holds [] := by
  obtain ⟨u, hlen, hop⟩ := bind_eq_ok.mp h
  obtain rfl := Except.ok.inj hop
  have hsz : Header.size ≤ b.length := by simpa using RPCCore.ensure_eq_ok hlen
  refine ⟨⟨b.take Header.size, b.drop Header.size, ?_, ?_⟩, rfl⟩
  · simp
  · rw [List.length_take, min_eq_left hsz]

theorem Holds.append {bs : List Byte} (h : op.Holds data) (hadd : (op.append bs).2 = true) :
    (op.append bs).1.Holds (data ++ bs) ∧ (op.append bs).1.header = op.header := by
  obtain ⟨⟨front, tail, hmsg, hfront⟩, hused⟩ := h
  unfold RPCOp.append at hadd ⊢
  split at hadd
  · cases hadd
  · next hfit =>
    have hlen : (front ++ data).length = op.curSz := by
      rw [List.length_append, hfront, hused]
    have hrest : op.msg.drop (op.curSz + bs.length) = tail.drop bs.length := by
      rw [hmsg, ← hlen, List.drop_append]
      simp
    rw [if_neg hfit]
    refine ⟨⟨⟨front, tail.drop bs.length, ?_, hfront⟩, ?_⟩, rfl⟩
    · simp only [hrest]
      rw [hmsg, List.take_left' hlen]
      simp
    · simp only [hused, List.length_append]
      omega

theorem Holds.step {s : BuildStep} (h : op.Holds data) (hrun : s.run op = some op') :
    op'.Holds (data ++ s.bytes) ∧ op'.header = s.onHeader op.header := by
  cases s with
  | setReq =>
    obtain rfl := Option.some.inj hrun
    exact ⟨by simpa [BuildStep.bytes] using ⟨h.parts, h.used⟩, rfl⟩
  | setRpcId i =>
    obtain rfl := Option.some.inj hrun
    exact ⟨by simpa [BuildStep.bytes] using ⟨h.parts, h.used⟩, rfl⟩
  | setCorid i =>
    obtain rfl := Option.some.inj hrun
    exact ⟨by simpa [BuildStep.bytes] using ⟨h.parts, h.used⟩, rfl⟩
  | addArg bs =>
    simp only [BuildStep.run, Option.ite_none_right_eq_some, Option.some.injEq] at hrun
    obtain ⟨hadd, rfl⟩ := hrun
    exact h.append hadd
  | addOpaque bs =>
    simp only [BuildStep.run, Option.ite_none_right_eq_some, Option.some.injEq] at hrun
    obtain ⟨hadd, rfl⟩ := hrun
    exact h.append hadd

def build (op : RPCOp) (steps : List BuildStep) : Option RPCOp :=
  steps.foldlM (fun op s => s.run op) op

theorem Holds.build {steps : List BuildStep} (h : op.Holds data)
    (hrun : op.build steps = some op') :
    op'.Holds (data ++ steps.flatMap BuildStep.bytes) ∧
      op'.header = steps.foldl (fun h s => s.onHeader h) op.header := by
  induction steps generalizing op data with
  | nil =>
    obtain rfl := Option.some.inj hrun
    exact ⟨by simpa using h, rfl⟩
  | cons s steps ih =>
    obtain ⟨op₁, hs, hrest⟩ := Option.bind_eq_some_iff.mp hrun
    obtain ⟨h₁, hheader₁⟩ := h.step hs
    obtain ⟨h', hheader⟩ := ih h₁ hrest
    exact ⟨by simpa using h', by rw [hheader, hheader₁]; rfl⟩

theorem build_header {steps : List BuildStep} (hfor : ∀ s ∈ steps, s.For id c)
    (hreq : .setReq ∈ steps) (hrpc : .setRpcId id ∈ steps) (hcor : .setCorid c ∈ steps)
    (h : Header) : (steps.foldl (fun h s => s.onHeader h) h).type = MsgType.req.toBits ∧
      (steps.foldl (fun h s => s.onHeader h) h).rpcId = Fin.ofNat _ (id % 2^32) ∧
      (steps.foldl (fun h s => s.onHeader h) h).corId = Fin.ofNat _ (c % 2^32) := by
  have htype := BuildStep.foldl_onHeader (fun h => h.type = MsgType.req.toBits)
    (fun h => rfl) (by intro s h hs hq; cases s <;> first | rfl | exact hq) steps hfor h
    (Or.inr hreq)
  have hid := BuildStep.foldl_onHeader (fun h => h.rpcId = Fin.ofNat _ (id % 2^32))
    (fun h => rfl) (by
      intro s h hs hq
      cases s with
      | setRpcId i => exact congrArg (fun i => Fin.ofNat _ (i % 2^32)) hs
      | _ => exact hq) steps hfor h (Or.inr hrpc)
  have hc := BuildStep.foldl_onHeader (fun h => h.corId = Fin.ofNat _ (c % 2^32))
    (fun h => rfl) (by
      intro s h hs hq
      cases s with
      | setCorid i => exact congrArg (fun i => Fin.ofNat _ (i % 2^32)) hs
      | _ => exact hq) steps hfor h (Or.inr hcor)
  exact ⟨htype, hid, hc⟩

/-- The finished message: the header, and as many of the bytes as its payload field says. -/
theorem Holds.finalize (h : op.Holds data) :
    op.finalize.header = { op.header with payload := Fin.ofNat _ data.length } ∧
      op.finalize.msg = op.finalize.header.toBytes op.pad ++ data.take (data.length % 2^18) := by
  obtain ⟨⟨front, tail, hmsg, hfront⟩, hused⟩ := h
  have hlen : op.curSz - Header.size = data.length := by omega
  have hdrop : op.msg.drop Header.size = data ++ tail := by
    rw [hmsg, List.append_assoc, List.drop_left' hfront]
  refine ⟨by simp [RPCOp.finalize, hlen], ?_⟩
  simp only [RPCOp.finalize, hlen, hdrop, Fin.val_ofNat]
  rw [List.take_append, List.take_of_length_le (by simp), Header.length_toBytes,
    Nat.add_sub_cancel, List.take_append_of_le_length (Nat.mod_le _ _)]

end RPCOp

section Request
variable {A : Type}

/-- What arrives is dispatched to the callback registered under `id`, with the coroutine `c`
and the appended bytes. -/
def Faithful (core : RPCCore A) (sid : UInt32) (msg : List Byte) (id c : ℕ) (data : List Byte) :
    Prop :=
  ∃ f h, core.callbacks[id]? = some f ∧ h.corId.val = c ∧
    core.dispatch ⟨sid, msg⟩ = .ok (.call f ⟨id, h, data, core.replyChannel sid⟩)

theorem RPCCore.parse_toBytes (h : Header) (pad : ℕ) (payload rest : List Byte)
    (hlen : payload.length = h.payload) :
    parse (h.toBytes pad ++ payload ++ rest) = .ok (h, payload) := by
  have hh : Header.ofBytes (h.toBytes pad ++ payload ++ rest) = h := by
    rw [List.append_assoc, Header.ofBytes_toBytes]
  have hdrop : (h.toBytes pad ++ payload ++ rest).drop Header.size = payload ++ rest := by
    rw [List.append_assoc, List.drop_left' (by simp)]
  simp only [parse, hh, hdrop, List.length_append, Header.length_toBytes, ← hlen]
  have hsz : Header.size ≤ Header.size + payload.length + rest.length := by omega
  have hpay : payload.length + Header.size ≤ Header.size + payload.length + rest.length := by omega
  simp [hsz, hpay]

/-- What a finished request looks like to the receiver. -/
theorem request_dispatch {op₀ op op' : RPCOp} {block : List Byte} {steps : List BuildStep}
    {id c : ℕ} (hset : op₀.setMsg block = .ok op) (hbuild : op.build steps = some op')
    (hfor : ∀ s ∈ steps, s.For id c) (hreq : .setReq ∈ steps) (hrpc : .setRpcId id ∈ steps)
    (hcor : .setCorid c ∈ steps) {core : RPCCore A} (hreg : id < core.callbacks.length)
    (sid : UInt32) (rest : List Byte) {data : List Byte}
    (hdata : steps.flatMap BuildStep.bytes = data) :
    ∃ (f : Callback A) (h : Header), core.callbacks[id % 2^5]? = some f ∧
      h.corId.val = c % 2^7 ∧
      core.dispatch ⟨sid, op'.finalize.msg ++ rest⟩ = .ok (.call f
        ⟨id % 2^5, h, data.take (data.length % 2^18), core.replyChannel sid⟩) := by
  obtain ⟨hholds, hheader⟩ := (RPCOp.Holds.setMsg hset).build hbuild
  obtain ⟨htype, hid, hc⟩ := RPCOp.build_header hfor hreq hrpc hcor op.header
  rw [← hheader] at htype hid hc
  obtain ⟨hfin, hmsg⟩ := hholds.finalize
  rw [List.nil_append, hdata] at hfin hmsg
  have hparse := RPCCore.parse_toBytes op'.finalize.header op'.pad
    (data.take (data.length % 2^18)) rest (by simp [hfin, Nat.mod_le])
  rw [← hmsg] at hparse
  have hval : op'.finalize.header.rpcId.val = id % 2^5 := by
    rw [hfin]
    simp only [hid, Fin.val_ofNat]
    omega
  have htype' : op'.finalize.header.type = MsgType.req.toBits := by
    rw [hfin]
    exact htype
  have hlt : id % 2^5 < core.callbacks.length := (Nat.mod_le _ _).trans_lt hreg
  refine ⟨core.callbacks[id % 2^5], op'.finalize.header, List.getElem?_eq_getElem hlt, ?_, ?_⟩
  · rw [hfin]
    simp only [hc, Fin.val_ofNat]
    omega
  · simp only [RPCCore.dispatch, hparse, ok_bind, htype', MsgType.ofBits_toBits, hval,
      List.getElem?_eq_getElem hlt, need_some, pure_eq_ok]

/-- A request arrives as it was built exactly if its parts fit into the bit-fields. -/
theorem request_faithful_iff {op₀ op op' : RPCOp} {block : List Byte} {steps : List BuildStep}
    {id c : ℕ} {core : RPCCore A} (hid : id < core.callbacks.length)
    (hset : op₀.setMsg block = .ok op) (hbuild : op.build steps = some op')
    (hfor : ∀ s ∈ steps, s.For id c) (hreq : .setReq ∈ steps) (hrpc : .setRpcId id ∈ steps)
    (hcor : .setCorid c ∈ steps) (sid : UInt32) (rest : List Byte) :
    Faithful core sid (op'.finalize.msg ++ rest) id c (steps.flatMap BuildStep.bytes) ↔
      id < 2^5 ∧ c < 2^7 ∧ (steps.flatMap BuildStep.bytes).length < 2^18 := by
  obtain ⟨f, h, hf, hc, hdisp⟩ :=
    request_dispatch hset hbuild hfor hreq hrpc hcor hid sid rest rfl
  constructor
  · rintro ⟨f', h', -, hc', hcall⟩
    have heq := Except.ok.inj (hdisp.symm.trans hcall)
    simp only [Action.call.injEq, Call.mk.injEq] at heq
    obtain ⟨-, hid', hh, hdata', -⟩ := heq
    have hlen := congrArg List.length hdata'
    rw [List.length_take, min_eq_left (Nat.mod_le _ _)] at hlen
    rw [← hh, hc] at hc'
    omega
  · rintro ⟨hid', hc', hlen⟩
    have hidmod := Nat.mod_eq_of_lt hid'
    rw [hidmod] at hf hdisp
    rw [Nat.mod_eq_of_lt hlen, List.take_length] at hdisp
    exact ⟨f, h, hf, hc.trans (Nat.mod_eq_of_lt hc'), hdisp⟩

end Request

/-- An op whose message block is empty and whose header is anything, here zero. -/
def RPCOp.blank : RPCOp where
  header := ⟨0, 0, 0, 0⟩
  pad := 0
  msg := []
  curSz := 0

theorem request_faithful_iff_two :
    ∃ op op', RPCOp.blank.setMsg (List.replicate 12 0) = .ok op ∧
      op.build [.setReq, .setRpcId 0, .addArg [1, 2], .setCorid 0] = some op' ∧
      (Faithful (.setup 1 (fun _ => 0) [fun _ _ => true] : RPCCore (List Byte)) 7
        (op'.finalize.msg ++ [9]) 0 0 [1, 2] ↔ 0 < 2^5 ∧ 0 < 2^7 ∧ 2 < 2^18) := by
  have hset : RPCOp.blank.setMsg (List.replicate 12 0) =
      .ok { RPCOp.blank with msg := List.replicate 12 0, curSz := 8 } := rfl
  have hfor : ∀ s ∈ [BuildStep.setReq, .setRpcId 0, .addArg [1, 2], .setCorid 0], s.For 0 0 := by
    simp [BuildStep.For]
  have hreg : 0 < (RPCCore.setup 1 (fun _ => 0)
      [(fun _ _ => true : Callback (List Byte))]).callbacks.length := by decide
  exact ⟨_, _, hset, rfl, request_faithful_iff hreg hset rfl hfor (by simp) (by simp) (by simp)
    7 [9]⟩

/-- With 33 callbacks the last one has the id 32, of which the field keeps 0. -/
theorem not_faithful_many :
    ¬ ∀ (numCors : ℕ) (callbacks : List (Callback (List Byte))) (op op' : RPCOp)
      (block : List Byte) (steps : List BuildStep) (id c : ℕ), id < callbacks.length →
      c < numCors → RPCOp.blank.setMsg block = .ok op → op.build steps = some op' →
      (∀ s ∈ steps, s.For id c) → .setReq ∈ steps → .setRpcId id ∈ steps →
      .setCorid c ∈ steps → ∀ sid rest,
        Faithful (.setup numCors (fun _ => 0) callbacks) sid (op'.finalize.msg ++ rest) id c
          (steps.flatMap BuildStep.bytes) := by
  intro hall
  have hset : RPCOp.blank.setMsg (List.replicate 8 0) =
      .ok { RPCOp.blank with msg := List.replicate 8 0, curSz := 8 } := rfl
  have hfor : ∀ s ∈ [BuildStep.setReq, .setRpcId 32, .setCorid 0], s.For 32 0 := by
    simp [BuildStep.For]
  have hreg : 32 < (RPCCore.setup 1 (fun _ => 0)
      (List.replicate 33 (fun _ _ => true : Callback (List Byte)))).callbacks.length := by
    rw [RPCCore.setup_eq]
    decide
  obtain ⟨g, h, -, -, hcall⟩ := hall 1 (List.replicate 33 (fun _ _ => true)) _ _ _
    [.setReq, .setRpcId 32, .setCorid 0] 32 0 (by decide) (by decide) hset rfl hfor (by simp)
    (by simp) (by simp) 7 []
  obtain ⟨f, h', -, -, hdisp⟩ := request_dispatch hset rfl hfor (by simp) (by simp) (by simp)
    hreg 7 [] rfl
  have heq := Except.ok.inj (hdisp.symm.trans hcall)
  simp at heq

end XStore.Xcomm
