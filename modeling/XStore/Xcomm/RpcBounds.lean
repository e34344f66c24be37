import XStore.Xcomm.Rpc
import XStore.Lib.Runs

/-! What any bytes can make the core do. The sizes that a message announces are checked and a
callback id is looked up with `at`, but the coroutine id of a Reply indexes the station as it
comes. -/
namespace XStore.Xcomm
open XStore.Lib
variable {A : Type} [ConnectData A]

/-- A run that goes through or stops at an ASSERT. -/
def InBounds {α : Type} (res : Res α) : Prop := ∀ f, res = .error f → ∃ site, f = .assert site

namespace InBounds
variable {α β : Type}

theorem ok (a : α) : InBounds (.ok a : Res α) := nofun

theorem ensure (b : Bool) (site : Site) : InBounds (XStore.ensure b site) := by
  intro f hf
  cases b with
  | true => cases hf
  | false => exact ⟨site, (Except.error.inj hf).symm⟩

theorem need (o : Option α) (site : Site) : InBounds (XStore.need o (.assert site)) := by
  intro f hf
  cases o with
  | some a => cases hf
  | none => exact ⟨site, (Except.error.inj hf).symm⟩

theorem bind {x : Res α} {g : α → Res β} (hx : InBounds x) (hg : ∀ a, x = .ok a → InBounds (g a)) :
    InBounds (x >>= g) := by
  intro f hf
  cases hres : x with
  | error e =>
    rw [hres, error_bind] at hf
    exact hx f (by rw [hres]; exact congrArg Except.error (Except.error.inj hf))
  | ok a =>
    rw [hres, ok_bind] at hf
    exact hg a hres f hf

end InBounds

def MemBlock.Frames (b : MemBlock) (mem mem' : ℕ → Byte) : Prop :=
  ∀ a, a < b.memPtr ∨ b.memPtr + b.sz ≤ a → mem' a = mem a

/-- The message is a Reply, its sizes are right, and no entry of the station has its id. -/
def BadReply (core : RPCCore A) (msg : Msg) : Prop :=
  ∃ h payload, RPCCore.parse msg.bytes = .ok (h, payload) ∧
    MsgType.ofBits h.type = some .reply ∧ core.replyStation.corReplies.length ≤ h.corId

/-- The message is a Reply, its sizes are right, and no entry of the station waits under its id. -/
def LateReply (core : RPCCore A) (msg : Msg) : Prop :=
  ∃ h payload, RPCCore.parse msg.bytes = .ok (h, payload) ∧
    MsgType.ofBits h.type = some .reply ∧
    ∀ r, core.replyStation.corReplies[h.corId.val]? = some r → r.pendingReplies = 0

/-- What a core that got `msg` may have done to its memory: nothing but a write into the
buffer registered for the coroutine of a Reply. -/
def WritesInside (core core' : RPCCore A) (msg : Msg) : Prop :=
  core'.mem = core.mem ∨ ∃ h payload r, RPCCore.parse msg.bytes = .ok (h, payload) ∧
    core.replyStation.corReplies[h.corId.val]? = some r ∧ 0 < r.pendingReplies ∧
    r.replyBuf.Frames core.mem core'.mem

/-- The payload that the handlers get is part of the message, right behind the header. -/
def PayloadInside (msg : Msg) : Prop :=
  ∀ h payload, RPCCore.parse msg.bytes = .ok (h, payload) →
    payload.length = h.payload ∧ ∃ header rest, header.length = Header.size ∧
      msg.bytes = header ++ payload ++ rest

inductive CoreEvent where
  | register (c n : ℕ) (buf : MemBlock)
  | recv (msg : Msg)
  | poll (msg : Msg)

namespace RPCCore

def step (core : RPCCore A) : CoreEvent → Option (RPCCore A)
  | .register c n buf =>
    ((core.replyStation.addPendingReply c { ReplyEntry.ofBuf buf with pendingReplies := n }).map
      (fun r => { core with replyStation := r.1 })).toOption
  | .recv msg => (core.recv msg).toOption
  | .poll msg => (core.poll msg).toOption

/-- Every entry that waits writes on from inside its buffer. -/
structure Sound (numCors : ℕ) (core : RPCCore A) : Prop where
  length : core.replyStation.corReplies.length = numCors
  cur : ∀ r ∈ core.replyStation.corReplies, 0 < r.pendingReplies →
    r.replyBuf.memPtr ≤ r.curPtr

section Dispatch
omit [ConnectData A]
variable {core : RPCCore A} {msg : Msg}

theorem inBounds_parse (bytes : List Byte) : InBounds (parse bytes) :=
  (InBounds.ensure _ _).bind fun _ _ => (InBounds.ensure _ _).bind fun _ _ => InBounds.ok _

theorem inBounds_dispatch (core : RPCCore A) (msg : Msg) : InBounds (core.dispatch msg) := by
  refine (inBounds_parse msg.bytes).bind fun r _ => ?_
  obtain ⟨h, payload⟩ := r
  cases ht : MsgType.ofBits h.type with
  | none =>
    simp only [ht]
    exact fun f hf => ⟨.msgType, (Except.error.inj hf).symm⟩
  | some t =>
    cases t with
    | req =>
      simp only [ht]
      exact (InBounds.need _ _).bind fun _ _ => InBounds.ok _
    | reply =>
      simp only [ht]
      exact InBounds.ok _
    | connect =>
      simp only [ht]
      exact InBounds.ok _

/-- Only a Reply is dispatched to the reply station, under the id in its header. -/
theorem dispatch_append {corId : ℕ} {payload : List Byte}
    (hdisp : core.dispatch msg = .ok (.append corId payload)) :
    ∃ h, parse msg.bytes = .ok (h, payload) ∧ MsgType.ofBits h.type = some .reply ∧
      corId = h.corId := by
  obtain ⟨⟨h, payload'⟩, hparse, hswitch⟩ := bind_eq_ok.mp hdisp
  cases ht : MsgType.ofBits h.type with
  | none => simp [ht] at hswitch
  | some t =>
    cases t with
    | req =>
      simp only [ht] at hswitch
      obtain ⟨f, -, hcall⟩ := bind_eq_ok.mp hswitch
      cases hcall
    | reply =>
      simp only [ht, pure_eq_ok, Except.ok.injEq, Action.append.injEq] at hswitch
      obtain ⟨rfl, rfl⟩ := hswitch
      exact ⟨h, hparse, ht, rfl⟩
    | connect =>
      simp only [ht, pure_eq_ok, Except.ok.injEq] at hswitch
      cases hswitch

theorem dispatch_reply {h : Header} {payload : List Byte}
    (hparse : parse msg.bytes = .ok (h, payload)) (ht : MsgType.ofBits h.type = some .reply) :
    core.dispatch msg = .ok (.append h.corId payload) := by
  simp [dispatch, hparse, ht]

theorem inBounds_appendReply {mem : ℕ → Byte} {s : ReplyStation} {corId : ℕ}
    {payload : List Byte} (hlt : corId < s.corReplies.length) :
    InBounds (s.appendReply mem corId payload) := by
  have hr := List.getElem?_eq_getElem hlt
  by_cases hwait : 0 < s.corReplies[corId].pendingReplies
  · rw [ReplyStation.appendReply_wait hr hwait]
    split
    · exact InBounds.ok _
    · exact fun f hf => ⟨.replyFits, (Except.error.inj hf).symm⟩
  · rw [ReplyStation.appendReply_late hr (by omega)]
    exact InBounds.ok _

section Reply
variable {late : Fault} {corId : ℕ} {payload : List Byte}

theorem reply_out (hout : core.replyStation.corReplies.length ≤ corId) :
    core.reply late corId payload = .error .outOfRange := by
  simp [reply, ReplyStation.appendReply_out hout]

theorem reply_late {r : ReplyEntry} (hr : core.replyStation.corReplies[corId]? = some r)
    (hready : r.pendingReplies = 0) : core.reply late corId payload = .error late := by
  simp [reply, ReplyStation.appendReply_late hr hready]

/-- What a reply that was taken did: it went behind the write pointer of the entry. -/
theorem reply_eq_ok {core' : RPCCore A} (hreply : core.reply late corId payload = .ok core') :
    ∃ r, core.replyStation.corReplies[corId]? = some r ∧ 0 < r.pendingReplies ∧
      r.curPtr + payload.length ≤ r.replyBuf.memPtr + r.replyBuf.sz ∧
      core' = { core with
        mem := memcpy core.mem r.curPtr payload
        replyStation := ⟨core.replyStation.corReplies.set corId
          ⟨r.pendingReplies - 1, r.replyBuf, r.curPtr + payload.length⟩⟩ } := by
  cases hr : core.replyStation.corReplies[corId]? with
  | none =>
    rw [reply_out (by simpa using hr)] at hreply
    cases hreply
  | some r =>
    by_cases hwait : 0 < r.pendingReplies
    · have happ : core.replyStation.appendReply core.mem corId payload = _ :=
        ReplyStation.appendReply_wait hr hwait
      by_cases hfit : r.curPtr + payload.length ≤ r.replyBuf.memPtr + r.replyBuf.sz
      · rw [if_pos hfit] at happ
        simp only [reply, happ, ok_bind, if_true, pure_eq_ok, Except.ok.injEq] at hreply
        exact ⟨r, rfl, hwait, hfit, hreply.symm⟩
      · rw [if_neg hfit] at happ
        simp [reply, happ] at hreply
    · rw [reply_late hr (by omega)] at hreply
      cases hreply

theorem reply_of_ok {core' : RPCCore A} (hreply : core.reply late corId payload = .ok core')
    (late' : Fault) : core.reply late' corId payload = .ok core' := by
  obtain ⟨⟨mem, station, ret⟩, happ, hrest⟩ := bind_eq_ok.mp hreply
  cases ret with
  | false => cases hrest
  | true =>
    simp only [reply, happ, ok_bind]
    exact hrest

theorem inBounds_reply (hlt : corId < core.replyStation.corReplies.length)
    (hlate : core.replyStation.corReplies[corId].pendingReplies = 0 →
      ∃ site, late = .assert site) : InBounds (core.reply late corId payload) := by
  have hr := List.getElem?_eq_getElem hlt
  by_cases hready : core.replyStation.corReplies[corId].pendingReplies = 0
  · rw [reply_late hr hready]
    obtain ⟨site, rfl⟩ := hlate hready
    exact fun f hf => ⟨site, (Except.error.inj hf).symm⟩
  · refine (inBounds_appendReply hlt).bind fun a happ => ?_
    rw [ReplyStation.appendReply_wait hr (by omega)] at happ
    split at happ
    · obtain rfl := Except.ok.inj happ
      exact InBounds.ok _
    · cases happ

theorem inBounds_pollReply (hlt : corId < core.replyStation.corReplies.length) :
    InBounds (core.pollReply corId payload) := by
  refine (inBounds_reply hlt fun _ => ⟨.replyAdded, rfl⟩).bind fun core' hreply => ?_
  obtain ⟨r, hr, -, -, rfl⟩ := reply_eq_ok hreply
  have hready : ReplyStation.corReady ⟨core.replyStation.corReplies.set corId
      ⟨r.pendingReplies - 1, r.replyBuf, r.curPtr + payload.length⟩⟩ corId = _ :=
    ReplyStation.corReady_eq (List.getElem?_set_self hlt)
  simp only [hready, ok_bind]
  split <;> exact InBounds.ok _

end Reply

end Dispatch

section Rounds
variable {core core' : RPCCore A} {msg : Msg}

theorem inBounds_recv (hgood : ¬ LateReply core msg) : InBounds (core.recv msg) := by
  refine (inBounds_dispatch core msg).bind fun action hdisp => ?_
  cases action with
  | call f c => exact (InBounds.ensure _ _).bind fun _ _ => InBounds.ok _
  | append corId payload =>
    obtain ⟨h, hparse, ht, rfl⟩ := dispatch_append hdisp
    -- the entry is there, and it waits
    have hwait : ∃ r, core.replyStation.corReplies[h.corId.val]? = some r ∧
        0 < r.pendingReplies := by
      by_contra hidle
      exact hgood ⟨h, payload, hparse, ht, fun r hr => by
        by_contra hne
        exact hidle ⟨r, hr, Nat.pos_of_ne_zero hne⟩⟩
    obtain ⟨r, hr, hpos⟩ := hwait
    obtain ⟨hlt, rfl⟩ := List.getElem?_eq_some_iff.mp hr
    exact inBounds_reply hlt fun hready => absurd hready hpos.ne'
  | connect id payload => exact (InBounds.need _ _).bind fun _ _ => InBounds.ok _

theorem inBounds_poll (hgood : ¬ BadReply core msg) : InBounds (core.poll msg) := by
  refine (inBounds_dispatch core msg).bind fun action hdisp => ?_
  cases action with
  | call f c => exact (InBounds.ensure _ _).bind fun _ _ => InBounds.ok _
  | append corId payload =>
    obtain ⟨h, hparse, ht, rfl⟩ := dispatch_append hdisp
    refine inBounds_pollReply ?_
    by_contra hout
    exact hgood ⟨h, payload, hparse, ht, by omega⟩
  | connect id payload => exact (InBounds.need _ _).bind fun _ _ => InBounds.ok _

theorem recv_bad (hbad : BadReply core msg) : core.recv msg = .error .outOfRange := by
  obtain ⟨h, payload, hparse, ht, hout⟩ := hbad
  simp only [recv, dispatch_reply hparse ht, ok_bind]
  exact reply_out hout

theorem poll_bad (hbad : BadReply core msg) : core.poll msg = .error .outOfRange := by
  obtain ⟨h, payload, hparse, ht, hout⟩ := hbad
  simp only [poll, dispatch_reply hparse ht, ok_bind, pollReply, reply_out hout, error_bind]

theorem recv_late (hbad : LateReply core msg) : ¬ InBounds (core.recv msg) := by
  obtain ⟨h, payload, hparse, ht, hidle⟩ := hbad
  intro hin
  simp only [recv, dispatch_reply hparse ht, ok_bind] at hin
  cases hr : core.replyStation.corReplies[h.corId.val]? with
  | none =>
    obtain ⟨site, hsite⟩ := hin _ (reply_out (by simpa using hr))
    cases hsite
  | some r =>
    obtain ⟨site, hsite⟩ := hin _ (reply_late hr (hidle r hr))
    cases hsite

/-- The future does what the event loop does, apart from the coroutines it wakes. -/
theorem poll_recv (hpoll : core.poll msg = .ok core') :
    ∃ core₁, core.recv msg = .ok core₁ ∧ core' = { core₁ with addedBack := core'.addedBack } := by
  obtain ⟨action, hdisp, hact⟩ := bind_eq_ok.mp hpoll
  simp only [recv, hdisp, ok_bind]
  cases action with
  | call f c => exact ⟨core', hact, rfl⟩
  | append corId payload =>
    obtain ⟨core₁, hreply, hrest⟩ := bind_eq_ok.mp hact
    obtain ⟨ready, -, hready⟩ := bind_eq_ok.mp hrest
    refine ⟨core₁, reply_of_ok hreply _, ?_⟩
    cases ready with
    | true => rw [← Except.ok.inj hready]
    | false => rw [← Except.ok.inj hready]
  | connect id payload => exact ⟨core', hact, rfl⟩

theorem Sound.writesInside {numCors : ℕ} (hsound : core.Sound numCors)
    (hrecv : core.recv msg = .ok core') : WritesInside core core' msg := by
  obtain ⟨h, payload, hparse, hcase⟩ := recv_cases hrecv
  cases hcase with
  | req f ht hf hret => exact Or.inl rfl
  | connect a ht ha => exact Or.inl rfl
  | reply mem station ht happ =>
    refine Or.inr ?_
    have hreply : core.reply .noReturn h.corId payload =
        .ok { core with mem := mem, replyStation := station } := by
      simp [reply, happ]
    obtain ⟨r, hr, hwait, hfit, heq⟩ := reply_eq_ok hreply
    refine ⟨h, payload, r, hparse, hr, hwait, fun a ha => ?_⟩
    have hcur := hsound.cur r (List.mem_of_getElem? hr) hwait
    rw [show mem = memcpy core.mem r.curPtr payload from congrArg RPCCore.mem heq]
    exact memcpy_behind (by omega)

omit [ConnectData A] in
theorem Sound.setup (numCors : ℕ) (mem : ℕ → Byte) (callbacks : List (Callback A)) :
    (RPCCore.setup numCors mem callbacks).Sound numCors := by
  rw [setup_eq]
  refine ⟨by simp [new, ReplyStation.new], fun r hr hwait => ?_⟩
  obtain rfl := List.eq_of_mem_replicate hr
  cases hwait

omit [ConnectData A] in
theorem Sound.set {numCors : ℕ} (h : core.Sound numCors) {c : ℕ} {r : ReplyEntry}
    (hr : 0 < r.pendingReplies → r.replyBuf.memPtr ≤ r.curPtr)
    (hcore : core'.replyStation.corReplies = core.replyStation.corReplies.set c r) :
    core'.Sound numCors := by
  refine ⟨by rw [hcore, List.length_set, h.length], fun r' hr' => ?_⟩
  rw [hcore] at hr'
  cases List.mem_or_eq_of_mem_set hr' with
  | inl hmem => exact h.cur r' hmem
  | inr heq => rwa [heq]

theorem Sound.recv {numCors : ℕ} (h : core.Sound numCors) (hrecv : core.recv msg = .ok core') :
    core'.Sound numCors := by
  obtain ⟨hd, payload, hparse, hcase⟩ := recv_cases hrecv
  cases hcase with
  | req f ht hf hret => exact ⟨h.length, h.cur⟩
  | connect a ht ha => exact ⟨h.length, h.cur⟩
  | reply mem station ht happ =>
    have hreply : core.reply .noReturn hd.corId payload =
        .ok { core with mem := mem, replyStation := station } := by
      simp [reply, happ]
    obtain ⟨r, hr, hwait, -, heq⟩ := reply_eq_ok hreply
    have hcur := h.cur r (List.mem_of_getElem? hr) hwait
    rw [heq]
    exact h.set (r := ⟨r.pendingReplies - 1, r.replyBuf, r.curPtr + payload.length⟩)
      (fun _ => by simp only; omega) rfl

theorem Sound.step {numCors : ℕ} {e : CoreEvent} (h : core.Sound numCors)
    (hstep : core.step e = some core') : core'.Sound numCors := by
  cases e with
  | register c n buf =>
    cases hr : core.replyStation.corReplies[c]? with
    | none =>
      rw [RPCCore.step, ReplyStation.addPendingReply_out (by simpa using hr)] at hstep
      cases hstep
    | some r =>
      by_cases hwait : 0 < r.pendingReplies
      · rw [RPCCore.step, ReplyStation.addPendingReply_refused hr hwait] at hstep
        obtain rfl := Option.some.inj hstep
        exact h
      · rw [RPCCore.step, ReplyStation.addPendingReply_added hr (by omega)] at hstep
        obtain rfl := Option.some.inj hstep
        exact h.set (r := ⟨n, buf, buf.memPtr⟩) (fun _ => le_rfl) rfl
  | recv msg =>
    cases hrecv : core.recv msg with
    | error f => simp [RPCCore.step, hrecv, Except.toOption] at hstep
    | ok t =>
      obtain rfl : t = core' := by simpa [RPCCore.step, hrecv, Except.toOption] using hstep
      exact h.recv hrecv
  | poll msg =>
    cases hpoll : core.poll msg with
    | error f => simp [RPCCore.step, hpoll, Except.toOption] at hstep
    | ok t =>
      obtain rfl : t = core' := by simpa [RPCCore.step, hpoll, Except.toOption] using hstep
      obtain ⟨core₁, hrecv, heq⟩ := poll_recv hpoll
      have h₁ := h.recv hrecv
      rw [heq]
      exact ⟨h₁.length, h₁.cur⟩

end Rounds

end RPCCore

omit [ConnectData A] in
theorem payloadInside (msg : Msg) : PayloadInside msg := by
  intro h payload hparse
  obtain ⟨u, hsz, hrest⟩ := bind_eq_ok.mp hparse
  obtain ⟨u, hpay, hend⟩ := bind_eq_ok.mp hrest
  obtain ⟨rfl, rfl⟩ := Prod.mk.inj (Except.ok.inj hend)
  have hsz' := of_decide_eq_true (RPCCore.ensure_eq_ok hsz)
  have hpay' := of_decide_eq_true (RPCCore.ensure_eq_ok hpay)
  refine ⟨?_, msg.bytes.take Header.size,
    (msg.bytes.drop Header.size).drop (Header.ofBytes msg.bytes).payload, ?_, ?_⟩
  · rw [List.length_take, List.length_drop]
    omega
  · rw [List.length_take, min_eq_left hsz']
  · rw [List.append_assoc, List.take_append_drop, List.take_append_drop]

/-- Any bytes, to a core in any state it can reach. The event loop keeps in bounds exactly unless
the message is a Reply that nothing waits for, the future exactly unless it is a Reply to a
coroutine that the station does not have. Payloads and writes are inside their buffers. -/
theorem core_in_bounds_iff {numCors : ℕ} {mem : ℕ → Byte} {callbacks : List (Callback A)}
    {es : List CoreEvent} {core : RPCCore A}
    (hrun : run RPCCore.step es (.setup numCors mem callbacks) = some core) (msg : Msg) :
    (InBounds (core.recv msg) ↔
      ¬ ∃ h payload, RPCCore.parse msg.bytes = .ok (h, payload) ∧
        MsgType.ofBits h.type = some .reply ∧
        ∀ r, core.replyStation.corReplies[h.corId.val]? = some r → r.pendingReplies = 0) ∧
    (InBounds (core.poll msg) ↔
      ¬ ∃ h payload, RPCCore.parse msg.bytes = .ok (h, payload) ∧
        MsgType.ofBits h.type = some .reply ∧ numCors ≤ h.corId) ∧
    PayloadInside msg ∧
    ∀ core', core.recv msg = .ok core' ∨ core.poll msg = .ok core' →
      WritesInside core core' msg := by
  have hsound : core.Sound numCors := run_invariant (fun core => core.Sound numCors)
    (fun _ _ _ hstep h => h.step hstep) hrun (RPCCore.Sound.setup numCors mem callbacks)
  have hbad : BadReply core msg ↔ ∃ h payload, RPCCore.parse msg.bytes = .ok (h, payload) ∧
      MsgType.ofBits h.type = some .reply ∧ numCors ≤ h.corId := by
    unfold BadReply
    rw [hsound.length]
  rw [← hbad]
  refine ⟨⟨fun h hlate => RPCCore.recv_late hlate h, RPCCore.inBounds_recv⟩,
    ⟨fun h hout => ?_, RPCCore.inBounds_poll⟩, payloadInside msg, fun core' hok => ?_⟩
  · obtain ⟨site, hsite⟩ := h _ (RPCCore.poll_bad hout)
    cases hsite
  · cases hok with
    | inl hrecv => exact hsound.writesInside hrecv
    | inr hpoll =>
      obtain ⟨core₁, hrecv, heq⟩ := RPCCore.poll_recv hpoll
      have hwrites := hsound.writesInside hrecv
      rw [heq]
      exact hwrites

def Msg.replyTo (corId : Fin (2^7)) : Msg where
  sessionId := 7
  bytes := Header.toBytes ⟨MsgType.reply.toBits, 0, 0, corId⟩ 0

/-- The core waits for the reply, and both loops take it. -/
theorem core_in_bounds_iff_one :
    letI : ConnectData (List Byte) := ⟨fun payload => some payload⟩
    ∃ core, run RPCCore.step [.register 0 1 ⟨0, 4⟩]
        (.setup 1 (fun _ => 0) [] : RPCCore (List Byte)) = some core ∧
      InBounds (core.recv (.replyTo 0)) ∧ InBounds (core.poll (.replyTo 0)) ∧
      PayloadInside (.replyTo 0) ∧
      ∀ core', core.recv (.replyTo 0) = .ok core' ∨ core.poll (.replyTo 0) = .ok core' →
        WritesInside core core' (.replyTo 0) := by
  let : ConnectData (List Byte) := ⟨fun payload => some payload⟩
  have hrun : run RPCCore.step [.register 0 1 ⟨0, 4⟩]
      (.setup 1 (fun _ => 0) [] : RPCCore (List Byte)) = some _ := rfl
  obtain ⟨hrecv, hpoll, hpayload, hwrites⟩ := core_in_bounds_iff hrun (.replyTo 0)
  have hparse : RPCCore.parse (Msg.replyTo 0).bytes = .ok (⟨2, 0, 0, 0⟩, []) := by decide +kernel
  refine ⟨_, hrun, hrecv.mpr ?_, hpoll.mpr ?_, hpayload, hwrites⟩
  · rintro ⟨h, payload, hmsg, -, hidle⟩
    obtain ⟨rfl, -⟩ := Prod.mk.inj (Except.ok.inj (hparse.symm.trans hmsg))
    cases hidle _ rfl
  · rintro ⟨h, payload, hmsg, -, hout⟩
    obtain ⟨rfl, -⟩ := Prod.mk.inj (Except.ok.inj (hparse.symm.trans hmsg))
    exact absurd hout (by decide)

/-- A station of one entry, which waits for nothing: a Reply to coroutine 1 reads outside in both
loops, one to coroutine 0 ends in the `operator<<` of the header. -/
theorem core_out_of_bounds :
    letI : ConnectData (List Byte) := ⟨fun payload => some payload⟩
    letI core : RPCCore (List Byte) := .setup 1 (fun _ => 0) []
    core.recv (.replyTo 1) = .error .outOfRange ∧ core.poll (.replyTo 1) = .error .outOfRange ∧
      core.recv (.replyTo 0) = .error .noReturn ∧
      ¬ ∀ (numCors : ℕ) (msg : Msg),
        InBounds ((RPCCore.setup numCors (fun _ => 0) [] : RPCCore (List Byte)).recv msg) := by
  let : ConnectData (List Byte) := ⟨fun payload => some payload⟩
  have hbad : BadReply (RPCCore.setup 1 (fun _ => 0) [] : RPCCore (List Byte)) (.replyTo 1) :=
    ⟨⟨2, 0, 0, 1⟩, [], by decide +kernel, by decide, by decide⟩
  have hout := RPCCore.recv_bad hbad
  refine ⟨hout, RPCCore.poll_bad hbad, rfl, fun hall => ?_⟩
  obtain ⟨site, hsite⟩ := hall 1 (.replyTo 1) _ hout
  cases hsite

end XStore.Xcomm
