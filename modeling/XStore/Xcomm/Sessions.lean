import XStore.Xcomm.Rpc
import Mathlib.Data.List.Induction

/-! The session table over a run of the event loop. A Req and a Connect both write it, and the
first of them decides: a Req leaves a null pointer that no Connect replaces. -/
namespace XStore.Xcomm
open XStore.Lib
variable {A : Type} [ConnectData A]

/-- What a message does to the entry of its session: a Req looks it up, a Connect brings the
attribute for it. -/
def Msg.contact (m : Msg) : Option (Option A) :=
  match RPCCore.parse m.bytes with
  | .ok (h, payload) =>
    match MsgType.ofBits h.type with
    | some .req => some none
    | some .connect => (ConnectData.interpret payload).map some
    | _ => none
  | .error _ => none

/-- The first contact with a session. -/
def firstContact (msgs : List Msg) (id : UInt32) : Option (Option A) :=
  (msgs.filter (fun m => m.sessionId == id)).findSome? Msg.contact

/-- Every Req after a Connect of its session is handed the channel that this Connect brought. -/
def Served (c : RPCCore A) (msgs : List Msg) : Prop :=
  ∀ before m after c', msgs = before ++ m :: after → c.recvEventLoop before = .ok c' →
    m.contact (A := A) = some none → ∀ n ∈ before, ∀ a, n.sessionId = m.sessionId →
      n.contact = some (some a) → c'.replyChannel m.sessionId = some ⟨m.sessionId, a⟩

/-- Wherever a Connect of a session comes before a Req, the first contact was a Connect with
the same attribute. -/
def ConnectsFirst (A : Type) [ConnectData A] (msgs : List Msg) : Prop :=
  ∀ before m after, msgs = before ++ m :: after → m.contact (A := A) = some none →
    ∀ n ∈ before, ∀ a : A, n.sessionId = m.sessionId → n.contact = some (some a) →
      firstContact before m.sessionId = some (some a)

def tableEntry (id : UInt32) (o : Option (Option A)) : Option (Option (UDTransport A)) :=
  o.map (fun o => o.map (fun a => ⟨id, a⟩))

theorem firstContact_append (msgs : List Msg) (m : Msg) (id : UInt32) :
    firstContact (A := A) (msgs ++ [m]) id =
      (firstContact msgs id).or (if m.sessionId = id then m.contact else none) := by
  unfold firstContact
  rw [List.filter_append, List.findSome?_append]
  by_cases h : m.sessionId = id <;> simp [h]

/-- One message: the entry of its session is set if it was absent, and no other changes. -/
theorem RPCCore.recv_sessions {c c' : RPCCore A} {m : Msg} (hrecv : c.recv m = .ok c')
    (id : UInt32) : c'.incomingSessions id =
      (c.incomingSessions id).or (if m.sessionId = id then tableEntry id m.contact else none) := by
  obtain ⟨h, payload, hparse, hcase⟩ := RPCCore.recv_cases hrecv
  cases hcase with
  | req f ht hf hret =>
    have hcontact : m.contact (A := A) = some none := by simp [Msg.contact, hparse, ht]
    rw [hcontact]
    cases hs : c.incomingSessions m.sessionId with
    | some p => by_cases hid : m.sessionId = id <;> simp_all [Sessions.index]
    | none =>
      by_cases hid : m.sessionId = id
      · subst hid
        simp [Sessions.index, hs, tableEntry]
      · simp [Sessions.index, hs, hid, Function.update_of_ne (Ne.symm hid)]
  | reply mem station ht happ =>
    have hcontact : m.contact (A := A) = none := by simp [Msg.contact, hparse, ht]
    simp [hcontact, tableEntry]
  | connect a ht ha =>
    have hcontact : m.contact (A := A) = some (some a) := by simp [Msg.contact, hparse, ht, ha]
    rw [hcontact]
    cases hs : c.incomingSessions m.sessionId with
    | some p => by_cases hid : m.sessionId = id <;> simp_all [Sessions.insert]
    | none =>
      by_cases hid : m.sessionId = id
      · subst hid
        simp [Sessions.insert, hs, tableEntry]
      · simp [Sessions.insert, hs, hid, Function.update_of_ne (Ne.symm hid)]

/-- A run: the entry of a session is what its first contact made it. -/
theorem RPCCore.run_sessions {c c' : RPCCore A} (hnew : c.incomingSessions = fun _ => none)
    (msgs : List Msg) (hrun : c.recvEventLoop msgs = .ok c') (id : UInt32) :
    c'.incomingSessions id = tableEntry id (firstContact msgs id) := by
  induction msgs using List.reverseRecOn generalizing c' with
  | nil =>
    obtain rfl := Except.ok.inj hrun
    rw [hnew]
    rfl
  | append_singleton msgs m ih =>
    rw [recvEventLoop, List.foldlM_append] at hrun
    obtain ⟨c₁, hc₁, hlast⟩ := bind_eq_ok.mp hrun
    obtain ⟨c₂, hm, hnil⟩ := bind_eq_ok.mp hlast
    obtain rfl := Except.ok.inj hnil
    rw [recv_sessions hm, ih hc₁, firstContact_append]
    cases firstContact (A := A) msgs id <;> by_cases hid : m.sessionId = id <;>
      simp [tableEntry, hid]

theorem RPCCore.run_channel {c c' : RPCCore A} (hnew : c.incomingSessions = fun _ => none)
    (msgs : List Msg) (hrun : c.recvEventLoop msgs = .ok c') (id : UInt32) (a : A) :
    c'.replyChannel id = some ⟨id, a⟩ ↔ firstContact msgs id = some (some a) := by
  have hentry := run_sessions hnew msgs hrun id
  cases hfirst : firstContact (A := A) msgs id with
  | none => simp [replyChannel, Sessions.index, hentry, hfirst, tableEntry]
  | some o => cases o <;> simp [replyChannel, Sessions.index, hentry, hfirst, tableEntry]

/-- Sessions survive exactly where the first contact was the Connect. -/
theorem served_iff (numCors : ℕ) (mem : ℕ → Byte) (callbacks : List (Callback A))
    (msgs : List Msg)
    (hrun : ∃ c, (RPCCore.setup numCors mem callbacks).recvEventLoop msgs.dropLast = .ok c) :
    Served (RPCCore.setup numCors mem callbacks) msgs ↔ ConnectsFirst A msgs := by
  have hnew : (RPCCore.setup numCors mem callbacks).incomingSessions = fun _ => none := by
    rw [RPCCore.setup_eq]
    rfl
  constructor
  · intro hserved before m after hmsgs hreq n hn a hid ha
    have hpre : before <+: msgs.dropLast := by
      rw [hmsgs, List.dropLast_append_of_ne_nil (by simp)]
      exact List.prefix_append _ _
    obtain ⟨rest, hrest⟩ := hpre
    obtain ⟨c, hc⟩ := hrun
    rw [← hrest, RPCCore.recvEventLoop, List.foldlM_append] at hc
    obtain ⟨c', hc', -⟩ := bind_eq_ok.mp hc
    exact (RPCCore.run_channel hnew before hc' _ a).mp
      (hserved before m after c' hmsgs hc' hreq n hn a hid ha)
  · intro hfirst before m after c' hmsgs hc' hreq n hn a hid ha
    exact (RPCCore.run_channel hnew before hc' _ a).mpr
      (hfirst before m after hmsgs hreq n hn a hid ha)

/-- A struct of `n` bytes, read from a payload that is long enough. -/
abbrev rawConnectData (n : ℕ) : ConnectData (List Byte) where
  interpret payload := if n ≤ payload.length then some (payload.take n) else none

def idle : Callback (List Byte) := fun _ _ => true

def Msg.of (id : UInt32) (t : MsgType) (payload : List Byte) : Msg where
  sessionId := id
  bytes := Header.toBytes ⟨t.toBits, 0, Fin.ofNat _ payload.length, 0⟩ 0 ++ payload

theorem served_iff_connect :
    letI := rawConnectData 2
    Served (RPCCore.setup 1 (fun _ => 0) [idle])
        [.of 7 .connect [1, 2], .of 7 .req [], .of 7 .req []] ↔
      ConnectsFirst (List Byte) [.of 7 .connect [1, 2], .of 7 .req [], .of 7 .req []] := by
  let := rawConnectData 2
  exact served_iff 1 (fun _ => 0) [idle] _ (exists_of_isOk (by decide +kernel))

/-- The first Req overtakes the Connect: the second one still finds the null pointer. -/
theorem not_served_overtaken :
    letI := rawConnectData 2
    ¬ ∀ (callbacks : List (Callback (List Byte))) (msgs : List Msg),
      (∃ c, (RPCCore.setup 1 (fun _ => 0) callbacks).recvEventLoop msgs = .ok c) →
        Served (RPCCore.setup 1 (fun _ => 0) callbacks) msgs := by
  let := rawConnectData 2
  intro hall
  obtain ⟨c, hc⟩ : ∃ c, (RPCCore.setup 1 (fun _ => 0) [idle]).recvEventLoop
      [.of 7 .req [], .of 7 .connect [1, 2]] = .ok c := exists_of_isOk (by decide +kernel)
  have hserved := hall [idle] [.of 7 .req [], .of 7 .connect [1, 2], .of 7 .req []]
    (exists_of_isOk (by decide +kernel))
  have hchannel := hserved [.of 7 .req [], .of 7 .connect [1, 2]] (.of 7 .req []) [] c rfl hc
    (by decide +kernel) (.of 7 .connect [1, 2]) (by simp) [1, 2] rfl (by decide +kernel)
  have hfirst := (RPCCore.run_channel (by rw [RPCCore.setup_eq]; rfl) _ hc _ _).mp hchannel
  exact absurd hfirst (by decide +kernel)

end XStore.Xcomm
