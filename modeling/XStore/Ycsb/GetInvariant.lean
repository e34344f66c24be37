import XStore.Ycsb.GetCalls

/-! The invariant of the clients, the server and the messages, and what a step of one coroutine
leaves to the others. -/
namespace XStore.Ycsb
open XStore.Lib XStore.Xkv XStore.Xcache XStore.Xcomm
variable {A V : Type} [Plain V]

namespace GetNet

def Expects (s : GetNet A V) (q : Cor) (buf : ℕ) : Prop :=
  (s.client q.1).replyStation.corReplies[q.2]? = some (.ofBuf ⟨buf, Plain.size V⟩)

/-- What there is of a call: its request, its reply, its wake-up or the record that it was lost. -/
def tokens (s : GetNet A V) (q : Cor) : ℕ :=
  (s.requests.map Packet.cor).count q + (s.replies.map Packet.cor).count q +
    (s.client q.1).addedBack.count q.2 + s.lost.count q

/-- How a coroutine stands. While it waits there is exactly one token of its call, and the token
says how far the call has come. -/
structure Standing (db : Store kNPageKey XKey V) (home : A → UInt32) (s : GetNet A V) (q : Cor) :
    Prop where
  tokens : s.tokens q = if (s.phase q).isSome then 1 else 0
  asked : ∀ p ∈ s.requests, p.cor = q → ∃ key buf v, s.phase q = some (key, buf) ∧
    Asks A p.bytes q.2 key ∧ s.Connected home q.1 ∧ s.Expects q buf ∧
    db.tree.get db.mem key = .ok (some v)
  answered : ∀ p ∈ s.replies, p.cor = q → ∃ key buf v, s.phase q = some (key, buf) ∧
    Brings p.bytes q.2 v ∧ s.Expects q buf ∧ db.tree.get db.mem key = .ok (some v)
  woken : q.2 ∈ (s.client q.1).addedBack → ∃ key buf v r, s.phase q = some (key, buf) ∧
    slice (s.client q.1).mem buf (Plain.size V) = Plain.toBytes v ∧
    (s.client q.1).replyStation.corReplies[q.2]? = some r ∧ r.pendingReplies = 0 ∧
    db.tree.get db.mem key = .ok (some v)
  idle : s.phase q = none → ∀ r, (s.client q.1).replyStation.corReplies[q.2]? = some r →
    r.pendingReplies = 0

structure Sound (db : Store kNPageKey XKey V) (home : A → UInt32) (numCors : ℕ)
    (s : GetNet A V) : Prop where
  callbacks : ∃ metaFunc, s.srv.callbacks = [metaFunc, getFunc db]
  station : ∀ sid, (s.client sid).replyStation.corReplies.length = numCors
  standing : ∀ q, s.Standing db home q
  apart : ∀ sid c c' key buf key' buf', c ≠ c' → s.phase (sid, c) = some (key, buf) →
    s.phase (sid, c') = some (key', buf') →
    MemBlock.Apart ⟨buf, Plain.size V⟩ ⟨buf', Plain.size V⟩
  returned : ∀ x ∈ s.returned, db.tree.get db.mem x.2.1 = .ok (some x.2.2)

structure Untouched (home : A → UInt32) (s s' : GetNet A V) (q : Cor) : Prop where
  phase : s'.phase q = s.phase q
  entry : (s'.client q.1).replyStation.corReplies[q.2]? =
    (s.client q.1).replyStation.corReplies[q.2]?
  addedBack : q.2 ∈ (s'.client q.1).addedBack → q.2 ∈ (s.client q.1).addedBack
  mem : ∀ key buf, s.phase q = some (key, buf) → slice (s'.client q.1).mem buf (Plain.size V) =
    slice (s.client q.1).mem buf (Plain.size V)
  requests : ∀ p, p.cor = q → p ∈ s'.requests → p ∈ s.requests
  replies : ∀ p, p.cor = q → p ∈ s'.replies → p ∈ s.replies
  tokens : s'.tokens q = s.tokens q
  connected : s.Connected home q.1 → s'.Connected home q.1

section Frame
variable {db : Store kNPageKey XKey V} {home : A → UInt32} {s s' : GetNet A V} {q : Cor}

theorem Standing.frame (h : s.Standing db home q) (hframe : Untouched home s s' q) :
    s'.Standing db home q where
  tokens := by rw [hframe.tokens, hframe.phase, h.tokens]
  asked p hp hq := by
    obtain ⟨key, buf, v, hphase, hasks, hconnected, hexpects, hget⟩ :=
      h.asked p (hframe.requests p hq hp) hq
    exact ⟨key, buf, v, hframe.phase.trans hphase, hasks, hframe.connected hconnected,
      hframe.entry.trans hexpects, hget⟩
  answered p hp hq := by
    obtain ⟨key, buf, v, hphase, hbrings, hexpects, hget⟩ :=
      h.answered p (hframe.replies p hq hp) hq
    exact ⟨key, buf, v, hframe.phase.trans hphase, hbrings, hframe.entry.trans hexpects, hget⟩
  woken hq := by
    obtain ⟨key, buf, v, r, hphase, hslice, hentry, hready, hget⟩ := h.woken (hframe.addedBack hq)
    exact ⟨key, buf, v, r, hframe.phase.trans hphase, (hframe.mem key buf hphase).trans hslice,
      hframe.entry.trans hentry, hready, hget⟩
  idle hphase r hr := by
    rw [hframe.phase] at hphase
    rw [hframe.entry] at hr
    exact h.idle hphase r hr

omit [Plain V] in
theorem Untouched.connected_of (hsrv : s'.srv.incomingSessions = s.srv.incomingSessions)
    (h : s.Connected home q.1) : s'.Connected home q.1 := by
  unfold Connected
  rw [hsrv]
  exact h

theorem untouched {q₀ : Cor} (hne : q ≠ q₀) {core : RPCCore A}
    (hclient : s'.client = Function.update s.client q₀.1 core) (hphase : s'.phase q = s.phase q)
    (hentry : ∀ c, c ≠ q₀.2 → core.replyStation.corReplies[c]? =
      (s.client q₀.1).replyStation.corReplies[c]?)
    (hback : ∀ c, c ≠ q₀.2 → core.addedBack.count c = (s.client q₀.1).addedBack.count c)
    (hmem : ∀ c, c ≠ q₀.2 → ∀ key buf, s.phase (q₀.1, c) = some (key, buf) →
      slice core.mem buf (Plain.size V) = slice (s.client q₀.1).mem buf (Plain.size V))
    (hrequests : ∀ p, p.cor = q → p ∈ s'.requests → p ∈ s.requests)
    (hreplies : ∀ p, p.cor = q → p ∈ s'.replies → p ∈ s.replies)
    (hcount : (s'.requests.map Packet.cor).count q + (s'.replies.map Packet.cor).count q +
        s'.lost.count q =
      (s.requests.map Packet.cor).count q + (s.replies.map Packet.cor).count q + s.lost.count q)
    (hsrv : s'.srv.incomingSessions = s.srv.incomingSessions) : Untouched home s s' q := by
  obtain ⟨sid, c⟩ := q
  obtain ⟨sid₀, c₀⟩ := q₀
  by_cases hsid : sid = sid₀
  · subst hsid
    have hc : c ≠ c₀ := fun heq => hne (by rw [heq])
    have hself : s'.client sid = core := by rw [hclient, Function.update_self]
    have hcounts := hback c hc
    refine ⟨hphase, ?_, ?_, ?_, hrequests, hreplies, ?_, Untouched.connected_of hsrv⟩
    · rw [hself]
      exact hentry c hc
    · simp only [hself, ← List.count_pos_iff, hcounts, imp_self]
    · rw [hself]
      exact hmem c hc
    · simp only [GetNet.tokens, hself, hcounts]
      omega
  · have hother : s'.client sid = s.client sid := by rw [hclient, Function.update_of_ne hsid]
    refine ⟨hphase, ?_, ?_, ?_, hrequests, hreplies, ?_, Untouched.connected_of hsrv⟩
    · rw [hother]
    · rw [hother]
      exact id
    · rw [hother]
      exact fun _ _ _ => rfl
    · simp only [GetNet.tokens, hother]
      omega

end Frame

section Packets
variable {l : List Packet} {q : Cor}

theorem count_eraseIdx {i : ℕ} {p : Packet} (hi : l[i]? = some p) (q : Cor) :
    (l.map Packet.cor).count q =
      ((l.eraseIdx i).map Packet.cor).count q + if p.cor = q then 1 else 0 := by
  obtain ⟨hlt, hget⟩ := List.getElem?_eq_some_iff.mp hi
  have hperm := (List.getElem_cons_eraseIdx_perm hlt).map Packet.cor
  rw [← hperm.count_eq, hget, List.map_cons, List.count_cons]
  simp

theorem count_snoc (p : Packet) (q : Cor) : ((l ++ [p]).map Packet.cor).count q =
    (l.map Packet.cor).count q + if p.cor = q then 1 else 0 := by
  rw [List.map_append, List.count_append, List.map_cons, List.map_nil, List.count_singleton]
  simp

theorem no_packet (h : (l.map Packet.cor).count q = 0) {p : Packet} (hp : p ∈ l) : p.cor ≠ q := by
  intro hq
  exact List.count_eq_zero.mp h (hq ▸ List.mem_map_of_mem hp)

theorem mem_of_snoc {p p' : Packet} (hne : p'.cor ≠ q) (hq : p.cor = q) (h : p ∈ l ++ [p']) :
    p ∈ l := by
  cases List.mem_append.mp h with
  | inl hp => exact hp
  | inr hp =>
    obtain rfl := List.mem_singleton.mp hp
    exact absurd hq hne

end Packets

section Tokens
variable {db : Store kNPageKey XKey V} {home : A → UInt32} {s : GetNet A V}

theorem Standing.none {q : Cor} (h : s.Standing db home q) (hphase : s.phase q = none) :
    (s.requests.map Packet.cor).count q = 0 ∧ (s.replies.map Packet.cor).count q = 0 ∧
      (s.client q.1).addedBack.count q.2 = 0 ∧ s.lost.count q = 0 := by
  have htokens := h.tokens
  rw [hphase] at htokens
  simp only [GetNet.tokens, Option.isSome_none, Bool.false_eq_true, if_false] at htokens
  omega

theorem Standing.request {i : ℕ} {p : Packet} (h : s.Standing db home p.cor)
    (hi : s.requests[i]? = some p) :
    s.tokens p.cor = 1 ∧ ((s.requests.eraseIdx i).map Packet.cor).count p.cor = 0 ∧
      (s.replies.map Packet.cor).count p.cor = 0 ∧
      (s.client p.cor.1).addedBack.count p.cor.2 = 0 ∧ s.lost.count p.cor = 0 := by
  obtain ⟨key, buf, -, hphase, -⟩ := h.asked p (List.mem_of_getElem? hi) rfl
  have htokens := h.tokens
  have hcount := count_eraseIdx hi p.cor
  rw [if_pos rfl] at hcount
  rw [hphase] at htokens
  refine ⟨htokens, ?_⟩
  simp only [GetNet.tokens, Option.isSome_some, if_true] at htokens
  omega

theorem Standing.reply {i : ℕ} {p : Packet} (h : s.Standing db home p.cor)
    (hi : s.replies[i]? = some p) :
    s.tokens p.cor = 1 ∧ ((s.replies.eraseIdx i).map Packet.cor).count p.cor = 0 ∧
      (s.requests.map Packet.cor).count p.cor = 0 ∧
      (s.client p.cor.1).addedBack.count p.cor.2 = 0 ∧ s.lost.count p.cor = 0 := by
  obtain ⟨key, buf, -, hphase, -⟩ := h.answered p (List.mem_of_getElem? hi) rfl
  have htokens := h.tokens
  have hcount := count_eraseIdx hi p.cor
  rw [if_pos rfl] at hcount
  rw [hphase] at htokens
  refine ⟨htokens, ?_⟩
  simp only [GetNet.tokens, Option.isSome_some, if_true] at htokens
  omega

end Tokens

theorem Sound.init (metaFunc : Callback A) (db : Store kNPageKey XKey V) (home : A → UInt32)
    (numCors : ℕ) (mem : UInt32 → ℕ → Byte) :
    Sound db home numCors (GetNet.init metaFunc db numCors mem) where
  callbacks := ⟨metaFunc, by simp [GetNet.init, RPCCore.setup_eq]⟩
  station _ := by simp [GetNet.init, RPCCore.new, ReplyStation.new]
  standing q := by
    refine ⟨by simp [GetNet.tokens, GetNet.init, RPCCore.new],
      fun p hp => absurd hp (by simp [GetNet.init]), fun p hp => absurd hp (by simp [GetNet.init]),
      fun hq => absurd hq (by simp [GetNet.init, RPCCore.new]), fun _ r hr => ?_⟩
    simp only [GetNet.init, RPCCore.new, ReplyStation.new] at hr
    obtain rfl := List.eq_of_mem_replicate (List.mem_of_getElem? hr)
    rfl
  apart _ _ _ _ _ _ _ _ hc := by cases hc
  returned x hx := absurd hx (by simp [GetNet.init])

end GetNet
end XStore.Ycsb
