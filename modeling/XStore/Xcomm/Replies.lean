import XStore.Xcomm.RpcOp
import XStore.Lib.Runs
import Mathlib.Data.List.Perm.Basic

/-! Requests and their replies. Coroutines register a buffer and send a request; the server
answers every request once, with the coroutine id of its header; replies arrive in any
order. -/
namespace XStore.Xcomm
open XStore.Lib
variable {A : Type}

/-- A request that was sent: the coroutine id in its header and the buffer for its reply. -/
structure Request where
  corId : ℕ
  buf : MemBlock

/-- The client and the network. Requests are numbered as they were sent: `unanswered` are those
that the server has yet to answer, `inFlight` the replies on their way. -/
structure Net (A : Type) where
  core : RPCCore A
  sent : List Request
  unanswered : List ℕ
  inFlight : List (ℕ × List Byte)

inductive NetEvent where
  | issue (c : ℕ) (buf : MemBlock)
  | answer (k : ℕ) (payload : List Byte)
  | arrive (i : ℕ)

namespace Net

def init (numCors : ℕ) (mem : ℕ → Byte) : Net A where
  core := .new numCors mem
  sent := []
  unanswered := []
  inFlight := []

def opFor (c : ℕ) : RPCOp := RPCOp.setCorid ⟨⟨0, 0, 0, 0⟩, 0, [], 0⟩ c

/-- `set_corid`, `add_one_reply` and `execute`: the message is sent whatever became of the
reply entry. -/
def issue (s : Net A) (c : ℕ) (buf : MemBlock) : Res (Net A) := do
  let op := opFor c
  let station ← op.addOneReply s.core.replyStation buf
  pure { core := { s.core with replyStation := station }
         sent := s.sent ++ [⟨op.header.corId, buf⟩]
         unanswered := s.unanswered ++ [s.sent.length]
         inFlight := s.inFlight }

/-- The event loop gets the reply, of which it reads the coroutine id and the payload. -/
def arrive (s : Net A) (i : ℕ) (q : Request) (payload : List Byte) : Res (Net A) := do
  let core ← s.core.reply .noReturn q.corId payload
  pure { s with core := core, inFlight := s.inFlight.eraseIdx i }

def step (s : Net A) : NetEvent → Option (Net A)
  | .issue c buf => (s.issue c buf).toOption
  | .answer k payload =>
    if k ∈ s.unanswered then
      some { s with unanswered := s.unanswered.erase k, inFlight := s.inFlight ++ [(k, payload)] }
    else none
  | .arrive i =>
    match s.inFlight[i]? with
    | some (k, payload) =>
      match s.sent[k]? with
      | some q => (s.arrive i q payload).toOption
      | none => none
    | none => none

/-- The coroutine waits for no reply when it issues a request. -/
def Free (s : Net A) : NetEvent → Prop
  | .issue c _ => ∀ r, s.core.replyStation.corReplies[c % 2^7]? = some r → r.pendingReplies = 0
  | _ => True

/-- The entry of a request that is sent was recorded, and a reply that arrives goes into the
buffer of the request it answers. -/
def Lands (s : Net A) : NetEvent → Prop
  | .issue c buf => ∀ s', s.issue c buf = .ok s' →
      s.core.replyStation.addPendingReply (opFor c).header.corId (.ofBuf buf) =
        .ok (s'.core.replyStation, true)
  | .answer _ _ => True
  | .arrive i => ∀ s' k payload q, s.step (.arrive i) = some s' →
      s.inFlight[i]? = some (k, payload) → s.sent[k]? = some q →
        payload.length ≤ q.buf.sz ∧ s'.core.mem = memcpy s.core.mem q.buf.memPtr payload

def waiting (s : Net A) : List ℕ := s.unanswered ++ s.inFlight.map Prod.fst

/-- The entry of every request that waits is the one it registered. -/
structure Matched (s : Net A) : Prop where
  nodup : s.waiting.Nodup
  entry : ∀ k ∈ s.waiting, ∃ q, s.sent[k]? = some q ∧
    s.core.replyStation.corReplies[q.corId]? = some (.ofBuf q.buf)
  own : ∀ k ∈ s.waiting, ∀ k' ∈ s.waiting, ∀ q q', s.sent[k]? = some q → s.sent[k']? = some q' →
    q.corId = q'.corId → k = k'

theorem corId_opFor (c : ℕ) : (opFor c).header.corId.val = c % 2^7 := by
  simp only [opFor, RPCOp.setCorid, Fin.val_ofNat]
  omega

section Steps
variable {s s' : Net A}

theorem issue_free {c : ℕ} {buf : MemBlock} (hfree : s.Free (.issue c buf))
    (hissue : s.issue c buf = .ok s') :
    c % 2^7 < s.core.replyStation.corReplies.length ∧
    s.core.replyStation.addPendingReply (c % 2^7) (.ofBuf buf) =
      .ok (s'.core.replyStation, true) ∧
    s' = { core := { s.core with replyStation :=
             ⟨s.core.replyStation.corReplies.set (c % 2^7) (.ofBuf buf)⟩ }
           sent := s.sent ++ [⟨c % 2^7, buf⟩]
           unanswered := s.unanswered ++ [s.sent.length]
           inFlight := s.inFlight } := by
  cases hr : s.core.replyStation.corReplies[c % 2^7]? with
  | none =>
    have hout : s.core.replyStation.addPendingReply (c % 2^7) (.ofBuf buf) =
        .error (.assert .corInStation) := ReplyStation.addPendingReply_out (by simpa using hr)
    simp only [issue, RPCOp.addOneReply, RPCOp.addReplyEntry, corId_opFor, hout,
      error_bind] at hissue
    cases hissue
  | some r =>
    have hadd : s.core.replyStation.addPendingReply (c % 2^7) (.ofBuf buf) =
        .ok (⟨s.core.replyStation.corReplies.set (c % 2^7) (.ofBuf buf)⟩, true) :=
      ReplyStation.addPendingReply_added hr (hfree r hr)
    simp only [issue, RPCOp.addOneReply, RPCOp.addReplyEntry, corId_opFor, hadd, ok_bind,
      pure_eq_ok, Except.ok.injEq] at hissue
    subst hissue
    exact ⟨(List.getElem?_eq_some_iff.mp hr).1, hadd, rfl⟩

theorem arrive_own {i : ℕ} {q : Request} {payload : List Byte}
    (hown : s.core.replyStation.corReplies[q.corId]? = some (.ofBuf q.buf))
    (harrive : s.arrive i q payload = .ok s') :
    payload.length ≤ q.buf.sz ∧
    s' = { s with
      core := { s.core with
        mem := memcpy s.core.mem q.buf.memPtr payload
        replyStation := ⟨s.core.replyStation.corReplies.set q.corId
          ⟨0, q.buf, q.buf.memPtr + payload.length⟩⟩ }
      inFlight := s.inFlight.eraseIdx i } := by
  have happ : s.core.replyStation.appendReply s.core.mem q.corId payload =
      if q.buf.memPtr + payload.length ≤ q.buf.memPtr + q.buf.sz then
        .ok (memcpy s.core.mem q.buf.memPtr payload, ⟨s.core.replyStation.corReplies.set q.corId
          ⟨0, q.buf, q.buf.memPtr + payload.length⟩⟩, true)
      else .error (.assert .replyFits) := ReplyStation.appendReply_wait hown Nat.one_pos
  by_cases hfit : q.buf.memPtr + payload.length ≤ q.buf.memPtr + q.buf.sz
  · rw [if_pos hfit] at happ
    simp only [arrive, RPCCore.reply, happ, ok_bind, if_true, pure_eq_ok,
      Except.ok.injEq] at harrive
    exact ⟨by omega, harrive.symm⟩
  · rw [if_neg hfit] at happ
    simp [arrive, RPCCore.reply, happ] at harrive

theorem Matched.init (numCors : ℕ) (mem : ℕ → Byte) : (Net.init numCors mem : Net A).Matched where
  nodup := List.nodup_nil
  entry k hk := absurd hk (by simp [waiting, Net.init])
  own k hk := absurd hk (by simp [waiting, Net.init])

theorem Matched.lt (h : s.Matched) {k : ℕ} (hk : k ∈ s.waiting) : k < s.sent.length := by
  obtain ⟨q, hq, -⟩ := h.entry k hk
  exact (List.getElem?_eq_some_iff.mp hq).1

/-- Only who waits matters, not whether the server or the network has the message. -/
theorem Matched.perm (h : s.Matched) (hcore : s'.core = s.core) (hsent : s'.sent = s.sent)
    (hperm : s'.waiting.Perm s.waiting) : s'.Matched where
  nodup := hperm.nodup_iff.mpr h.nodup
  entry k hk := by
    rw [hcore, hsent]
    exact h.entry k (hperm.mem_iff.mp hk)
  own k hk k' hk' := by
    rw [hsent]
    exact h.own k (hperm.mem_iff.mp hk) k' (hperm.mem_iff.mp hk')

theorem Matched.issue (h : s.Matched) {c : ℕ} {buf : MemBlock} (hfree : s.Free (.issue c buf))
    (hissue : s.issue c buf = .ok s') : s'.Matched := by
  obtain ⟨hlt, -, rfl⟩ := issue_free hfree hissue
  have hwaiting : ∀ k, k ∈ s.unanswered ++ [s.sent.length] ++ s.inFlight.map Prod.fst ↔
      k ∈ s.waiting ∨ k = s.sent.length := by
    intro k
    simp only [waiting, List.mem_append, List.mem_singleton]
    tauto
  have hold : ∀ k ∈ s.waiting, ∀ q, (s.sent ++ [⟨c % 2^7, buf⟩])[k]? = some q →
      s.sent[k]? = some q := by
    intro k hk q hq
    rwa [List.getElem?_append_left (h.lt hk)] at hq
  -- the entry of a request that waits is in use, so the new one is another coroutine's
  have hne : ∀ k ∈ s.waiting, ∀ q, s.sent[k]? = some q → q.corId ≠ c % 2^7 := by
    intro k hk q hq heq
    obtain ⟨q', hq', hentry⟩ := h.entry k hk
    obtain rfl := Option.some.inj (hq.symm.trans hq')
    rw [heq] at hentry
    exact absurd (hfree _ hentry) (by simp [ReplyEntry.ofBuf])
  refine ⟨?_, ?_, ?_⟩
  · have hperm : (s.unanswered ++ [s.sent.length] ++ s.inFlight.map Prod.fst).Perm
        (s.sent.length :: s.waiting) := by
      rw [List.append_assoc]
      exact List.perm_middle
    refine hperm.nodup_iff.mpr (List.nodup_cons.mpr ⟨fun hmem => ?_, h.nodup⟩)
    exact absurd (h.lt hmem) (lt_irrefl _)
  · intro k hk
    cases (hwaiting k).mp hk with
    | inl hk =>
      obtain ⟨q, hq, hentry⟩ := h.entry k hk
      refine ⟨q, ?_, ?_⟩
      · rw [List.getElem?_append_left (h.lt hk)]
        exact hq
      · rw [List.getElem?_set_ne (hne k hk q hq).symm]
        exact hentry
    | inr heq =>
      exact ⟨⟨c % 2^7, buf⟩, by simp [heq], List.getElem?_set_self hlt⟩
  · intro k hk k' hk' q q' hq hq' hcor
    cases (hwaiting k).mp hk with
    | inl hk =>
      have hq₁ := hold k hk q hq
      cases (hwaiting k').mp hk' with
      | inl hk' => exact h.own k hk k' hk' q q' hq₁ (hold k' hk' q' hq') hcor
      | inr heq =>
        obtain rfl : (⟨c % 2^7, buf⟩ : Request) = q' := by simpa [heq] using hq'
        exact absurd hcor (hne k hk q hq₁)
    | inr heq =>
      obtain rfl : (⟨c % 2^7, buf⟩ : Request) = q := by simpa [heq] using hq
      cases (hwaiting k').mp hk' with
      | inl hk' => exact absurd hcor.symm (hne k' hk' q' (hold k' hk' q' hq'))
      | inr heq' => rw [heq, heq']

theorem waiting_perm {i k : ℕ} {payload : List Byte} (hi : s.inFlight[i]? = some (k, payload)) :
    s.waiting.Perm (k :: (s.unanswered ++ (s.inFlight.eraseIdx i).map Prod.fst)) := by
  obtain ⟨hlt, hget⟩ := List.getElem?_eq_some_iff.mp hi
  have hperm := (List.getElem_cons_eraseIdx_perm hlt).map Prod.fst
  rw [hget, List.map_cons] at hperm
  exact (hperm.symm.append_left s.unanswered).trans List.perm_middle

theorem Matched.arrive (h : s.Matched) {i k : ℕ} {q : Request} {payload : List Byte}
    (hi : s.inFlight[i]? = some (k, payload)) (hk : s.sent[k]? = some q)
    (harrive : s.arrive i q payload = .ok s') : s'.Matched := by
  have hperm := s.waiting_perm hi
  have hmem : k ∈ s.waiting := hperm.mem_iff.mpr (by simp)
  obtain ⟨q', hq', hentry⟩ := h.entry k hmem
  obtain rfl := Option.some.inj (hk.symm.trans hq')
  obtain ⟨-, rfl⟩ := arrive_own hentry harrive
  obtain ⟨hnot, hnodup⟩ := List.nodup_cons.mp (hperm.nodup_iff.mp h.nodup)
  have hrest : ∀ j, j ∈ s.unanswered ++ (s.inFlight.eraseIdx i).map Prod.fst → j ∈ s.waiting :=
    fun j hj => hperm.mem_iff.mpr (List.mem_cons_of_mem k hj)
  refine ⟨hnodup, fun j hj => ?_, fun j hj j' hj' => h.own j (hrest j hj) j' (hrest j' hj')⟩
  obtain ⟨p, hp, hpentry⟩ := h.entry j (hrest j hj)
  refine ⟨p, hp, ?_⟩
  have hne : q.corId ≠ p.corId := by
    intro heq
    obtain rfl := h.own k hmem j (hrest j hj) q p hk hp heq
    exact hnot hj
  rw [List.getElem?_set_ne hne]
  exact hpentry

/-- One step of a run in which every request is issued by a coroutine that waits for nothing. -/
theorem Matched.step {e : NetEvent} (hstep : s.step e = some s') (hfree : s.Free e)
    (h : s.Matched) : s'.Matched := by
  cases e with
  | issue c buf =>
    refine h.issue hfree ?_
    simp only [Net.step] at hstep
    cases hissue : s.issue c buf with
    | error f => simp [hissue, Except.toOption] at hstep
    | ok t => simpa [hissue, Except.toOption] using hstep
  | answer k payload =>
    simp only [Net.step, Option.ite_none_right_eq_some, Option.some.injEq] at hstep
    obtain ⟨hk, rfl⟩ := hstep
    refine h.perm rfl rfl ?_
    have hperm := (List.perm_cons_erase hk).append_right (s.inFlight.map Prod.fst)
    refine List.Perm.trans ?_ hperm.symm
    simp only [waiting, List.map_append, List.map_cons, List.map_nil, ← List.append_assoc]
    exact List.perm_append_singleton _ _
  | arrive i =>
    simp only [Net.step] at hstep
    cases hi : s.inFlight[i]? with
    | none => simp [hi] at hstep
    | some r =>
      obtain ⟨k, payload⟩ := r
      cases hk : s.sent[k]? with
      | none => simp [hi, hk] at hstep
      | some q =>
        refine h.arrive hi hk ?_
        simp only [hi, hk] at hstep
        cases harrive : s.arrive i q payload with
        | error f => simp [harrive, Except.toOption] at hstep
        | ok t => simpa [harrive, Except.toOption] using hstep

theorem Matched.lands {e : NetEvent} (hfree : s.Free e) (h : s.Matched) : s.Lands e := by
  cases e with
  | issue c buf =>
    intro s' hissue
    rw [corId_opFor]
    exact (issue_free hfree hissue).2.1
  | answer k payload => trivial
  | arrive i =>
    intro s' k payload q hstep hi hk
    obtain ⟨q', hq', hentry⟩ := h.entry k ((s.waiting_perm hi).mem_iff.mpr (by simp))
    obtain rfl := Option.some.inj (hk.symm.trans hq')
    simp only [Net.step, hi, hk] at hstep
    cases harrive : s.arrive i q payload with
    | error f => simp [harrive, Except.toOption] at hstep
    | ok t =>
      obtain rfl : t = s' := by simpa [harrive, Except.toOption] using hstep
      obtain ⟨hfit, rfl⟩ := arrive_own hentry harrive
      exact ⟨hfit, rfl⟩

/-- An entry can only be recorded for a coroutine that waits for nothing. -/
theorem Lands.free {e : NetEvent} (h : s.Lands e) : s.Free e := by
  cases e with
  | issue c buf =>
    intro r hr
    by_contra hwait
    have href : s.core.replyStation.addPendingReply (c % 2^7) (.ofBuf buf) =
        .ok (s.core.replyStation, false) :=
      ReplyStation.addPendingReply_refused hr (Nat.pos_of_ne_zero hwait)
    have hissue : s.issue c buf = .ok { core := s.core
                                        sent := s.sent ++ [⟨c % 2^7, buf⟩]
                                        unanswered := s.unanswered ++ [s.sent.length]
                                        inFlight := s.inFlight } := by
      simp only [Net.issue, RPCOp.addOneReply, RPCOp.addReplyEntry, corId_opFor, href, ok_bind,
        pure_eq_ok]
    have hadd := h _ hissue
    rw [corId_opFor, href] at hadd
    simp at hadd
  | answer k payload => trivial
  | arrive i => trivial

end Steps
end Net

/-- Every reply lands in the buffer of its request, and no request is sent unrecorded, exactly
in the runs where every request is issued by a coroutine that waits for no reply. -/
theorem replies_land_iff (numCors : ℕ) (mem : ℕ → Byte) (es : List NetEvent) :
    AllSteps Net.step Net.Lands es (.init numCors mem : Net A) ↔
      AllSteps Net.step Net.Free es (.init numCors mem : Net A) := by
  constructor
  · intro hlands
    have htriv : ∀ (s : Net A) e s', s.step e = some s' → s.Lands e → True → True :=
      fun _ _ _ _ _ h => h
    exact hlands.imp htriv (fun s e h _ => h.free) trivial
  · intro hfree
    have hstep : ∀ (s : Net A) e s', s.step e = some s' → s.Free e → s.Matched → s'.Matched :=
      fun _ _ _ hstep hfree h => h.step hstep hfree
    exact hfree.imp hstep (fun s e hf h => h.lands hf) (Net.Matched.init numCors mem)

/-- A coroutine that sends a second request before its first reply: the second buffer is not
recorded, and a reply to the second request is written into the first. -/
theorem replies_stray :
    ¬ ∀ numCors mem es,
      AllSteps Net.step Net.Lands es (.init numCors mem : Net (List Byte)) := by
  intro hall
  have hland := hall 1 (fun _ => 0)
    [.issue 0 ⟨0, 4⟩, .issue 0 ⟨4, 4⟩, .answer 1 [9], .arrive 0]
  have harrive := ((((hland.2 _ rfl).2 _ rfl).2 _ rfl).1 _ 1 [9] ⟨0, ⟨4, 4⟩⟩ rfl rfl rfl).2
  have hbyte := congrFun harrive 4
  exact absurd hbyte (by decide)

end XStore.Xcomm
