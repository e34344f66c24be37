import XStore.Xcomm.Rpc
import XStore.Lib.Runs

/-! The reply station over a run: coroutines register entries and replies arrive for them, in
any order. A slot is what the station is for, told by the calls alone: the entry registered
last for a coroutine and the payloads that came for it since. -/
namespace XStore.Xcomm
open XStore.Lib

def MemBlock.Apart (a b : MemBlock) : Prop :=
  a.memPtr + a.sz ≤ b.memPtr ∨ b.memPtr + b.sz ≤ a.memPtr

/-- The calls on a station. An entry is built from its buffer and then waits for `n` replies. -/
inductive StationCall where
  | add (c n : ℕ) (buf : MemBlock)
  | append (c : ℕ) (payload : List Byte)

def StationCall.cor : StationCall → ℕ
  | add c _ _ => c
  | append c _ => c

/-- The station, the memory of the buffers, and the coroutines that the poller woke; `log` are
the calls so far and what they returned. -/
structure Station where
  mem : ℕ → Byte
  replies : ReplyStation
  woken : List ℕ
  log : List (StationCall × Bool)

namespace Station

def new (numCors : ℕ) (mem : ℕ → Byte) : Station where
  mem := mem
  replies := .new numCors
  woken := []
  log := []

/-- A call; the poller wakes a coroutine as soon as a reply makes it ready. -/
def call (s : Station) : StationCall → Res (Station × Bool)
  | .add c n buf => do
    let (replies, ret) ←
      s.replies.addPendingReply c { ReplyEntry.ofBuf buf with pendingReplies := n }
    pure ({ s with replies := replies }, ret)
  | .append c payload => do
    let (mem, replies, ret) ← s.replies.appendReply s.mem c payload
    let s := { s with mem := mem, replies := replies }
    if ret then
      if ← s.replies.corReady c then pure ({ s with woken := s.woken ++ [c] }, ret)
      else pure (s, ret)
    else pure (s, ret)

/-- A step of a run: a call that goes through, with its result noted in the log. -/
def step (s : Station) (e : StationCall) : Option Station :=
  match s.call e with
  | .ok (s', ret) => some { s' with log := s.log ++ [(e, ret)] }
  | .error _ => none

end Station

/-- The entry registered last for a coroutine, and the payloads that came for it since. -/
structure Slot where
  count : ℕ
  buf : MemBlock
  got : List (List Byte)

namespace Slot

def empty : Slot where
  count := 0
  buf := ⟨0, 0⟩
  got := []

def Waits (sl : Slot) : Prop := sl.got.length < sl.count

instance (sl : Slot) : Decidable sl.Waits := inferInstanceAs (Decidable (_ < _))

def next (slots : ℕ → Slot) : StationCall × Bool → ℕ → Slot
  | (.add c n buf, true) => Function.update slots c ⟨n, buf, []⟩
  | (.append c payload, true) =>
    Function.update slots c { slots c with got := (slots c).got ++ [payload] }
  | (_, false) => slots

end Slot

def slots (log : List (StationCall × Bool)) : ℕ → Slot := log.foldl Slot.next (fun _ => .empty)

def registered (c : ℕ) (log : List (StationCall × Bool)) : ℕ :=
  log.countP (fun r => match r with
    | (.add c' n _, true) => c' == c && decide (0 < n)
    | _ => false)

section Spec
variable {s s' : Station} {c : ℕ} {ret : Bool}

inductive Called (s : Station) : StationCall → Station → Bool → Prop where
  | refused (c n : ℕ) (buf : MemBlock) (r : ReplyEntry) (hr : s.replies.corReplies[c]? = some r)
      (hwait : 0 < r.pendingReplies) : Called s (.add c n buf) s false
  | added (c n : ℕ) (buf : MemBlock) (r : ReplyEntry) (hr : s.replies.corReplies[c]? = some r)
      (hready : r.pendingReplies = 0) : Called s (.add c n buf)
        { s with replies := ⟨s.replies.corReplies.set c ⟨n, buf, buf.memPtr⟩⟩ } true
  | late (c : ℕ) (payload : List Byte) (r : ReplyEntry)
      (hr : s.replies.corReplies[c]? = some r) (hready : r.pendingReplies = 0) :
      Called s (.append c payload) s false
  | appended (c : ℕ) (payload : List Byte) (r : ReplyEntry)
      (hr : s.replies.corReplies[c]? = some r) (hwait : 0 < r.pendingReplies)
      (hfit : r.curPtr + payload.length ≤ r.replyBuf.memPtr + r.replyBuf.sz) :
      Called s (.append c payload) { s with
        mem := memcpy s.mem r.curPtr payload
        replies := ⟨s.replies.corReplies.set c
          ⟨r.pendingReplies - 1, r.replyBuf, r.curPtr + payload.length⟩⟩
        woken := if r.pendingReplies = 1 then s.woken ++ [c] else s.woken } true

theorem call_cases {e : StationCall} (h : s.call e = .ok (s', ret)) : Called s e s' ret := by
  cases e with
  | add c n buf =>
    cases hr : s.replies.corReplies[c]? with
    | none =>
      rw [Station.call, ReplyStation.addPendingReply_out (by simpa using hr)] at h
      cases h
    | some r =>
      by_cases hwait : 0 < r.pendingReplies
      · rw [Station.call, ReplyStation.addPendingReply_refused hr hwait] at h
        obtain ⟨rfl, rfl⟩ := Prod.mk.inj (Except.ok.inj h)
        exact .refused c n buf r hr hwait
      · have hready : r.pendingReplies = 0 := by omega
        rw [Station.call, ReplyStation.addPendingReply_added hr hready] at h
        obtain ⟨rfl, rfl⟩ := Prod.mk.inj (Except.ok.inj h)
        exact .added c n buf r hr hready
  | append c payload =>
    cases hr : s.replies.corReplies[c]? with
    | none =>
      rw [Station.call, ReplyStation.appendReply_out (by simpa using hr)] at h
      cases h
    | some r =>
      by_cases hwait : 0 < r.pendingReplies
      · rw [Station.call, ReplyStation.appendReply_wait hr hwait] at h
        by_cases hfit : r.curPtr + payload.length ≤ r.replyBuf.memPtr + r.replyBuf.sz
        · have hlt := (List.getElem?_eq_some_iff.mp hr).1
          have hset : (s.replies.corReplies.set c ⟨r.pendingReplies - 1, r.replyBuf,
              r.curPtr + payload.length⟩)[c]? =
              some ⟨r.pendingReplies - 1, r.replyBuf, r.curPtr + payload.length⟩ := by
            simp [hlt]
          have hcalled := Called.appended c payload r hr hwait hfit
          rw [if_pos hfit] at h
          simp only [ok_bind, if_true, ReplyStation.corReady_eq hset] at h
          by_cases hone : r.pendingReplies = 1
          · simp only [hone, if_true] at hcalled
            simp only [hone, Nat.sub_self, beq_self_eq_true, if_true, pure_eq_ok, Except.ok.injEq,
              Prod.mk.injEq] at h
            rw [← h.1, ← h.2]
            exact hcalled
          · have hne : (r.pendingReplies - 1 == 0) = false := by
              rw [beq_eq_false_iff_ne]
              omega
            simp only [hone, if_false] at hcalled
            simp only [hne, Bool.false_eq_true, if_false, pure_eq_ok, Except.ok.injEq,
              Prod.mk.injEq] at h
            rw [← h.1, ← h.2]
            exact hcalled
        · rw [if_neg hfit] at h
          cases h
      · have hready : r.pendingReplies = 0 := by omega
        rw [Station.call, ReplyStation.appendReply_late hr hready] at h
        obtain ⟨rfl, rfl⟩ := Prod.mk.inj (Except.ok.inj h)
        exact .late c payload r hr hready

theorem step_call {e : StationCall} (h : s.step e = some s') :
    ∃ t ret, Called s e t ret ∧ s' = { t with log := s.log ++ [(e, ret)] } := by
  unfold Station.step at h
  cases hcall : s.call e with
  | error f => simp [hcall] at h
  | ok t =>
    obtain ⟨t, ret⟩ := t
    rw [hcall] at h
    exact ⟨t, ret, call_cases hcall, (Option.some.inj h).symm⟩

theorem slots_append (log : List (StationCall × Bool)) (r : StationCall × Bool) :
    slots (log ++ [r]) = Slot.next (slots log) r := by
  simp [slots]

theorem registered_append (log : List (StationCall × Bool)) (r : StationCall × Bool) :
    registered c (log ++ [r]) = registered c log + registered c [r] := by
  simp [registered]

theorem registered_add (c' n : ℕ) (buf : MemBlock) :
    registered c [(.add c' n buf, true)] = if c' = c ∧ 0 < n then 1 else 0 := by
  by_cases h : c' = c <;> by_cases hn : 0 < n <;> simp [registered, h, hn]

theorem registered_append_reply (c' : ℕ) (payload : List Byte) :
    registered c [(.append c' payload, true)] = 0 := by
  simp [registered]

structure Slot.Tracks (sl : Slot) (r : ReplyEntry) : Prop where
  pending : r.pendingReplies + sl.got.length = sl.count
  buf : r.replyBuf = sl.buf
  cur : r.curPtr = sl.buf.memPtr + sl.got.flatten.length

theorem Slot.Tracks.waits {sl : Slot} {r : ReplyEntry} (h : sl.Tracks r) :
    sl.Waits ↔ 0 < r.pendingReplies := by
  have hp := h.pending
  unfold Slot.Waits
  omega

/-- All entries are, and every entry that waited for replies and got them woke its coroutine. -/
structure Tracks (numCors : ℕ) (s : Station) : Prop where
  length : s.replies.corReplies.length = numCors
  entry : ∀ c r, s.replies.corReplies[c]? = some r → (slots s.log c).Tracks r
  wakes : ∀ c, s.woken.count c + (if (slots s.log c).Waits then 1 else 0) = registered c s.log

theorem Tracks.new (numCors : ℕ) (mem : ℕ → Byte) : Tracks numCors (.new numCors mem) where
  length := by simp [Station.new, ReplyStation.new]
  entry c r hr := by
    have hmem : r ∈ List.replicate numCors ReplyEntry.empty := List.mem_of_getElem? hr
    obtain rfl := List.eq_of_mem_replicate hmem
    exact ⟨rfl, rfl, rfl⟩
  wakes c := by simp [Station.new, slots, Slot.empty, Slot.Waits, registered]

theorem Tracks.refused {numCors : ℕ} {e : StationCall} (h : Tracks numCors s) :
    Tracks numCors { s with log := s.log ++ [(e, false)] } := by
  have hslots : slots (s.log ++ [(e, false)]) = slots s.log := by
    rw [slots_append]
    cases e <;> rfl
  refine ⟨h.length, ?_, ?_⟩
  · rw [hslots]
    exact h.entry
  · intro c
    rw [hslots, registered_append]
    cases e <;> simpa [registered] using h.wakes c

theorem Tracks.set {numCors : ℕ} {e : StationCall} {t : Station} (h : Tracks numCors s)
    (c : ℕ) (sl' : Slot) (r' : ReplyEntry) (hnext : Slot.next (slots s.log) (e, true) =
      Function.update (slots s.log) c sl') (htrack : sl'.Tracks r')
    (hset : t.replies.corReplies = s.replies.corReplies.set c r')
    (hother : ∀ c', c' ≠ c → t.woken.count c' = s.woken.count c' ∧ registered c' [(e, true)] = 0)
    (hself : t.woken.count c + (if sl'.Waits then 1 else 0) =
      registered c s.log + registered c [(e, true)]) :
    Tracks numCors { t with log := s.log ++ [(e, true)] } := by
  refine ⟨by simpa [hset] using h.length, ?_, ?_⟩
  · intro c' r₁ hr₁
    rw [slots_append, hnext]
    by_cases hc : c' = c
    · subst hc
      have hlt : c' < s.replies.corReplies.length := by
        have := (List.getElem?_eq_some_iff.mp hr₁).1
        simpa [hset] using this
      have heq : r' = r₁ := by simpa [hset, hlt] using hr₁
      rw [Function.update_self, ← heq]
      exact htrack
    · rw [Function.update_of_ne hc]
      refine h.entry c' r₁ ?_
      simpa [hset, List.getElem?_set_ne (Ne.symm hc)] using hr₁
  · intro c'
    rw [slots_append, hnext, registered_append]
    by_cases hc : c' = c
    · subst hc
      rw [Function.update_self]
      exact hself
    · obtain ⟨hwoken, hreg⟩ := hother c' hc
      rw [Function.update_of_ne hc, hreg]
      simpa [hwoken] using h.wakes c'

theorem Tracks.step {numCors : ℕ} {e : StationCall} (h : Tracks numCors s)
    (hstep : s.step e = some s') : Tracks numCors s' := by
  obtain ⟨t, ret, hcalled, rfl⟩ := step_call hstep
  cases hcalled with
  | refused c n buf r hr hwait => exact h.refused
  | late c payload r hr hready => exact h.refused
  | added c n buf r hr hready =>
    have htrack := h.entry c r hr
    have hwakes := h.wakes c
    have hnot : ¬ (slots s.log c).Waits := by rw [htrack.waits]; omega
    rw [if_neg hnot] at hwakes
    refine h.set c ⟨n, buf, []⟩ ⟨n, buf, buf.memPtr⟩ rfl ⟨rfl, rfl, rfl⟩ rfl ?_ ?_
    · intro c' hc
      exact ⟨rfl, by simp [registered_add, Ne.symm hc]⟩
    · rw [registered_add]
      simp only [Slot.Waits, List.length_nil, true_and]
      by_cases hn : 0 < n
      · simp only [hn, if_true]
        omega
      · simp only [hn, if_false]
        omega
  | appended c payload r hr hwait hfit =>
    have htrack := h.entry c r hr
    have hwakes := h.wakes c
    have hyes : (slots s.log c).Waits := htrack.waits.mpr hwait
    have hpending := htrack.pending
    rw [if_pos hyes] at hwakes
    refine h.set c { slots s.log c with got := (slots s.log c).got ++ [payload] }
      ⟨r.pendingReplies - 1, r.replyBuf, r.curPtr + payload.length⟩ rfl
      ⟨?_, htrack.buf, ?_⟩ rfl ?_ ?_
    · simp only [List.length_append, List.length_singleton]
      omega
    · simp only [htrack.cur, List.flatten_append, List.length_append, List.flatten_singleton]
      omega
    · intro c' hc
      refine ⟨?_, registered_append_reply c payload⟩
      by_cases hone : r.pendingReplies = 1
      · simp [hone, Ne.symm hc]
      · simp [hone]
    · simp only [registered_append_reply, Slot.Waits, List.length_append, List.length_singleton]
      by_cases hone : r.pendingReplies = 1
      · simp only [hone, if_true, List.count_append, List.count_singleton_self]
        split <;> omega
      · simp only [hone, if_false]
        split <;> omega

/-- What the buffers of waiting entries hold, as long as they do not overlap. -/
structure Contents (s : Station) : Prop where
  holds : ∀ c, (slots s.log c).Waits →
    slice s.mem (slots s.log c).buf.memPtr (slots s.log c).got.flatten.length =
      (slots s.log c).got.flatten
  fits : ∀ c, (slots s.log c).Waits →
    (slots s.log c).got.flatten.length ≤ (slots s.log c).buf.sz
  apart : ∀ c c', c ≠ c' → (slots s.log c).Waits → (slots s.log c').Waits →
    (slots s.log c).buf.Apart (slots s.log c').buf

/-- A buffer is registered apart from the buffers of the other entries that wait. -/
def Station.ApartFrom (s : Station) : StationCall → Prop
  | .add c n buf => 0 < n → ¬ (slots s.log c).Waits →
      ∀ c', c' ≠ c → (slots s.log c').Waits → buf.Apart (slots s.log c').buf
  | .append _ _ => True

theorem Contents.new (numCors : ℕ) (mem : ℕ → Byte) : Contents (.new numCors mem) where
  holds c h := absurd h (by simp [Station.new, slots, Slot.empty, Slot.Waits])
  fits c h := absurd h (by simp [Station.new, slots, Slot.empty, Slot.Waits])
  apart c c' _ h := absurd h (by simp [Station.new, slots, Slot.empty, Slot.Waits])

theorem Contents.appended {numCors : ℕ} {r : ReplyEntry} {payload : List Byte}
    (hc : Contents s) (ht : Tracks numCors s) (hr : s.replies.corReplies[c]? = some r)
    (hwait : 0 < r.pendingReplies) :
    slice (memcpy s.mem r.curPtr payload) (slots s.log c).buf.memPtr
      ((slots s.log c).got ++ [payload]).flatten.length =
        ((slots s.log c).got ++ [payload]).flatten := by
  have htrack := ht.entry c r hr
  rw [List.flatten_append, List.flatten_singleton, slice_append_iff, ← htrack.cur]
  refine ⟨?_, slice_memcpy payload r.curPtr⟩
  refine (slice_congr (fun i hi => ?_)).trans (hc.holds c (htrack.waits.mpr hwait))
  exact memcpy_behind (Or.inl (by rw [htrack.cur]; omega))

theorem Contents.refused {e : StationCall} (hc : Contents s) :
    Contents { s with log := s.log ++ [(e, false)] } := by
  have hslots : slots (s.log ++ [(e, false)]) = slots s.log := by
    rw [slots_append]
    cases e <;> rfl
  refine ⟨?_, ?_, ?_⟩
  · rw [hslots]
    exact hc.holds
  · rw [hslots]
    exact hc.fits
  · rw [hslots]
    exact hc.apart

theorem MemBlock.Apart.symm {a b : MemBlock} (h : a.Apart b) : b.Apart a := Or.symm h

theorem MemBlock.Apart.slice_memcpy {a b : MemBlock} (h : a.Apart b) (mem : ℕ → Byte)
    {dst len : ℕ} {bs : List Byte} (hdst : a.memPtr ≤ dst) (hbs : dst + bs.length ≤ a.memPtr + a.sz)
    (hlen : len ≤ b.sz) : slice (memcpy mem dst bs) b.memPtr len = slice mem b.memPtr len := by
  refine slice_congr (fun i hi => memcpy_behind ?_)
  rcases h with h | h <;> omega

/-- A call that changes the slot of one coroutine and leaves what the other buffers hold. -/
theorem Contents.set {e : StationCall} {t : Station} (hc : Contents s) (c : ℕ) (sl' : Slot)
    (hnext : Slot.next (slots s.log) (e, true) = Function.update (slots s.log) c sl')
    (hself : sl'.Waits → slice t.mem sl'.buf.memPtr sl'.got.flatten.length = sl'.got.flatten ∧
      sl'.got.flatten.length ≤ sl'.buf.sz)
    (hother : ∀ c', c' ≠ c → (slots s.log c').Waits →
      slice t.mem (slots s.log c').buf.memPtr (slots s.log c').got.flatten.length =
        slice s.mem (slots s.log c').buf.memPtr (slots s.log c').got.flatten.length)
    (hapart : ∀ c', c' ≠ c → sl'.Waits → (slots s.log c').Waits →
      sl'.buf.Apart (slots s.log c').buf) :
    Contents { t with log := s.log ++ [(e, true)] } := by
  have hslots : slots (s.log ++ [(e, true)]) = Function.update (slots s.log) c sl' := by
    rw [slots_append, hnext]
  refine ⟨fun c' => ?_, fun c' => ?_, fun c₁ c₂ hne => ?_⟩
  · rw [hslots]
    by_cases hcc : c' = c
    · rw [hcc, Function.update_self]
      exact fun hw => (hself hw).1
    · rw [Function.update_of_ne hcc]
      exact fun hw => (hother c' hcc hw).trans (hc.holds c' hw)
  · rw [hslots]
    by_cases hcc : c' = c
    · rw [hcc, Function.update_self]
      exact fun hw => (hself hw).2
    · rw [Function.update_of_ne hcc]
      exact hc.fits c'
  · rw [hslots]
    by_cases h₁ : c₁ = c
    · rw [h₁, Function.update_self, Function.update_of_ne (h₁ ▸ hne.symm)]
      exact hapart c₂ (h₁ ▸ hne.symm)
    · by_cases h₂ : c₂ = c
      · rw [h₂, Function.update_self, Function.update_of_ne h₁]
        exact fun hw hw' => (hapart c₁ h₁ hw' hw).symm
      · rw [Function.update_of_ne h₁, Function.update_of_ne h₂]
        exact hc.apart c₁ c₂ hne

theorem Contents.step {numCors : ℕ} {e : StationCall} (hc : Contents s) (ht : Tracks numCors s)
    (hapart : s.ApartFrom e) (hstep : s.step e = some s') : Contents s' := by
  obtain ⟨t, ret, hcalled, rfl⟩ := step_call hstep
  cases hcalled with
  | refused c n buf r hr hwait => exact hc.refused
  | late c payload r hr hready => exact hc.refused
  | added c n buf r hr hready =>
    have hnot : ¬ (slots s.log c).Waits := by rw [(ht.entry c r hr).waits]; omega
    refine hc.set c ⟨n, buf, []⟩ rfl (fun _ => ?_) (fun _ _ _ => rfl) (fun c' hne hw hw' => ?_)
    · simp [slice]
    · exact hapart hw hnot c' hne hw'
  | appended c payload r hr hwait hfit =>
    have htrack := ht.entry c r hr
    have hyes := htrack.waits.mpr hwait
    refine hc.set c { slots s.log c with got := (slots s.log c).got ++ [payload] } rfl
      (fun _ => ⟨hc.appended ht hr hwait, ?_⟩) (fun c' hne hw => ?_)
      (fun c' hne _ hw => hc.apart c c' hne.symm hyes hw)
    · rw [htrack.cur, htrack.buf] at hfit
      rw [List.flatten_append, List.length_append, List.flatten_singleton]
      simp only
      omega
    · refine (hc.apart c c' hne.symm hyes hw).slice_memcpy s.mem ?_ ?_ (hc.fits c' hw)
      · rw [htrack.cur]
        omega
      · rw [← htrack.buf]
        exact hfit

end Spec

section Runs
variable {numCors : ℕ} {mem : ℕ → Byte} {es : List StationCall} {s : Station}

/-- What a run leaves of coroutine `c`: no more replies than its entry asked for, readiness
when there are as many, the write pointer behind them, and one wake-up for each entry that
waited for a reply and got all of them. -/
structure Station.Accounts (s : Station) (c : ℕ) : Prop where
  got_le : (slots s.log c).got.length ≤ (slots s.log c).count
  ready : s.replies.corReady c =
    .ok (decide ((slots s.log c).got.length = (slots s.log c).count))
  entry : ∃ r, s.replies.entry c = .ok r ∧ r.replyBuf = (slots s.log c).buf ∧
    r.curPtr = (slots s.log c).buf.memPtr + (slots s.log c).got.flatten.length
  wakes : s.woken.count c + (if (slots s.log c).Waits then 1 else 0) = registered c s.log

/-- How a call is answered: an entry is taken if its coroutine waits for nothing, a reply if
it waits. What is refused changes nothing, and no call touches another coroutine's entry. -/
structure Station.Answers (s : Station) (e : StationCall) (s' : Station) (ret : Bool) : Prop where
  taken : ret = true ↔ match e with
    | .add c _ _ => ¬ (slots s.log c).Waits
    | .append c _ => (slots s.log c).Waits
  refused : ret = false → s' = s
  others : ∀ c, c ≠ e.cor → s'.replies.entry c = s.replies.entry c

def Station.Fits (s : Station) : StationCall → Prop
  | .add _ _ _ => True
  | .append c payload => (slots s.log c).Waits →
      (slots s.log c).got.flatten.length + payload.length ≤ (slots s.log c).buf.sz

theorem Tracks.run (hrun : run Station.step es (.new numCors mem) = some s) : Tracks numCors s :=
  run_invariant (Tracks numCors) (fun _ _ _ hstep h => h.step hstep) hrun (Tracks.new numCors mem)

theorem Tracks.get (h : Tracks numCors s) {c : ℕ} (hc : c < numCors) :
    ∃ r, s.replies.corReplies[c]? = some r :=
  ⟨_, List.getElem?_eq_getElem (h.length ▸ hc)⟩

theorem Tracks.accounts (h : Tracks numCors s) {c : ℕ} (hc : c < numCors) : s.Accounts c := by
  obtain ⟨r, hr⟩ := h.get hc
  have htrack := h.entry c r hr
  have hpending := htrack.pending
  refine ⟨by omega, ?_, ⟨r, ReplyStation.entry_eq_ok.mpr hr, htrack.buf, htrack.cur⟩, h.wakes c⟩
  rw [ReplyStation.corReady_eq hr]
  congr 1
  rw [Bool.eq_iff_iff, beq_iff_eq, decide_eq_true_iff]
  omega

theorem Tracks.answers (h : Tracks numCors s) {e : StationCall} {s' : Station} {ret : Bool}
    (hcall : s.call e = .ok (s', ret)) : s.Answers e s' ret := by
  have hother : ∀ c c' r', c' ≠ c → ReplyStation.entry ⟨s.replies.corReplies.set c r'⟩ c' =
      s.replies.entry c' := by
    intro c c' r' hne
    simp [ReplyStation.entry, List.getElem?_set_ne hne.symm]
  cases call_cases hcall with
  | refused c n buf r hr hwait =>
    exact ⟨by simp [(h.entry c r hr).waits, hwait], fun _ => rfl, fun _ _ => rfl⟩
  | added c n buf r hr hready =>
    exact ⟨by simp [(h.entry c r hr).waits, hready],
      fun hret => absurd hret.symm Bool.false_ne_true, fun c' hne => hother c c' _ hne⟩
  | late c payload r hr hready =>
    exact ⟨by simp [(h.entry c r hr).waits, hready], fun _ => rfl, fun _ _ => rfl⟩
  | appended c payload r hr hwait hfit =>
    exact ⟨by simp [(h.entry c r hr).waits, hwait],
      fun hret => absurd hret.symm Bool.false_ne_true, fun c' hne => hother c c' _ hne⟩

/-- A call for a coroutine of the station with a reply that fits goes through. -/
theorem Tracks.goes (h : Tracks numCors s) {e : StationCall} (hc : e.cor < numCors)
    (hfit : s.Fits e) : ∃ s' ret, s.call e = .ok (s', ret) := by
  cases e with
  | add c n buf =>
    obtain ⟨r, hr⟩ := h.get (c := c) hc
    by_cases hwait : 0 < r.pendingReplies
    · exact ⟨_, _, by rw [Station.call, ReplyStation.addPendingReply_refused hr hwait]; rfl⟩
    · have hready : r.pendingReplies = 0 := by omega
      exact ⟨_, _, by rw [Station.call, ReplyStation.addPendingReply_added hr hready]; rfl⟩
  | append c payload =>
    obtain ⟨r, hr⟩ := h.get (c := c) hc
    have htrack := h.entry c r hr
    by_cases hwait : 0 < r.pendingReplies
    · have hlen : r.curPtr + payload.length ≤ r.replyBuf.memPtr + r.replyBuf.sz := by
        have hroom := hfit (htrack.waits.mpr hwait)
        rw [htrack.cur, htrack.buf]
        omega
      have hlt := (List.getElem?_eq_some_iff.mp hr).1
      rw [Station.call, ReplyStation.appendReply_wait hr hwait, if_pos hlen]
      simp only [ok_bind, if_true, ReplyStation.corReady, ReplyStation.entry,
        List.getElem?_set_self hlt, need_some, pure_eq_ok]
      split <;> exact ⟨_, _, rfl⟩
    · have hready : r.pendingReplies = 0 := by omega
      exact ⟨_, _, by rw [Station.call, ReplyStation.appendReply_late hr hready]; rfl⟩

/-- The station over any run of calls. Buffers are only kept as written where they do not
overlap, and only an entry that waits for a reply is followed by a wake-up. -/
theorem reply_station_run (hrun : run Station.step es (.new numCors mem) = some s) :
    (∀ c < numCors, s.Accounts c) ∧
    (∀ e s' ret, s.call e = .ok (s', ret) → s.Answers e s' ret) ∧
    (∀ e, e.cor < numCors → s.Fits e → ∃ s' ret, s.call e = .ok (s', ret)) ∧
    (AllSteps Station.step Station.ApartFrom es (.new numCors mem) →
      ∀ c payload s', s.call (.append c payload) = .ok (s', true) →
        slice s'.mem (slots s.log c).buf.memPtr
          ((slots s.log c).got ++ [payload]).flatten.length =
            ((slots s.log c).got ++ [payload]).flatten) := by
  have htracks := Tracks.run hrun
  refine ⟨fun c hc => htracks.accounts hc, fun e s' ret => htracks.answers,
    fun e hc hfit => htracks.goes hc hfit, fun hapart c payload s' hcall => ?_⟩
  have hstep : ∀ s e s', Station.step s e = some s' → s.ApartFrom e →
      Tracks numCors s ∧ Contents s → Tracks numCors s' ∧ Contents s' :=
    fun s e s' hstep hap h => ⟨h.1.step hstep, h.2.step h.1 hap hstep⟩
  have hall := hapart.allStates hstep ⟨Tracks.new numCors mem, Contents.new numCors mem⟩
  have hcontents := (hall.last hrun).2
  generalize hret : true = ret at hcall
  generalize he : StationCall.append c payload = e at hcall
  cases call_cases hcall with
  | refused => cases he
  | added => cases he
  | late => cases hret
  | appended c' payload' r hr hwait hfit =>
    obtain ⟨rfl, rfl⟩ := StationCall.append.inj he
    exact hcontents.appended htracks hr hwait

end Runs

/-- The poller's Reply case is a call of the station, and an ASSERT on what it returned. -/
theorem RPCCore.pollReply_eq {A : Type} (c : RPCCore A) (corId : ℕ) (payload : List Byte)
    (log : List (StationCall × Bool)) : c.pollReply corId payload =
      Station.call ⟨c.mem, c.replyStation, c.addedBack, log⟩ (.append corId payload) >>=
        fun r => ensure r.2 .replyAdded >>= fun _ =>
          pure { c with mem := r.1.mem, replyStation := r.1.replies, addedBack := r.1.woken } := by
  simp only [RPCCore.pollReply, RPCCore.reply, Station.call]
  cases happ : ReplyStation.appendReply c.mem c.replyStation corId payload with
  | error e => rfl
  | ok r =>
    obtain ⟨mem, station, ret⟩ := r
    cases ret with
    | false => rfl
    | true =>
      simp only [ok_bind, if_true, pure_eq_ok]
      cases station.corReady corId with
      | error e => rfl
      | ok ready => cases ready <;> rfl

theorem reply_station_run_two :
    letI calls : List StationCall := [.add 0 2 ⟨0, 8⟩, .add 1 1 ⟨8, 8⟩, .append 0 [5]]
    ∃ s, run Station.step calls (.new 2 (fun _ => 0)) = some s ∧
      (∀ c < 2, s.Accounts c) ∧
      (AllSteps Station.step Station.ApartFrom calls (.new 2 (fun _ => 0)) →
        ∀ c payload s', s.call (.append c payload) = .ok (s', true) →
          slice s'.mem (slots s.log c).buf.memPtr
            ((slots s.log c).got ++ [payload]).flatten.length =
              ((slots s.log c).got ++ [payload]).flatten) := by
  have hrun : run Station.step [.add 0 2 ⟨0, 8⟩, .add 1 1 ⟨8, 8⟩, .append 0 [5]]
      (.new 2 (fun _ => 0)) = some _ := rfl
  obtain ⟨hacc, -, -, hslice⟩ := reply_station_run hrun
  exact ⟨_, hrun, hacc, hslice⟩

def added (c : ℕ) (log : List (StationCall × Bool)) : ℕ :=
  log.countP (fun r => match r with
    | (.add c' _ _, true) => c' == c
    | _ => false)

/-- An entry for no reply is never followed by a wake-up, and a buffer that two coroutines
registered holds a mixture of their replies. -/
theorem reply_station_not_always :
    (¬ ∀ numCors mem es s, run Station.step es (.new numCors mem) = some s → ∀ c < numCors,
      s.woken.count c + (if (slots s.log c).Waits then 1 else 0) = added c s.log) ∧
    ¬ ∀ numCors mem es s, run Station.step es (.new numCors mem) = some s →
      ∀ c payload s', s.call (.append c payload) = .ok (s', true) →
        slice s'.mem (slots s.log c).buf.memPtr
          ((slots s.log c).got ++ [payload]).flatten.length =
            ((slots s.log c).got ++ [payload]).flatten := by
  constructor
  · intro hall
    have h := hall 1 (fun _ => 0) [.add 0 0 ⟨0, 8⟩] _ rfl 0 (by decide)
    exact absurd h (by decide)
  · intro hall
    have h := hall 2 (fun _ => 0)
      [.add 0 2 ⟨0, 4⟩, .add 1 1 ⟨0, 4⟩, .append 0 [1], .append 1 [2]] _ rfl 0 [3] _ rfl
    exact absurd h (by decide)

end XStore.Xcomm
