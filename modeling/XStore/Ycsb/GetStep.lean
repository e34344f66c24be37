import XStore.Ycsb.GetInvariant

/-! What the steps do, and that each of them keeps the invariant. -/
namespace XStore.Ycsb.GetNet
open XStore.Lib XStore.Xkv XStore.Xcache XStore.Xcomm
variable {A V : Type} [Plain V] {db : Store kNPageKey XKey V} {home : A → UInt32} {numCors : ℕ}
  {s s' : GetNet A V} {e : GetEvent}

inductive Went (db : Store kNPageKey XKey V) (home : A → UInt32) (s : GetNet A V) :
    GetEvent → GetNet A V → Prop where
  | connect {sid : UInt32} {payload : List Byte} (a : A) (hhome : home a = sid) :
      Went db home s (.connect sid payload) { s with srv := { s.srv with
        incomingSessions := s.srv.incomingSessions.insert sid (some ⟨sid, a⟩) } }
  | get {q : Cor} {key : XKey} {buf : ℕ} (req : List Byte) (hphase : s.phase q = none)
      (hasks : Asks A req q.2 key) :
      Went db home s (.get q key buf) { (s.setClient q.1 { s.client q.1 with
        replyStation := ⟨(s.client q.1).replyStation.corReplies.set q.2
          (.ofBuf ⟨buf, Plain.size V⟩)⟩ }).setPhase q (some (key, buf)) with
          requests := s.requests ++ [⟨q, req⟩] }
  | serve {i : ℕ} {rest : List Byte} {p : Packet} {key : XKey} {buf : ℕ} {v : V}
      (srv : RPCCore A) (reply : List Byte) (hi : s.requests[i]? = some p)
      (hcallbacks : srv.callbacks = s.srv.callbacks)
      (hsessions : srv.incomingSessions = s.srv.incomingSessions)
      (hphase : s.phase p.cor = some (key, buf)) (hget : db.tree.get db.mem key = .ok (some v))
      (hbrings : Brings reply p.cor.2 v) :
      Went db home s (.serve i rest) { s with srv := srv
                                              requests := s.requests.eraseIdx i
                                              replies := s.replies ++ [⟨p.cor, reply⟩] }
  | poll {i : ℕ} {rest : List Byte} {p : Packet} {key : XKey} {buf : ℕ} {v : V}
      (hi : s.replies[i]? = some p) (hphase : s.phase p.cor = some (key, buf))
      (hget : db.tree.get db.mem key = .ok (some v)) (hexpects : s.Expects p.cor buf) :
      Went db home s (.poll i rest) { s.setClient p.cor.1 { s.client p.cor.1 with
        mem := memcpy (s.client p.cor.1).mem buf (Plain.toBytes v)
        replyStation := ⟨(s.client p.cor.1).replyStation.corReplies.set p.cor.2
          ⟨0, ⟨buf, Plain.size V⟩, buf + (Plain.toBytes v).length⟩⟩
        addedBack := (s.client p.cor.1).addedBack ++ [p.cor.2] } with
          replies := s.replies.eraseIdx i }
  | resume {q : Cor} {key : XKey} {buf : ℕ} {v : V} (hphase : s.phase q = some (key, buf))
      (hwoken : q.2 ∈ (s.client q.1).addedBack) (hget : db.tree.get db.mem key = .ok (some v)) :
      Went db home s (.resume q) { (s.setClient q.1 { s.client q.1 with
        addedBack := (s.client q.1).addedBack.erase q.2 }).setPhase q none with
          returned := s.returned ++ [(q, key, v)] }
  | dropRequest {i : ℕ} {p : Packet} (hi : s.requests[i]? = some p) :
      Went db home s (.dropRequest i) { s with requests := s.requests.eraseIdx i
                                               lost := s.lost ++ [p.cor] }
  | dropReply {i : ℕ} {p : Packet} (hi : s.replies[i]? = some p) :
      Went db home s (.dropReply i) { s with replies := s.replies.eraseIdx i
                                             lost := s.lost ++ [p.cor] }

theorem Sound.connect (h : s.Sound db home numCors) {sid : UInt32} (a : A) (hhome : home a = sid) :
    Sound db home numCors { s with srv := { s.srv with
      incomingSessions := s.srv.incomingSessions.insert sid (some ⟨sid, a⟩) } } where
  callbacks := h.callbacks
  station := h.station
  standing q := by
    refine (h.standing q).frame ⟨rfl, rfl, id, fun _ _ _ => rfl, fun _ _ => id, fun _ _ => id, rfl,
      fun hconnected => ?_⟩
    obtain ⟨b, hb, hq⟩ := hconnected
    refine ⟨b, ?_, hq⟩
    unfold Sessions.insert
    split
    · exact hb
    · next hnone =>
      have hne : q.1 ≠ sid := by
        rintro rfl
        rw [hnone] at hb
        cases hb
      exact (Function.update_of_ne hne _ _).trans hb
  apart := h.apart
  returned := h.returned

theorem Sound.get (h : s.Sound db home numCors) {q : Cor} {key : XKey} {buf : ℕ} {v : V}
    (hphase : s.phase q = none) (hconnected : s.Connected home q.1) (hlt : q.2 < numCors)
    (hget : db.tree.get db.mem key = .ok (some v))
    (hapart : ∀ c key' buf', s.phase (q.1, c) = some (key', buf') →
      MemBlock.Apart ⟨buf, Plain.size V⟩ ⟨buf', Plain.size V⟩)
    {req : List Byte} (hasks : Asks A req q.2 key) :
    Sound db home numCors { (s.setClient q.1 { s.client q.1 with
      replyStation := ⟨(s.client q.1).replyStation.corReplies.set q.2
        (.ofBuf ⟨buf, Plain.size V⟩)⟩ }).setPhase q (some (key, buf)) with
        requests := s.requests ++ [⟨q, req⟩] } := by
  obtain ⟨hrequests, hreplies, hback, hlost⟩ := (h.standing q).none hphase
  refine ⟨h.callbacks, fun sid => ?_, fun q' => ?_, ?_, h.returned⟩
  · by_cases hsid : sid = q.1
    · subst hsid
      simpa [setClient, setPhase] using h.station q.1
    · simpa [setClient, setPhase, Function.update_of_ne hsid] using h.station sid
  · by_cases hq : q' = q
    · subst hq
      have hself : Function.update s.phase q' (some (key, buf)) q' = some (key, buf) :=
        Function.update_self _ _ _
      refine ⟨?_, fun p hp hcor => ?_, fun p hp hcor => ?_, fun hmem => ?_, fun hnone => ?_⟩
      · simp only [GetNet.tokens, setClient, setPhase, Function.update_self, count_snoc, if_pos,
          Option.isSome_some, hrequests, hreplies, hback, hlost]
      · refine ⟨key, buf, v, hself, ?_, hconnected, ?_, hget⟩
        · cases List.mem_append.mp hp with
          | inl hold => exact absurd hcor (no_packet hrequests hold)
          | inr hnew =>
            obtain rfl := List.mem_singleton.mp hnew
            exact hasks
        · have hin : q'.2 < (s.client q'.1).replyStation.corReplies.length := by
            rw [h.station]
            exact hlt
          simpa [Expects, setClient, setPhase] using List.getElem?_set_self hin
      · exact absurd hcor (no_packet hreplies hp)
      · have hmem' : q'.2 ∈ (s.client q'.1).addedBack := by
          simpa [setClient, setPhase] using hmem
        exact absurd hmem' (List.count_eq_zero.mp hback)
      · exact absurd (hself.symm.trans hnone) (by simp)
    · refine (h.standing q').frame (untouched hq rfl (Function.update_of_ne hq _ _)
        (fun c hc => List.getElem?_set_ne hc.symm) (fun _ _ => rfl) (fun _ _ _ _ _ => rfl)
        (fun p hcor => mem_of_snoc (Ne.symm hq) hcor) (fun _ _ => id) ?_ rfl)
      simp only [setClient, setPhase, count_snoc, if_neg (Ne.symm hq), Nat.add_zero]
  · intro sid c c' k b k' b' hne hc hc'
    by_cases hq : (sid, c) = q
    · have hq' : (sid, c') ≠ q := by
        rintro rfl
        exact hne (Prod.mk.inj hq).2
      subst hq
      obtain ⟨rfl, rfl⟩ : key = k ∧ buf = b := by
        simpa [setClient, setPhase] using hc
      exact hapart c' k' b' (by simpa [setClient, setPhase, Function.update_of_ne hq'] using hc')
    · have hold : s.phase (sid, c) = some (k, b) := by
        simpa [setClient, setPhase, Function.update_of_ne hq] using hc
      by_cases hq' : (sid, c') = q
      · subst hq'
        obtain ⟨rfl, rfl⟩ : key = k' ∧ buf = b' := by
          simpa [setClient, setPhase] using hc'
        exact (hapart c k b hold).symm
      · exact h.apart sid c c' k b k' b' hne hold
          (by simpa [setClient, setPhase, Function.update_of_ne hq'] using hc')

theorem Sound.serve (h : s.Sound db home numCors) {i : ℕ} {p : Packet} {key : XKey} {buf : ℕ}
    {v : V} {srv : RPCCore A} {reply : List Byte} (hi : s.requests[i]? = some p)
    (hcallbacks : srv.callbacks = s.srv.callbacks)
    (hsessions : srv.incomingSessions = s.srv.incomingSessions)
    (hphase : s.phase p.cor = some (key, buf)) (hget : db.tree.get db.mem key = .ok (some v))
    (hbrings : Brings reply p.cor.2 v) :
    Sound db home numCors { s with srv := srv
                                   requests := s.requests.eraseIdx i
                                   replies := s.replies ++ [⟨p.cor, reply⟩] } := by
  obtain ⟨htokens, hrequests, hreplies, hback, hlost⟩ := (h.standing p.cor).request hi
  refine ⟨hcallbacks ▸ h.callbacks, h.station, fun q => ?_, h.apart, h.returned⟩
  by_cases hq : q = p.cor
  · subst hq
    refine ⟨?_, fun p' hp' hcor => ?_, fun p' hp' hcor => ?_, fun hmem => ?_, fun hnone => ?_⟩
    · change _ = if (s.phase p.cor).isSome then 1 else 0
      rw [hphase]
      simp only [GetNet.tokens, count_snoc, if_pos, Option.isSome_some, hrequests, hreplies, hback,
        hlost]
    · exact absurd hcor (no_packet hrequests hp')
    · cases List.mem_append.mp hp' with
      | inl hold => exact absurd hcor (no_packet hreplies hold)
      | inr hnew =>
        obtain rfl := List.mem_singleton.mp hnew
        obtain ⟨key', buf', -, hphase', -, -, hexpects, -⟩ :=
          (h.standing p.cor).asked p (List.mem_of_getElem? hi) rfl
        obtain ⟨rfl, rfl⟩ := Prod.mk.inj (Option.some.inj (hphase.symm.trans hphase'))
        exact ⟨key, buf, v, hphase, hbrings, hexpects, hget⟩
    · exact absurd hmem (List.count_eq_zero.mp hback)
    · exact absurd (hphase.symm.trans hnone) (by simp)
  · refine (h.standing q).frame (untouched hq (Function.update_eq_self _ _).symm rfl
      (fun _ _ => rfl) (fun _ _ => rfl) (fun _ _ _ _ _ => rfl)
      (fun _ _ => List.mem_of_mem_eraseIdx) (fun p' hcor => mem_of_snoc (Ne.symm hq) hcor) ?_
      hsessions)
    have hcount := count_eraseIdx hi q
    rw [if_neg (Ne.symm hq)] at hcount
    simp only [count_snoc, if_neg (Ne.symm hq)]
    omega

theorem Sound.poll (h : s.Sound db home numCors) {i : ℕ} {p : Packet} {key : XKey} {buf : ℕ} {v : V}
    (hi : s.replies[i]? = some p) (hphase : s.phase p.cor = some (key, buf))
    (hget : db.tree.get db.mem key = .ok (some v)) (hexpects : s.Expects p.cor buf) :
    Sound db home numCors { s.setClient p.cor.1 { s.client p.cor.1 with
      mem := memcpy (s.client p.cor.1).mem buf (Plain.toBytes v)
      replyStation := ⟨(s.client p.cor.1).replyStation.corReplies.set p.cor.2
        ⟨0, ⟨buf, Plain.size V⟩, buf + (Plain.toBytes v).length⟩⟩
      addedBack := (s.client p.cor.1).addedBack ++ [p.cor.2] } with
        replies := s.replies.eraseIdx i } := by
  obtain ⟨htokens, hreplies, hrequests, hback, hlost⟩ := (h.standing p.cor).reply hi
  have hlen : (Plain.toBytes v).length = Plain.size V := Plain.length_toBytes v
  refine ⟨h.callbacks, fun sid => ?_, fun q => ?_, h.apart, h.returned⟩
  · by_cases hsid : sid = p.cor.1
    · subst hsid
      simpa [setClient] using h.station p.cor.1
    · simpa [setClient, Function.update_of_ne hsid] using h.station sid
  · by_cases hq : q = p.cor
    · subst hq
      refine ⟨?_, fun p' hp' hcor => ?_, fun p' hp' hcor => ?_, fun _ => ?_, fun hnone => ?_⟩
      · change _ = if (s.phase p.cor).isSome then 1 else 0
        rw [hphase]
        simp [GetNet.tokens, setClient, hrequests, hreplies, hback, hlost]
      · exact absurd hcor (no_packet hrequests hp')
      · exact absurd hcor (no_packet hreplies hp')
      · have hin := (List.getElem?_eq_some_iff.mp hexpects).1
        refine ⟨key, buf, v, ⟨0, ⟨buf, Plain.size V⟩, buf + (Plain.toBytes v).length⟩, hphase, ?_,
          ?_, rfl, hget⟩
        · simp only [setClient, Function.update_self]
          rw [← hlen, slice_memcpy]
        · simpa [setClient] using List.getElem?_set_self hin
      · exact absurd (hphase.symm.trans hnone) (by simp)
    · refine (h.standing q).frame (untouched hq rfl rfl
        (fun c hc => List.getElem?_set_ne hc.symm) (fun c hc => ?_) (fun c hc key' buf' hc' => ?_)
        (fun _ _ => id) (fun _ _ => List.mem_of_mem_eraseIdx) ?_ rfl)
      · rw [List.count_append, List.count_singleton, if_neg (by simpa using hc.symm), Nat.add_zero]
      · have hpair : MemBlock.Apart ⟨buf, Plain.size V⟩ ⟨buf', Plain.size V⟩ :=
          h.apart p.cor.1 p.cor.2 c key buf key' buf' hc.symm hphase hc'
        exact hpair.slice_memcpy _ le_rfl (by rw [hlen]) le_rfl
      · have hcount := count_eraseIdx hi q
        rw [if_neg (Ne.symm hq)] at hcount
        simp only [setClient]
        omega

theorem Sound.resume (h : s.Sound db home numCors) {q : Cor} {key : XKey} {buf : ℕ} {v : V}
    (hphase : s.phase q = some (key, buf)) (hwoken : q.2 ∈ (s.client q.1).addedBack)
    (hget : db.tree.get db.mem key = .ok (some v)) :
    Sound db home numCors { (s.setClient q.1 { s.client q.1 with
      addedBack := (s.client q.1).addedBack.erase q.2 }).setPhase q none with
        returned := s.returned ++ [(q, key, v)] } := by
  have htokens := (h.standing q).tokens
  have hpos := List.count_pos_iff.mpr hwoken
  rw [hphase] at htokens
  simp only [GetNet.tokens, Option.isSome_some, if_true] at htokens
  have hrequests : (s.requests.map Packet.cor).count q = 0 := by omega
  have hreplies : (s.replies.map Packet.cor).count q = 0 := by omega
  have hback : ((s.client q.1).addedBack.erase q.2).count q.2 = 0 := by
    rw [List.count_erase_self]
    omega
  have hlost : s.lost.count q = 0 := by omega
  refine ⟨h.callbacks, fun sid => ?_, fun q' => ?_, ?_, fun x hx => ?_⟩
  · by_cases hsid : sid = q.1
    · subst hsid
      simpa [setClient, setPhase] using h.station q.1
    · simpa [setClient, setPhase, Function.update_of_ne hsid] using h.station sid
  · by_cases hq : q' = q
    · subst hq
      refine ⟨?_, fun p hp hcor => ?_, fun p hp hcor => ?_, fun hmem => ?_, fun _ r hr => ?_⟩
      · simp [GetNet.tokens, setClient, setPhase, hrequests, hreplies, hback, hlost]
      · exact absurd hcor (no_packet hrequests hp)
      · exact absurd hcor (no_packet hreplies hp)
      · have hmem' : q'.2 ∈ (s.client q'.1).addedBack.erase q'.2 := by
          simpa [setClient, setPhase] using hmem
        exact absurd hmem' (List.count_eq_zero.mp hback)
      · obtain ⟨-, -, -, r', -, -, hentry, hready, -⟩ := (h.standing q').woken hwoken
        have hr' : (s.client q'.1).replyStation.corReplies[q'.2]? = some r := by
          simpa [setClient, setPhase] using hr
        obtain rfl := Option.some.inj (hentry.symm.trans hr')
        exact hready
    · exact (h.standing q').frame (untouched hq rfl (Function.update_of_ne hq _ _)
        (fun _ _ => rfl) (fun c hc => List.count_erase_of_ne hc) (fun _ _ _ _ _ => rfl)
        (fun _ _ => id) (fun _ _ => id) rfl rfl)
  · intro sid c c' k b k' b' hne hc hc'
    have hold : ∀ {q' : Cor} {x}, Function.update s.phase q none q' = some x →
        s.phase q' = some x := by
      intro q' x hx
      by_cases hq' : q' = q
      · rw [hq', Function.update_self] at hx
        cases hx
      · rwa [Function.update_of_ne hq'] at hx
    exact h.apart sid c c' k b k' b' hne (hold hc) (hold hc')
  · cases List.mem_append.mp hx with
    | inl hold => exact h.returned x hold
    | inr hnew =>
      obtain rfl := List.mem_singleton.mp hnew
      exact hget

theorem Sound.drop (h : s.Sound db home numCors) {cor : Cor} {requests replies : List Packet}
    (hrequests : ∀ p, p ∈ requests → p ∈ s.requests) (hreplies : ∀ p, p ∈ replies → p ∈ s.replies)
    (hcount : ∀ q, (requests.map Packet.cor).count q + (replies.map Packet.cor).count q +
      (if cor = q then 1 else 0) =
        (s.requests.map Packet.cor).count q + (s.replies.map Packet.cor).count q) :
    Sound db home numCors { s with requests := requests
                                   replies := replies
                                   lost := s.lost ++ [cor] } := by
  refine ⟨h.callbacks, h.station, fun q => ?_, h.apart, h.returned⟩
  refine (h.standing q).frame ⟨rfl, rfl, id, fun _ _ _ => rfl, fun p _ => hrequests p,
    fun p _ => hreplies p, ?_, Untouched.connected_of rfl⟩
  have hq := hcount q
  simp only [GetNet.tokens, List.count_append, List.count_singleton, beq_iff_eq]
  omega

variable [ConnectData A]

theorem Sound.step (h : s.Sound db home numCors) {e : GetEvent}
    (hgood : s.Good db home numCors e) (hwent : Went db home s e s') :
    s'.Sound db home numCors := by
  cases hwent with
  | connect a hhome => exact h.connect a hhome
  | get req hphase hasks =>
    obtain ⟨hconnected, hlt, ⟨v, hget⟩, hapart⟩ := hgood
    exact h.get hphase hconnected hlt hget hapart hasks
  | serve srv reply hi hcallbacks hsessions hphase hget hbrings =>
    exact h.serve hi hcallbacks hsessions hphase hget hbrings
  | poll hi hphase hget hexpects => exact h.poll hi hphase hget hexpects
  | resume hphase hwoken hget => exact h.resume hphase hwoken hget
  | dropRequest hi =>
    refine h.drop (fun _ => List.mem_of_mem_eraseIdx) (fun _ => id) (fun q => ?_)
    have hcount := count_eraseIdx hi q
    omega
  | dropReply hi =>
    refine h.drop (fun _ => id) (fun _ => List.mem_of_mem_eraseIdx) (fun q => ?_)
    have hcount := count_eraseIdx hi q
    omega

/-- In a sound state every step that somebody is there for goes through: no ASSERT fails. -/
theorem Sound.went (hV : Plain.size V ≤ 8) (hcors : numCors ≤ 2 ^ 7)
    (h : s.Sound db home numCors) {e : GetEvent} (hgood : s.Good db home numCors e)
    {r : Res (GetNet A V)} (hexec : s.exec db home e = some r) :
    ∃ s', r = .ok s' ∧ Went db home s e s' := by
  cases e with
  | connect sid payload =>
    obtain ⟨a, ha, hhome⟩ := hgood
    simp only [GetNet.exec, RPCCore.addNewSession, ha, need_some, ok_bind, pure_eq_ok,
      Option.some.injEq] at hexec
    exact ⟨_, hexec.symm, .connect a hhome⟩
  | get q key buf =>
    obtain ⟨-, hq, -, -⟩ := hgood
    cases hphase : s.phase q with
    | some x => simp [GetNet.exec, hphase] at hexec
    | none =>
      have hlt : q.2 < (s.client q.1).replyStation.corReplies.length := by
        rw [h.station]
        exact hq
      have hr := List.getElem?_eq_getElem hlt
      have hidle : (s.coroutine q buf).Idle :=
        ⟨by simp only [coroutine]; omega, _, hr, (h.standing q).idle hphase _ hr⟩
      obtain ⟨req, heval, hasks⟩ := evalWRpc_asks (V := V) hidle key
      simp only [GetNet.exec, hphase, heval, ok_bind, pure_eq_ok, Option.some.injEq] at hexec
      exact ⟨_, hexec.symm, .get req hphase hasks⟩
  | serve i rest =>
    cases hi : s.requests[i]? with
    | none => simp [GetNet.exec, hi] at hexec
    | some p =>
      obtain ⟨key, buf, v, hphase, hasks, ⟨a, hsession, hhome⟩, -, hget⟩ :=
        (h.standing p.cor).asked p (List.mem_of_getElem? hi) rfl
      obtain ⟨metaFunc, hcallbacks⟩ := h.callbacks
      obtain ⟨srv, reply, hserve, hcalls, hsessions, hbrings⟩ :=
        serve_ok hV hcallbacks hsession hasks hget rest
      simp only [GetNet.exec, hi, hserve, hhome, ok_bind, pure_eq_ok, Option.some.injEq] at hexec
      exact ⟨_, hexec.symm, .serve srv reply hi hcalls hsessions hphase hget hbrings⟩
  | poll i rest =>
    cases hi : s.replies[i]? with
    | none => simp [GetNet.exec, hi] at hexec
    | some p =>
      obtain ⟨key, buf, v, hphase, hbrings, hexpects, hget⟩ :=
        (h.standing p.cor).answered p (List.mem_of_getElem? hi) rfl
      simp only [GetNet.exec, hi, poll_brings hbrings hexpects p.cor.1 rest, ok_bind, pure_eq_ok,
        Option.some.injEq] at hexec
      exact ⟨_, hexec.symm, .poll hi hphase hget hexpects⟩
  | resume q =>
    cases hphase : s.phase q with
    | none => simp [GetNet.exec, hphase] at hexec
    | some x =>
      obtain ⟨key, buf⟩ := x
      simp only [GetNet.exec, hphase, Option.ite_none_right_eq_some, Option.some.injEq] at hexec
      obtain ⟨hwoken, hr⟩ := hexec
      obtain ⟨key', buf', v, -, hphase', hslice, -, -, hget⟩ := (h.standing q).woken hwoken
      obtain ⟨rfl, rfl⟩ := Prod.mk.inj (Option.some.inj (hphase.symm.trans hphase'))
      have hvalue : (evalWRpcResult (s.coroutine q buf) (s.client q.1) : V) = v := by
        rw [evalWRpcResult]
        change Plain.ofBytes (slice (s.client q.1).mem buf (Plain.size V)) = v
        rw [hslice, Plain.ofBytes_toBytes]
      rw [hvalue] at hr
      exact ⟨_, hr.symm, .resume hphase hwoken hget⟩
  | dropRequest i =>
    cases hi : s.requests[i]? with
    | none => simp [GetNet.exec, hi] at hexec
    | some p =>
      simp only [GetNet.exec, hi, pure_eq_ok, Option.some.injEq] at hexec
      exact ⟨_, hexec.symm, .dropRequest hi⟩
  | dropReply i =>
    cases hi : s.replies[i]? with
    | none => simp [GetNet.exec, hi] at hexec
    | some p =>
      simp only [GetNet.exec, hi, pure_eq_ok, Option.some.injEq] at hexec
      exact ⟨_, hexec.symm, .dropReply hi⟩

end XStore.Ycsb.GetNet
