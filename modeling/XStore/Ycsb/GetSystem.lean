import XStore.Lib.Runs
import XStore.Ycsb.GetStep

/-! The runs: any number of clients, with many coroutines each. -/
namespace XStore.Ycsb.GetNet
open XStore.Lib XStore.Xkv XStore.Xcache XStore.Xcomm
variable {A V : Type} [Plain V] {db : Store kNPageKey XKey V} {home : A → UInt32} {numCors : ℕ}
  {s s' : GetNet A V}

theorem Went.record {e : GetEvent} (hwent : Went db home s e s') (q : Cor) :
    s'.keysReturned q ++ ((s'.phase q).map Prod.fst).toList =
      s.keysReturned q ++ ((s.phase q).map Prod.fst).toList ++ (e.key q).toList := by
  cases hwent with
  | connect a hhome => simp [GetEvent.key, keysReturned]
  | @get q₀ key buf req hphase hasks =>
    by_cases hq : q₀ = q
    · subst hq
      simp [GetEvent.key, keysReturned, setPhase, setClient, hphase]
    · simp [GetEvent.key, keysReturned, setPhase, setClient, hq,
        Function.update_of_ne (Ne.symm hq)]
  | serve srv reply hi hcallbacks hsessions hphase hget hbrings =>
    simp [GetEvent.key, keysReturned]
  | poll hi hphase hget hexpects => simp [GetEvent.key, keysReturned, setClient]
  | @resume q₀ key buf v hphase hwoken hget =>
    by_cases hq : q₀ = q
    · subst hq
      simp [GetEvent.key, keysReturned, setPhase, setClient, hphase]
    · simp [GetEvent.key, keysReturned, setPhase, setClient, hq,
        Function.update_of_ne (Ne.symm hq)]
  | dropRequest hi => simp [GetEvent.key, keysReturned]
  | dropReply hi => simp [GetEvent.key, keysReturned]

variable [ConnectData A]

/-- A run of `Good` events keeps the invariant, and each coroutine has got values for the keys that
it asked for, in turn, but for the one that it waits for. -/
theorem Sound.run (hV : Plain.size V ≤ 8) (hcors : numCors ≤ 2 ^ 7) {es : List GetEvent}
    (h : s.Sound db home numCors) (hrun : Lib.run (GetNet.step db home) es s = some s')
    (hgood : AllSteps (GetNet.step db home) (Good db home numCors) es s) :
    s'.Sound db home numCors ∧ ∀ q, s'.keysReturned q ++ ((s'.phase q).map Prod.fst).toList =
      s.keysReturned q ++ ((s.phase q).map Prod.fst).toList ++ es.filterMap (GetEvent.key q) := by
  induction es generalizing s with
  | nil =>
    obtain rfl := Option.some.inj hrun
    exact ⟨h, fun q => by simp⟩
  | cons e es ih =>
    obtain ⟨s₁, hstep, hrest⟩ := Option.bind_eq_some_iff.mp hrun
    obtain ⟨r, hexec, hr⟩ := Option.bind_eq_some_iff.mp hstep
    obtain ⟨s₂, rfl, hwent⟩ := h.went hV hcors hgood.1 hexec
    obtain rfl := Option.some.inj hr
    obtain ⟨hsound, hkeys⟩ := ih (h.step hgood.1 hwent) hrest (hgood.2 s₂ hstep)
    refine ⟨hsound, fun q => ?_⟩
    rw [hkeys q, hwent.record q, List.filterMap_cons]
    cases e.key q <;> simp

/-- Clients get values by RPC through a network that reorders and loses messages. In every state of
a run no ASSERT fails, and each value that was returned is the one in the store. A coroutine that
waits has exactly one request, reply, wake-up or record of a loss, and one that does not has none.
The keys that it asked for are those that it got values for, in turn, and the one it waits for. -/
theorem get_system (hV : Plain.size V ≤ 8) (hcors : numCors ≤ 2 ^ 7) {metaFunc : Callback A}
    {mem : UInt32 → ℕ → Byte} {es : List GetEvent}
    (hrun : Lib.run (GetNet.step db home) es (init metaFunc db numCors mem) = some s)
    (hgood : AllSteps (GetNet.step db home) (Good db home numCors) es
      (init metaFunc db numCors mem)) :
    (∀ e r, s.Good db home numCors e → s.exec db home e = some r → ∃ s', r = .ok s') ∧
      (∀ x ∈ s.returned, db.tree.get db.mem x.2.1 = .ok (some x.2.2)) ∧
      (∀ q, s.tokens q = if (s.phase q).isSome then 1 else 0) ∧
      ∀ q, es.filterMap (GetEvent.key q) =
        s.keysReturned q ++ ((s.phase q).map Prod.fst).toList := by
  obtain ⟨hsound, hkeys⟩ := (Sound.init metaFunc db home numCors mem).run hV hcors hrun hgood
  refine ⟨fun e r hgood hexec => ?_, hsound.returned, fun q => (hsound.standing q).tokens,
    fun q => ?_⟩
  · obtain ⟨s', hs', -⟩ := hsound.went hV hcors hgood hexec
    exact ⟨s', hs'⟩
  · rw [hkeys q]
    rfl

def oneLeafStore : Store kNPageKey XKey XKey where
  addr p := 512 * p
  mem _ := strayNode
  tree := ⟨0, some (.leaf 0)⟩

def twoGets : List GetEvent :=
  [.connect 7 [7], .connect 9 [9], .get (7, 0) 1 16, .get (9, 0) 1 16, .serve 1 [], .serve 0 [0],
    .poll 0 [5], .dropReply 0, .resume (9, 0)]

theorem get_system_two :
    letI : ConnectData (List Byte) := ⟨fun payload => some payload⟩
    let home : List Byte → UInt32 := fun bs => bs.foldl (fun n b => 256 * n + .ofNat b.val) 0
    let db := oneLeafStore
    ∃ s : GetNet (List Byte) XKey, Lib.run (GetNet.step db home) twoGets
      (init (fun _ _ => true) db 1 fun _ _ => 0) = some s ∧
      (∀ e r, s.Good db home 1 e → s.exec db home e = some r → ∃ s', r = .ok s') ∧
      (∀ x ∈ s.returned, db.tree.get db.mem x.2.1 = .ok (some x.2.2)) ∧
      (∀ q, s.tokens q = if (s.phase q).isSome then 1 else 0) ∧
      ∀ q, twoGets.filterMap (GetEvent.key q) =
        s.keysReturned q ++ ((s.phase q).map Prod.fst).toList := by
  let : ConnectData (List Byte) := ⟨fun payload => some payload⟩
  intro home db
  obtain ⟨s, hrun⟩ : ∃ s : GetNet (List Byte) XKey, Lib.run (GetNet.step db home) twoGets
      (init (fun _ _ => true) db 1 fun _ _ => 0) = some s :=
    Option.isSome_iff_exists.mp (by decide +kernel)
  have h7 : home [7] = 7 := by decide +kernel
  have h9 : home [9] = 9 := by decide +kernel
  have hget : ∃ v, db.tree.get db.mem (1 : XKey) = .ok (some v) := ⟨99, by decide +kernel⟩
  refine ⟨s, hrun, get_system (by decide) (by decide) hrun ?_⟩
  refine ⟨⟨[7], rfl, h7⟩, fun s₁ h₁ => ⟨⟨[9], rfl, h9⟩, fun s₂ h₂ => ?_⟩⟩
  obtain rfl := Option.some.inj h₁
  obtain rfl := Option.some.inj h₂
  have hsound :=
    ((Sound.init (fun _ _ => true) db home 1 fun _ _ => 0).connect [7] h7).connect [9] h9
  refine (fun hgood => ⟨hgood, fun s₃ h₃ => ?_⟩) ⟨⟨[7], rfl, h7⟩, Nat.one_pos, hget,
    fun _ _ _ h => absurd h (by simp [init])⟩
  obtain ⟨r, hexec, hr⟩ := Option.bind_eq_some_iff.mp h₃
  obtain ⟨s', rfl, hwent⟩ := hsound.went (by decide) (by decide) hgood hexec
  obtain rfl := Option.some.inj hr
  cases hwent with
  | get req hphase hasks =>
    refine ⟨⟨⟨[9], rfl, h9⟩, Nat.one_pos, hget, fun c _ _ h => ?_⟩, fun _ _ => ⟨trivial,
      fun _ _ => ⟨trivial, fun _ _ => ⟨trivial, fun _ _ => ⟨trivial, fun _ _ => ⟨trivial,
      fun _ _ => trivial⟩⟩⟩⟩⟩⟩
    have hne : ((9 : UInt32), c) ≠ (7, 0) := by simp
    have hnone := (Function.update_of_ne hne (some ((1 : XKey), 16)) fun _ => none).symm.trans h
    cases hnone

end XStore.Ycsb.GetNet
