import XStore.Xkv.CXTreeRuns

/-! Keys that are inserted once. However the threads run, no ASSERT of an insert fails; the one of a
get does in a tree that holds nothing. -/
namespace XStore.Xkv
open XStore.Lib XStore.Xutils
variable {T I : Type} {N : ℕ} {K V : Type}

def InsertEvent.key : InsertEvent T I K V → Option (I × K)
  | .call _ tree k _ => some (tree, k)
  | _ => none

def TreeEvent.insertKey : TreeEvent T N K V → Option K
  | .call _ (.insert k _) => some k
  | _ => none

theorem Shared.Stepped.issued [DecidableEq T] [DecidableEq I] [KeyType K] [Inhabited V] [StdSort]
    {s s' : Shared T I N K V} {e : InsertEvent T I K V} (h : Stepped s e s') :
    s'.issued = e.key.toList ++ s.issued := by
  cases h <;> rfl

namespace CXTree

theorem insertEvent_key (s : CXTree T N K V) (e : TreeEvent T N K V) :
    (s.insertEvent e).bind InsertEvent.key = e.insertKey.map fun k => ((), k) := by
  cases e with
  | call t call => cases call <;> rfl
  | leave t =>
    simp only [insertEvent]
    split <;> rfl
  | _ => rfl

section Distinct
variable [LinearOrder K] [BoundedOrder K] [Inhabited V] [DecidableEq V] [StdSort] [DecidableEq T]
  {m₀ : TreeCell T → TreeWord T N K V} {es : List (TreeEvent T N K V)} {e : TreeEvent T N K V}
  {s s' : CXTree T N K V} {a a' : Shared T Unit N K V}

omit [DecidableEq V] in
theorem Follows.step_distinct (hN : 2 ≤ N) (h : Follows m₀ s a) (hd : a.Distinct)
    (hrun : run Shared.step (s.insertEvent e).toList a = some a') :
    a'.issued = (e.insertKey.map fun k => ((), k)).toList ++ a.issued ∧
      (a'.issued.Nodup → a'.Distinct) := by
  obtain ⟨_, _, hR, _⟩ := h
  rw [← s.insertEvent_key]
  cases hsee : s.insertEvent e with
  | none =>
    rw [hsee] at hrun
    obtain rfl := Option.some.inj hrun
    exact ⟨rfl, fun _ => hd⟩
  | some e' =>
    rw [hsee] at hrun
    have hstep : a.step e' = some a' := by simpa [run] using hrun
    have hstepped := hR.owned.prepared.step hstep
    exact ⟨hstepped.issued, fun hnodup => hd.step hN hR.owned hstepped hnodup⟩

/-- A run of calls for different keys, none of which was called for before. -/
theorem Follows.run_distinct (hN : 2 ≤ N) (h : Follows m₀ s a) (hd : a.Distinct)
    (hrun : run CXTree.step es s = some s') (hkeys : ∀ e ∈ es, e.Valid)
    (hnodup : (es.filterMap TreeEvent.insertKey).Nodup) (hissued : a.issued.Nodup)
    (hnew : ∀ k ∈ es.filterMap TreeEvent.insertKey, ((), k) ∉ a.issued) :
    ∃ a', Follows m₀ s' a' ∧ a'.Distinct := by
  induction es generalizing s a with
  | nil =>
    obtain rfl := Option.some.inj hrun
    exact ⟨a, h, hd⟩
  | cons e es ih =>
    obtain ⟨s₁, hs₁, hrest⟩ := Option.bind_eq_some_iff.mp hrun
    obtain ⟨a₁, ha₁, h₁⟩ := h.step hN (hkeys e List.mem_cons_self) hs₁
    obtain ⟨hissued₁, hd₁⟩ := h.step_distinct hN hd ha₁
    have hkeys₁ : ∀ e ∈ es, e.Valid := fun e he => hkeys e (List.mem_cons_of_mem _ he)
    cases hkey : e.insertKey with
    | none =>
      rw [hkey] at hissued₁
      rw [List.filterMap_cons_none hkey] at hnodup hnew
      rw [show a₁.issued = a.issued from hissued₁] at hd₁
      refine ih h₁ (hd₁ hissued) hrest hkeys₁ hnodup ?_ ?_
      · rwa [show a₁.issued = a.issued from hissued₁]
      · rwa [show a₁.issued = a.issued from hissued₁]
    | some k =>
      rw [hkey] at hissued₁
      rw [List.filterMap_cons_some hkey] at hnodup hnew
      obtain ⟨hout, hnodup₁⟩ := List.nodup_cons.mp hnodup
      have hcons : a₁.issued = ((), k) :: a.issued := hissued₁
      have hissued' : a₁.issued.Nodup := by
        rw [hcons]
        exact List.nodup_cons.mpr ⟨hnew k List.mem_cons_self, hissued⟩
      refine ih h₁ (hd₁ hissued') hrest hkeys₁ hnodup₁ hissued' fun k' hk' hin => ?_
      rw [hcons] at hin
      rcases List.mem_cons.mp hin with heq | hin
      · obtain rfl : k' = k := (Prod.mk.inj heq).2
        exact hout hk'
      · exact hnew k' (List.mem_cons_of_mem _ hk') hin

/-- Inserts of different keys, in any threads and any interleaving: whatever stops a thread that has
the lock, it is a get in a tree that holds nothing. -/
theorem cxtree_asserts (hN : 2 ≤ N) {m : Mem N K V} {inner : InnerPtr T → TreeInner K (NodePtr T)}
    (hrun : run CXTree.step es (.init m inner) = some s) (hkeys : ∀ e ∈ es, e.Valid)
    (hdistinct : (es.filterMap TreeEvent.insertKey).Nodup) {t : T} {rtm : Option RTMScope}
    {body : Prog (TreeCell T) (TreeWord T N K V) (Res (TreeRet V))} {f : Fault}
    (hstopped : s.rtm.phase t = .inPlace rtm body (.ret (.error f))) :
    (∃ k, s.phase t = .scope (.get k)) ∧ f = .assert .leafNotNull ∧ entries s.log = 0 := by
  obtain ⟨a, ⟨h, holder, hR, hB, hS⟩, hd⟩ := (Follows.init m inner).run_distinct hN (.init m) hrun
    hkeys hdistinct List.nodup_nil (fun _ _ hin => by cases hin)
  have hbody := hB t
  rw [hstopped] at hbody
  obtain ⟨call, hcall, rfl⟩ := Option.map_eq_some_iff.mp hbody.symm
  have hphase : s.phase t = .scope call := by
    cases hp : s.phase t with
    | scope c =>
      rw [hp] at hcall
      exact congrArg CallPhase.scope (Option.some.inj hcall)
    | _ =>
      rw [hp] at hcall
      cases hcall
  -- the body failed alone, so the call fails on the tree
  have hsim := Heap.scope_sim (P := fun _ => True) (t := t) (c := s.preAllocLeafNode t)
    call (fun _ _ => trivial) hR.nodes (fun _ _ => trivial)
  have hfailed : Code.run (PtrTree.scope t (s.preAllocLeafNode t) call) h.cells =
      (.error f, s.rtm.mem) := hS.releases hstopped
  have herror : call.act h.leaf h.tree (s.preAllocLeafNode t) = .error f := by
    cases hact : call.act h.leaf h.tree (s.preAllocLeafNode t) with
    | ok b =>
      obtain ⟨r, h', hr, -⟩ := hsim.ok b hact
      cases hr.symm.trans hfailed
    | error e =>
      have he := hsim.error e hact
      rw [hfailed] at he
      exact congrArg Except.error (Except.error.inj he).symm
  cases call with
  | insert k v =>
    have hphase' : a.phase t = .ready () k v := by rw [hR.phase t, hphase]; rfl
    obtain ⟨c, hpre⟩ := hR.owned.prepared t (by rw [hphase']; rfl)
    obtain ⟨res, hres, -⟩ := hd.insertCore hN hR.owned hphase' hpre
    rw [hR.tree, hR.leaf, ← hpre, hR.held] at hres
    rw [TreeCall.act, hres] at herror
    cases herror
  | get k =>
    have hkey : k ≠ ⊤ := hR.valid t (.get k) (by rw [hphase]; rfl)
    have hstands := hd.stands ()
    rw [hR.leaf, hR.tree, hR.inserted] at hstands
    cases hstands with
    | inl hnew =>
      obtain ⟨htree, hempty⟩ := hnew
      rw [htree] at herror
      exact ⟨⟨k, hphase⟩, (Except.error.inj herror).symm, hempty⟩
    | inr hroot =>
      obtain ⟨root, hroot, hinv⟩ := hroot
      have htree : h.tree = ⟨h.tree.depth, some root⟩ := by rw [← hroot]
      obtain ⟨hfound, hmissing⟩ := hinv.get hN hkey
      rw [← htree] at hfound hmissing
      rw [TreeCall.act] at herror
      by_cases hin : k ∈ (entries s.log).map Prod.fst
      · obtain ⟨⟨k, v⟩, hv, rfl⟩ := Multiset.mem_map.mp hin
        rw [hfound v hv] at herror
        cases herror
      · rw [hmissing hin] at herror
        cases herror

end Distinct

def hasty : List (TreeEvent Bool 2 XKey ℕ) :=
  [.call false (.insert 3 30), .initPreAllocedLeaf false, .enter false, .call true (.get 3),
    .enter true, .scope (.xbegin true), .scope (.abort true 0), .scope (.xchg true),
    .scope (.access true), .scope (.access true)]

theorem cxtree_asserts_get :
    letI := insertionStdSort
    ∃ s rtm body f, run CXTree.step hasty (.init (fun _ => XNode.new) fun _ => .new) = some s ∧
      s.rtm.phase true = .inPlace rtm body (.ret (.error f)) ∧
      (∃ k, s.phase true = .scope (.get k)) ∧ f = .assert .leafNotNull ∧ entries s.log = 0 := by
  let : StdSort := insertionStdSort
  have hvalid : ∀ e ∈ hasty, e.Valid := by
    simp [hasty, TreeEvent.Valid, TreeCall.key]
    decide
  exact ⟨_, _, _, _, rfl, rfl, cxtree_asserts (le_refl 2) rfl hvalid (by decide) rfl⟩

end CXTree
end XStore.Xkv
