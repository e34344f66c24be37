import XStore.Xkv.CXTree

/-! Every run of `CXTree` is one in which a get and an insert are one step each, at the moment when
the thread leaves its scope. -/
namespace XStore.Xkv
open XStore.Lib XStore.Xutils
variable {T I : Type} {N : ℕ} {K V : Type}

section Shared
variable [DecidableEq T] [DecidableEq I] [KeyType K] [Inhabited V] [StdSort]

theorem Shared.Stepped.step {s s' : Shared T I N K V} {e : InsertEvent T I K V}
    (h : Stepped s e s') : s.step e = some s' := by
  cases h with
  | called hidle => simp [Shared.step, exec, hidle]
  | @held t tree k v c hphase hpre =>
    have hself : Function.update s.preAllocLeafNode t (some c) = s.preAllocLeafNode := by
      rw [← hpre, Function.update_eq_self]
    simp [Shared.step, exec, hphase, hpre, view, put, goto, hself]
  | drawn hphase hpre =>
    simp [Shared.step, exec, hphase, hpre, view, put, goto, draw, World.initPreAllocedLeaf,
      AllocTrait.alloc]
  | @done t tree k v c res hphase hpre hres =>
    have hself : Function.update s.preAllocLeafNode t (some c) = s.preAllocLeafNode := by
      rw [← hpre, Function.update_eq_self]
    simp [Shared.step, exec, hphase, hpre, hres, view, put, goto, after, hself]
  | kept hphase => simp [Shared.step, exec, hphase, view, put, goto]
  | replaced hphase hpre =>
    simp [Shared.step, exec, hphase, hpre, view, put, goto, draw, World.takePreAllocedLeaf,
      World.initPreAllocedLeaf, AllocTrait.alloc]

end Shared

/-- The answer to a lookup among entries: a value that stands with the key, or none if there is
none. -/
def Answers (ops : Multiset (K × V)) (k : K) : Option V → Prop
  | some v => (k, v) ∈ ops
  | none => k ∉ ops.map Prod.fst

section Answers
variable [LinearOrder K] [BoundedOrder K] {m : Mem N K V} {x : XTree K} {ops : Multiset (K × V)}
  {k : K} {v : Option V}

theorem Keeps.answers (hN : 2 ≤ N) (h : Keeps m x ops) (hkey : k ≠ ⊤) (hget : x.get m k = .ok v) :
    Answers ops k v := by
  cases h.1 with
  | inl hnew =>
    rw [hnew.1] at hget
    simp [XTree.get, XTree.findLeaf, XTree.new] at hget
  | inr hroot =>
    obtain ⟨root, hroot, hinv⟩ := hroot
    obtain ⟨R⟩ := hinv.shape.route hN Bound.le_ne_top (Cell.fences _) bot_le
      (lt_top_iff_ne_top.mpr hkey)
    have hleaf : x.findLeaf k = .ok (some R.leaf) := by
      simp [XTree.findLeaf, hroot, R.found]
    obtain ⟨hsome, -⟩ := search_entries (m R.leaf) k hkey
    cases v with
    | none =>
      intro hin
      obtain ⟨⟨k, u⟩, hu, rfl⟩ := Multiset.mem_map.mp hin
      obtain ⟨w, hw, -⟩ := h.get hN hu
      rw [hget] at hw
      cases hw
    | some v =>
      simp only [XTree.get, hleaf, ok_bind, need_some, XNode.getValueRaw, pure_eq_ok] at hget
      split at hget
      next i hi =>
        obtain rfl := Option.some.inj (Except.ok.inj hget)
        exact hinv.mem_entries R.mem_leaf (hsome i hi)
      next => cases hget

end Answers

namespace CXTree

def entries (log : List (T × TreeCall K V × TreeRet V)) : Multiset (K × V) :=
  (log.filterMap fun x => x.2.1.entry : List (K × V))

/-- Every get returned what stood there for its key after the inserts before it. -/
def Legal (log : List (T × TreeCall K V × TreeRet V)) : Prop :=
  ∀ before t k v after, log = before ++ (t, .get k, .got v) :: after → Answers (entries before) k v

section Log
variable {log : List (T × TreeCall K V × TreeRet V)} {t : T} {call : TreeCall K V} {r : TreeRet V}

theorem entries_get {k : K} : entries (log ++ [(t, .get k, r)]) = entries log := by
  simp [entries, TreeCall.entry]

theorem entries_insert {k : K} {v : V} :
    entries (log ++ [(t, .insert k v, r)]) = (k, v) ::ₘ entries log := by
  simp only [entries, List.filterMap_append]
  exact Multiset.coe_eq_coe.mpr (List.perm_append_singleton _ _)

theorem Legal.snoc (h : Legal log)
    (hlast : ∀ k v, call = .get k → r = .got v → Answers (entries log) k v) :
    Legal (log ++ [(t, call, r)]) := by
  intro before u k v after heq
  rcases List.eq_nil_or_concat after with rfl | ⟨after, z, rfl⟩
  · obtain ⟨rfl, hx⟩ := List.append_inj' heq rfl
    cases hx
    exact hlast k v rfl rfl
  · rw [List.concat_eq_append, ← List.cons_append, ← List.append_assoc] at heq
    exact h before u k v after (List.append_inj' heq rfl).1

end Log
end CXTree

/-- What a call does in its scope to the tree that the memory stands for. -/
def TreeCall.act [KeyType K] [StdSort] (m : Mem N K V) (x : XTree K) (newLeaf : Option Ptr) :
    TreeCall K V → Res (Mem N K V × XTree K × TreeRet V)
  | .get k => do
    let v ← x.get m k
    pure (m, x, .got v)
  | .insert k v => do
    let (m, x, ret) ← x.insertCore m k v newLeaf
    pure (m, x, .inserted ret)

namespace Heap

structure Served [KeyType K] (b : Mem N K V × XTree K × TreeRet V) (r : TreeRet V)
    (h : Heap T N K V) : Prop where
  leaf : h.leaf = b.1
  tree : h.tree = b.2.1
  ret : r = b.2.2
  owned : h.Owned

section Scope
variable [LinearOrder K] [BoundedOrder K] [DecidableEq T] [StdSort] {P : Ptr → Prop}
  {h : Heap T N K V} {t : T} {c : Option Ptr}

theorem scope_sim (call : TreeCall K V) (hcand : ∀ p, c = some p → P p) (hown : h.Owned)
    (hP : ∀ p ∈ h.tree.leaves, P p) :
    Sim P (PtrTree.scope t c call) h (call.act h.leaf h.tree c) Served := by
  cases call with
  | get k =>
    refine (get_sim hP).bind ?_
    rintro v _ h ⟨rfl, rfl⟩
    exact .pure ⟨rfl, rfl, rfl, hown⟩
  | insert k v =>
    refine (insertCore_sim hcand hown hP).bind ?_
    rintro ⟨m, x, ret⟩ _ h' hgrew
    exact .pure ⟨hgrew.leaf, hgrew.tree, congrArg TreeRet.inserted hgrew.ret, hgrew.owned⟩

end Scope

section NewLeaf
variable [KeyType K] (h : Heap T N K V) (m : Mem N K V)

@[simp] theorem setLeaf_tree : (h.setLeaf m).tree = h.tree :=
  congrArg (fun f => XTree.mk h.depth (h.root.map f)) (funext (h.setLeaf_denote m h.depth))

omit [KeyType K] in
theorem Owned.setLeaf (hown : h.Owned) : (h.setLeaf m).Owned := by
  have hnodes : (h.setLeaf m).treeNodes = h.treeNodes :=
    congrArg (fun f => h.root.elim 0 f) (funext (h.setLeaf_nodes m h.depth))
  rw [Owned, hnodes]
  exact ⟨hown.nodup, hown.allocated⟩

omit [KeyType K] in
theorem setLeaf_cells [DecidableEq T] (p : Ptr) (n : XNode N K V) :
    (h.setLeaf (Function.update h.leaf p n)).cells =
      Function.update h.cells (.leaf p) (.leaf n) := by
  funext l
  cases l with
  | leaf q => by_cases heq : q = p <;> simp [cells, setLeaf, heq]
  | _ => simp [cells, setLeaf]

end NewLeaf
end Heap

namespace CXTree

def insertEvent (s : CXTree T N K V) : TreeEvent T N K V → Option (InsertEvent T Unit K V)
  | .call t (.insert k v) => some (.call t () k v)
  | .initPreAllocedLeaf t => some (.initPreAllocedLeaf t)
  | .leave t =>
    match s.phase t with
    | .scope (.insert _ _) => some (.insertCore t)
    | _ => none
  | .takePreAllocedLeaf t => some (.takePreAllocedLeaf t)
  | _ => none

section Bodies
variable [KeyType K] [StdSort] {s : CXTree T N K V} {t : T} {phase : CallPhase K V}
  {rtm : Rtm T (TreeCell T) (TreeWord T N K V) (Res (TreeRet V))}

def Bodies (s : CXTree T N K V) : Prop :=
  ∀ t, (s.rtm.phase t).body = (s.phase t).inScope.map (PtrTree.scope t (s.preAllocLeafNode t))

variable [DecidableEq T]

theorem Bodies.goto (h : Bodies s) (hold : (s.phase t).inScope = none)
    (hnew : phase.inScope = none) : Bodies (s.goto t phase) := by
  intro u
  by_cases heq : u = t
  · subst heq
    rw [goto_self, hnew, ← hold]
    exact h u
  · rw [goto_other heq]
    exact h u

theorem Bodies.drew (h : Bodies s) (hold : (s.phase t).inScope = none)
    (hrtm : rtm.phase = s.rtm.phase) : Bodies (s.drew t rtm) := by
  intro u
  by_cases heq : u = t
  · subst heq
    change (rtm.phase u).body = (s.phase u).inScope.map _
    rw [hrtm, h u, hold]
    rfl
  · have hpre : (s.drew t rtm).preAllocLeafNode u = s.preAllocLeafNode u :=
      Function.update_of_ne heq _ _
    change (rtm.phase u).body = (s.phase u).inScope.map _
    rw [hpre, hrtm]
    exact h u

theorem Bodies.set (h : Bodies s)
    {new : ScopePhase (TreeCell T) (TreeWord T N K V) (Res (TreeRet V))}
    (hrtm : rtm.phase = Function.update s.rtm.phase t new)
    (hnew : new.body = phase.inScope.map (PtrTree.scope t (s.preAllocLeafNode t)))
    (log : List (T × TreeCall K V × TreeRet V)) :
    Bodies { s.goto t phase with rtm := rtm, log := log } := by
  intro u
  change (rtm.phase u).body = ((s.goto t phase).phase u).inScope.map _
  rw [hrtm]
  by_cases heq : u = t
  · subst heq
    rw [goto_self, Function.update_self, hnew]
    rfl
  · rw [goto_other heq, Function.update_of_ne heq]
    exact h u

end Bodies

section Refines
variable [LinearOrder K] [BoundedOrder K] [Inhabited V]

/-- The tree that stands in `h`, the threads and their leaves are those of `a`, where the scope of
an insert is one step. -/
structure Refines (h : Heap T N K V) (s : CXTree T N K V) (a : Shared T Unit N K V) : Prop where
  leaf : a.mem = h.leaf
  tree : a.trees () = h.tree
  alloc : a.alloc = s.alloc
  held : a.preAllocLeafNode = s.preAllocLeafNode
  phase : ∀ t, a.phase t = (s.phase t).insert
  inserted : a.inserted () = entries s.log
  nodes : h.Owned
  owned : a.Owned
  valid : ∀ t call, (s.phase t).pending = some call → call.key ≠ ⊤
  legal : Legal s.log

variable [DecidableEq T] {h : Heap T N K V} {s : CXTree T N K V} {a a' : Shared T Unit N K V}
  {t : T} {phase : CallPhase K V}
  {rtm : Rtm T (TreeCell T) (TreeWord T N K V) (Res (TreeRet V))}

theorem Refines.insert_goto (hR : Refines h s a) {phases : T → Phase Unit K V}
    (hphases : phases = Function.update a.phase t phase.insert) (u : T) :
    phases u = ((s.goto t phase).phase u).insert := by
  rw [hphases]
  by_cases heq : u = t
  · subst heq
    rw [goto_self, Function.update_self]
  · rw [goto_other heq, Function.update_of_ne heq, hR.phase u]

theorem Refines.pending_goto (hR : Refines h s a)
    (hvalid : ∀ call, phase.pending = some call → call.key ≠ ⊤) (u : T) (call : TreeCall K V)
    (hcall : ((s.goto t phase).phase u).pending = some call) : call.key ≠ ⊤ := by
  by_cases heq : u = t
  · subst heq
    rw [goto_self] at hcall
    exact hvalid call hcall
  · rw [goto_other heq] at hcall
    exact hR.valid u call hcall

theorem Refines.goto (hR : Refines h s a) (hmem : a'.mem = a.mem) (htrees : a'.trees = a.trees)
    (halloc : a'.alloc = a.alloc) (hheld : a'.preAllocLeafNode = a.preAllocLeafNode)
    (hinserted : a'.inserted = a.inserted)
    (hphase : a'.phase = Function.update a.phase t phase.insert) (hown : a'.Owned)
    (hvalid : ∀ call, phase.pending = some call → call.key ≠ ⊤) :
    Refines h (s.goto t phase) a' where
  leaf := hmem.trans hR.leaf
  tree := (congrFun htrees ()).trans hR.tree
  alloc := halloc.trans hR.alloc
  held := hheld.trans hR.held
  phase := hR.insert_goto hphase
  inserted := (congrFun hinserted ()).trans hR.inserted
  nodes := hR.nodes
  owned := hown
  valid := hR.pending_goto hvalid
  legal := hR.legal

omit [DecidableEq T] in
theorem Refines.within (hR : Refines h s a)
    (rtm : Rtm T (TreeCell T) (TreeWord T N K V) (Res (TreeRet V))) :
    Refines h { s with rtm := rtm } a :=
  ⟨hR.leaf, hR.tree, hR.alloc, hR.held, hR.phase, hR.inserted, hR.nodes, hR.owned, hR.valid,
    hR.legal⟩

theorem Refines.drew (hR : Refines h s a) :
    Refines (h.setLeaf (Function.update h.leaf s.alloc.allocated .new)) (s.drew t rtm)
      (a.draw t) where
  leaf := by
    rw [← hR.leaf, ← hR.alloc]
    rfl
  tree := by
    rw [Heap.setLeaf_tree]
    exact hR.tree
  alloc := by
    change TrivalAlloc.mk (a.alloc.allocated + 1) = ⟨s.alloc.allocated + 1⟩
    rw [hR.alloc]
  held := by
    change Function.update a.preAllocLeafNode t (some a.alloc.allocated) = _
    rw [hR.held, hR.alloc]
    rfl
  phase := hR.phase
  inserted := hR.inserted
  nodes := Heap.Owned.setLeaf h _ hR.nodes
  owned := hR.owned.draw t
  valid := hR.valid
  legal := hR.legal

theorem Refines.got (hN : 2 ≤ N) (hR : Refines h s a) {k : K} {v : Option V} {h' : Heap T N K V}
    (hphase : s.phase t = .scope (.get k)) (hget : h.tree.get h.leaf k = .ok v)
    (hleaf : h'.leaf = h.leaf) (htree : h'.tree = h.tree) (hnodes : h'.Owned) :
    Refines h' { s.goto t .idle with rtm := rtm, log := s.log ++ [(t, .get k, .got v)] } a := by
  have hkey : k ≠ ⊤ := hR.valid t (.get k) (by rw [hphase]; rfl)
  have hanswers : Answers (entries s.log) k v := by
    have hkeeps := hR.owned.keeps ()
    rw [hR.leaf, hR.tree, hR.inserted] at hkeeps
    exact hkeeps.answers hN hkey hget
  have hidle : a.phase = Function.update a.phase t .idle := by
    have hinsert : (s.phase t).insert = .idle := by rw [hphase]; rfl
    rw [← hinsert, ← hR.phase t, Function.update_eq_self]
  refine ⟨hR.leaf.trans hleaf.symm, hR.tree.trans htree.symm, hR.alloc, hR.held,
    hR.insert_goto hidle, hR.inserted.trans entries_get.symm, hnodes, hR.owned,
    hR.pending_goto (fun _ hcall => by cases hcall), hR.legal.snoc fun k' v' hk hv => ?_⟩
  cases hk
  cases hv
  exact hanswers

theorem Refines.inserts (hR : Refines h s a) {k : K} {v : V}
    {res : Mem N K V × XTree K × Bool} {h' : Heap T N K V}
    (hleaf : h'.leaf = res.1) (htree : h'.tree = res.2.1) (hnodes : h'.Owned)
    (hown : (a.after t () k v res).Owned) :
    Refines h' { s.goto t (.inserted res.2.2) with
      rtm := rtm
      log := s.log ++ [(t, .insert k v, .inserted res.2.2)] } (a.after t () k v res) := by
  refine ⟨hleaf.symm, ?_, hR.alloc, hR.held, hR.insert_goto rfl, ?_, hnodes, hown,
    hR.pending_goto (fun _ hcall => by cases hcall), hR.legal.snoc fun k' v' hk hv => ?_⟩
  · change Function.update a.trees () res.2.1 () = h'.tree
    rw [Function.update_self, htree]
  · change Function.update a.inserted () ((k, v) ::ₘ a.inserted ()) () = entries _
    rw [Function.update_self, hR.inserted]
    exact entries_insert.symm
  · cases hk

variable [StdSort]

/-- The allocator's next leaf is none that a thread with the lock accesses. -/
theorem Refines.apart (hR : Refines h s a) (hB : Bodies s) (u : T) (rtm : Option RTMScope)
    (body rest : Prog (TreeCell T) (TreeWord T N K V) (Res (TreeRet V)))
    (hphase : s.rtm.phase u = .inPlace rtm body rest) :
    body.Within (fun l => l ≠ .leaf s.alloc.allocated) h.cells := by
  have hbody := hB u
  rw [hphase] at hbody
  obtain ⟨call, -, rfl⟩ := Option.map_eq_some_iff.mp hbody.symm
  have hsim := Heap.scope_sim (P := fun p => p ≠ s.alloc.allocated) (t := u)
    (c := s.preAllocLeafNode u) call (fun p hp => ?_) hR.nodes (fun p hp => ?_)
  · refine Prog.Within.mono hsim.within fun l hl heq => ?_
    subst heq
    exact hl rfl
  · rw [← hR.held] at hp
    exact hR.alloc ▸ (hR.owned.held u p hp).ne
  · rw [← hR.tree] at hp
    exact hR.alloc ▸ (hR.owned.allocated () p hp).ne

variable [DecidableEq V] {m₀ : TreeCell T → TreeWord T N K V} {holder : Option T}
  {s' : CXTree T N K V} {e : TreeEvent T N K V}

/-- A run has come to `s`, and to `a` where the scopes of inserts are one step each. What took
effect left the memory of a tree; the thread with the lock has gone on from there. -/
def Follows (m₀ : TreeCell T → TreeWord T N K V) (s : CXTree T N K V) (a : Shared T Unit N K V) :
    Prop :=
  ∃ h holder, Refines h s a ∧ Bodies s ∧ Rtm.Settled m₀ s.rtm h.cells holder

theorem Follows.drew (hR : Refines h s a) (hB : Bodies s)
    (hS : Rtm.Settled m₀ s.rtm h.cells holder) (hold : (s.phase t).inScope = none)
    (hs' : s.initPreAllocedLeaf t = some s') :
    ∃ h', Refines h' s' (a.draw t) ∧ Bodies s' ∧ Rtm.Settled m₀ s'.rtm h'.cells holder ∧
      s'.phase = s.phase := by
  obtain ⟨rtm, hrtm, rfl⟩ := initPreAllocedLeaf_drew hs'
  obtain ⟨hS', hsame⟩ := hS.beside hrtm (hR.apart hB)
  rw [← Heap.setLeaf_cells] at hS'
  exact ⟨_, hR.drew, hB.drew hold hsame, hS', rfl⟩

omit [DecidableEq V] in
theorem Refines.one (hN : 2 ≤ N) (hR : Refines h s a) {e' : InsertEvent T Unit K V}
    (hstepped : Shared.Stepped a e' a') (hvalid : e'.Valid) :
    run Shared.step [e'] a = some a' ∧ a'.Owned :=
  ⟨run_cons hstepped.step, hR.owned.step hN hvalid hstepped⟩

omit [DecidableEq V] in
theorem Follows.called (hN : 2 ≤ N) (hR : Refines h s a) (hB : Bodies s)
    (hS : Rtm.Settled m₀ s.rtm h.cells holder) {call : TreeCall K V} (hidle : s.phase t = .idle)
    (hvalid : call.key ≠ ⊤) :
    ∃ a', run Shared.step (s.insertEvent (.call t call)).toList a = some a' ∧
      Follows m₀ (s.goto t call.start) a' := by
  have hphase : a.phase t = .idle := by rw [hR.phase t, hidle]; rfl
  have hB' : ∀ {phase : CallPhase K V}, phase.inScope = none → Bodies (s.goto t phase) :=
    hB.goto (by rw [hidle]; rfl)
  cases call with
  | get k =>
    have hsame : a.phase = Function.update a.phase t .idle := by
      rw [← hphase, Function.update_eq_self]
    refine ⟨a, rfl, h, holder, hR.goto rfl rfl rfl rfl rfl hsame hR.owned ?_, hB' rfl, hS⟩
    intro call hcall
    cases hcall
    exact hvalid
  | insert k v =>
    have hstepped : Shared.Stepped a (.call t () k v) _ := .called hphase
    obtain ⟨hrun, hown⟩ := hR.one hN hstepped hvalid
    refine ⟨_, hrun, h, holder, hR.goto rfl rfl rfl rfl rfl rfl hown ?_, hB' rfl, hS⟩
    intro call hcall
    cases hcall
    exact hvalid

/-- A call leaves its scope: what the body did to the memory is what the call does to the tree. -/
theorem Follows.left (hN : 2 ≤ N) (hR : Refines h s a) (hB : Bodies s)
    (hS : Rtm.Settled m₀ s.rtm h.cells holder) {call : TreeCall K V} {r : TreeRet V}
    (hphase : s.phase t = .scope call) (hres : (s.rtm.phase t).result = some (.ok r))
    (hrtm : s.rtm.step (.leave t) = some rtm) :
    ∃ a', run Shared.step (s.insertEvent (.leave t)).toList a = some a' ∧
      Follows m₀ { s.goto t r.next with rtm := rtm, log := s.log ++ [(t, call, r)] } a' := by
  obtain ⟨body, r', hbody, hres', hrun, hS', hrtm'⟩ := hS.left hrtm
  obtain rfl := Option.some.inj (hres'.symm.trans hres)
  have hcall := hB t
  rw [hbody, hphase] at hcall
  obtain rfl := Option.some.inj hcall
  obtain ⟨b, h', hact, hmem, hserved⟩ := (Heap.scope_sim (P := fun _ => True) call
    (fun _ _ => trivial) hR.nodes (fun _ _ => trivial)).sound hrun
  rw [hmem] at hS'
  obtain ⟨hleaf, htree, rfl, hnodes⟩ := hserved
  cases call with
  | get k =>
    obtain ⟨v, hget, hb⟩ := bind_eq_ok.mp hact
    cases hb
    refine ⟨a, ?_, h', none, hR.got hN hphase hget hleaf htree hnodes, hB.set hrtm' rfl _, hS'⟩
    rw [insertEvent, hphase]
    rfl
  | insert k v =>
    obtain ⟨⟨m, x, ret⟩, hins, hb⟩ := bind_eq_ok.mp hact
    cases hb
    have hphase' : a.phase t = .ready () k v := by rw [hR.phase t, hphase]; rfl
    obtain ⟨c, hpre⟩ := hR.owned.prepared t (by rw [hphase']; rfl)
    have hcore : (a.trees ()).insertCore a.mem k v (some c) = .ok (m, x, ret) := by
      rw [hR.tree, hR.leaf, ← hpre, hR.held]
      exact hins
    have hstepped : Shared.Stepped a (.insertCore t) _ := .done hphase' hpre hcore
    obtain ⟨hrun', hown⟩ := hR.one hN hstepped trivial
    refine ⟨_, ?_, h', none, hR.inserts hleaf htree hnodes hown, hB.set hrtm' rfl _, hS'⟩
    rw [insertEvent, hphase]
    exact hrun'

/-- One step: it is none or one there. -/
theorem Follows.step (hN : 2 ≤ N) (h : Follows m₀ s a) (hvalid : e.Valid)
    (hstep : s.step e = some s') :
    ∃ a', run Shared.step (s.insertEvent e).toList a = some a' ∧ Follows m₀ s' a' := by
  obtain ⟨h, holder, hR, hB, hS⟩ := h
  cases Turn.of_step hstep with
  | called hidle => exact Follows.called hN hR hB hS hidle hvalid
  | @held t k v c hphase hpre =>
    have hphase' : a.phase t = .entered () k v := by rw [hR.phase t, hphase]; rfl
    have hstepped : Shared.Stepped a (.initPreAllocedLeaf t) _ := .held hphase' (hR.held ▸ hpre)
    obtain ⟨hrun, hown⟩ := hR.one hN hstepped trivial
    refine ⟨_, hrun, h, holder, hR.goto rfl rfl rfl rfl rfl rfl hown ?_,
      hB.goto (by rw [hphase]; rfl) rfl, hS⟩
    intro call hcall
    cases hcall
    exact hR.valid t (.insert k v) (by rw [hphase]; rfl)
  | @drawn t k v s₁ hphase hpre hs₁ =>
    have hphase' : a.phase t = .entered () k v := by rw [hR.phase t, hphase]; rfl
    obtain ⟨h', hR', hB', hS', hsame⟩ := Follows.drew hR hB hS (by rw [hphase]; rfl) hs₁
    have hstepped : Shared.Stepped a (.initPreAllocedLeaf t) _ := .drawn hphase' (hR.held ▸ hpre)
    obtain ⟨hrun, hown⟩ := hR.one hN hstepped trivial
    refine ⟨_, hrun, h', holder, hR'.goto rfl rfl rfl rfl rfl rfl hown ?_,
      hB'.goto (by rw [hsame, hphase]; rfl) rfl, hS'⟩
    intro call hcall
    cases hcall
    exact hR.valid t (.insert k v) (by rw [hphase]; rfl)
  | @entered t call rtm hphase hrtm =>
    obtain ⟨hS', hrtm'⟩ := hS.entered hrtm
    have hsame : a.phase = Function.update a.phase t (CallPhase.scope call).insert := by
      have hinsert : (CallPhase.scope call).insert = a.phase t := by
        rw [hR.phase t, hphase]
        cases call <;> rfl
      rw [hinsert, Function.update_eq_self]
    have hgo : Refines h (s.goto t (.scope call)) a :=
      hR.goto rfl rfl rfl rfl rfl hsame hR.owned fun call' hcall => by
        cases hcall
        exact hR.valid t call (by rw [hphase]; rfl)
    exact ⟨a, rfl, h, holder, hgo.within rtm, hB.set hrtm' rfl s.log, hS'⟩
  | @within e rtm he hrtm =>
    obtain ⟨⟨holder', hS'⟩, hbody⟩ := hS.within hrtm he
    exact ⟨a, rfl, h, holder', hR.within rtm, fun u => (hbody u).trans (hB u), hS'⟩
  | left hphase hres hrtm => exact Follows.left hN hR hB hS hphase hres hrtm
  | @kept t hphase =>
    have hphase' : a.phase t = .inserted () false := by rw [hR.phase t, hphase]; rfl
    have hstepped : Shared.Stepped a (.takePreAllocedLeaf t) _ := .kept hphase'
    obtain ⟨hrun, hown⟩ := hR.one hN hstepped trivial
    exact ⟨_, hrun, h, holder, hR.goto rfl rfl rfl rfl rfl rfl hown
      (fun call hcall => by cases hcall), hB.goto (by rw [hphase]; rfl) rfl, hS⟩
  | @replaced t s₁ hphase hs₁ =>
    have hphase' : a.phase t = .inserted () true := by rw [hR.phase t, hphase]; rfl
    obtain ⟨c, hpre⟩ := hR.owned.prepared t (by rw [hphase']; rfl)
    rw [takePreAllocedLeaf, ← hR.held, hpre] at hs₁
    obtain ⟨h', hR', hB', hS', hsame⟩ := Follows.drew hR hB hS (by rw [hphase]; rfl) hs₁
    have hstepped : Shared.Stepped a (.takePreAllocedLeaf t) _ := .replaced hphase' hpre
    obtain ⟨hrun, hown⟩ := hR.one hN hstepped trivial
    exact ⟨_, hrun, h', holder, hR'.goto rfl rfl rfl rfl rfl rfl hown
      (fun call hcall => by cases hcall), hB'.goto (by rw [hsame, hphase]; rfl) rfl, hS'⟩

omit [DecidableEq V] in
theorem Follows.init (m : Mem N K V) (inner : InnerPtr T → TreeInner K (NodePtr T)) :
    Follows (Heap.empty m inner).cells (.init m inner) (.init m) := by
  refine ⟨Heap.empty m inner, none, ?_, fun _ => rfl, .init _⟩
  refine ⟨rfl, rfl, rfl, rfl, fun _ => rfl, rfl, ⟨Multiset.nodup_zero, fun b hb => ?_⟩, .init m,
    (fun _ _ hcall => by cases hcall), fun before t k v after heq => ?_⟩
  · exact absurd hb (Multiset.notMem_zero b)
  · simp [CXTree.init] at heq

end Refines

section Runs
variable [LinearOrder K] [BoundedOrder K] [Inhabited V] [DecidableEq V] [StdSort] [DecidableEq T]
  {m : Mem N K V} {inner : InnerPtr T → TreeInner K (NodePtr T)} {es : List (TreeEvent T N K V)}
  {s : CXTree T N K V}

theorem of_run (hN : 2 ≤ N) (hrun : run step es (.init m inner) = some s)
    (hkeys : ∀ e ∈ es, e.Valid) :
    ∃ a, run Shared.step (seen step insertEvent es (.init m inner)) (.init m) = some a ∧
      Follows (Heap.empty m inner).cells s a :=
  run_refines (Follows (Heap.empty m inner).cells) TreeEvent.Valid
    (fun _ _ _ _ hstep hvalid h => h.step hN hvalid hstep) hkeys hrun (.init m inner)

/-- Any threads, any interleaving of their accesses, any aborts: the calls take effect one after the
other between their begin and their end, each thread's in its order, and every get returns what the
inserts before it left. While nobody has the lock, the memory is that of a tree with all of their
entries. -/
theorem cxtree_linearizes (hN : 2 ≤ N) (hrun : run step es (.init m inner) = some s)
    (hkeys : ∀ e ∈ es, e.Valid) :
    Legal s.log ∧
    (∀ t, es.filterMap (TreeEvent.callOf t) =
      s.log.filterMap (callIn t) ++ (s.phase t).pending.toList) ∧
    (∀ es₁ s₁, es₁ <+: es → run step es₁ (.init m inner) = some s₁ → s₁.log <+: s.log) ∧
    ∃ h : Heap T N K V, h.Owned ∧ Keeps h.leaf h.tree (entries s.log) ∧
      ((∀ t, ¬ (s.rtm.phase t).InPlace) → s.rtm.mem = h.cells) ∧
      ∀ t rtm body rest, s.rtm.phase t = .inPlace rtm body rest →
        body.Reaches h.cells rest s.rtm.mem ∧ ∀ u, (s.rtm.phase u).InPlace → u = t := by
  obtain ⟨a, -, h, holder, hR, -, hS⟩ := of_run hN hrun hkeys
  refine ⟨hR.legal, fun t => (calls_run t hrun).symm, ?_, h, hR.nodes, ?_, fun hall => ?_, ?_⟩
  · rintro es₁ s₁ ⟨es₂, rfl⟩ hrun₁
    rw [run_append, hrun₁] at hrun
    exact log_run hrun
  · have hkeeps := hR.owned.keeps ()
    rwa [hR.leaf, hR.tree, hR.inserted] at hkeeps
  · exact hS.free (hS.holder_none.mpr hall)
  · intro t rtm body rest hphase
    obtain ⟨hholder, hreach⟩ := hS.reaches hphase
    exact ⟨hreach, fun u hu => Option.some.inj ((hS.inPlace u hu).symm.trans hholder)⟩

/-- Every run is one of the threads whose inserts are one step each: the tree, the leaves of the
threads and the results are the same. -/
theorem cxtree_refines (hN : 2 ≤ N) (hrun : run step es (.init m inner) = some s)
    (hkeys : ∀ e ∈ es, e.Valid) :
    ∃ a, run Shared.step (seen step insertEvent es (.init m inner)) (.init m) = some a ∧
      a.alloc = s.alloc ∧ a.preAllocLeafNode = s.preAllocLeafNode ∧
      (∀ t, a.phase t = (s.phase t).insert) ∧ a.inserted () = entries s.log ∧
      ∃ h : Heap T N K V, h.leaf = a.mem ∧ h.tree = a.trees () ∧
        ((∀ t, ¬ (s.rtm.phase t).InPlace) → s.rtm.mem = h.cells) := by
  obtain ⟨a, hrun', h, holder, hR, -, hS⟩ := of_run hN hrun hkeys
  exact ⟨a, hrun', hR.alloc, hR.held, hR.phase, hR.inserted, h, hR.leaf.symm, hR.tree.symm,
    fun hall => hS.free (hS.holder_none.mpr hall)⟩

end Runs

/-- Two threads insert at the same time. The second one reads the root before the first one makes
it; its transaction is aborted twice, and then it takes the lock. The first one looks its own key
up again. -/
def contended : List (TreeEvent Bool 2 XKey ℕ) := List.flatten [
  [.call false (.insert 3 30), .initPreAllocedLeaf false, .enter false, .scope (.xbegin false),
    .scope (.isLocked false), .call true (.insert 1 10), .initPreAllocedLeaf true, .enter true,
    .scope (.xbegin true), .scope (.isLocked true), .scope (.access true)],
  List.replicate 6 (.scope (.access false)),
  [.leave false, .scope (.abort true 4), .takePreAllocedLeaf false, .scope (.xbegin true),
    .scope (.abort true 0), .scope (.xchg true), .scope (.access true), .call false (.get 3),
    .enter false],
  List.replicate 4 (.scope (.access true)),
  [.leave true, .takePreAllocedLeaf true, .scope (.xbegin false), .scope (.isLocked false)],
  List.replicate 4 (.scope (.access false)), [.leave false]]

theorem contended_valid : ∀ e ∈ contended, e.Valid := by
  simp [contended, TreeEvent.Valid, TreeCall.key]
  decide

theorem contended_runs : letI := insertionStdSort
    ∃ s, run step contended (.init (fun _ => XNode.new) fun _ => .new) = some s := by
  let : StdSort := insertionStdSort
  have hsome : (run step contended (.init (fun _ => XNode.new) fun _ => .new)).isSome = true := by
    decide +kernel
  exact Option.isSome_iff_exists.mp hsome

theorem cxtree_linearizes_two :
    letI := insertionStdSort
    ∃ s, run step contended (.init (fun _ => XNode.new) fun _ => .new) = some s ∧ Legal s.log ∧
      (∀ t, contended.filterMap (TreeEvent.callOf t) =
        s.log.filterMap (callIn t) ++ (s.phase t).pending.toList) ∧
      (∀ es₁ s₁, es₁ <+: contended →
        run step es₁ (.init (fun _ => XNode.new) fun _ => .new) = some s₁ → s₁.log <+: s.log) ∧
      ∃ h : Heap Bool 2 XKey ℕ, h.Owned ∧ Keeps h.leaf h.tree (entries s.log) ∧
        ((∀ t, ¬ (s.rtm.phase t).InPlace) → s.rtm.mem = h.cells) := by
  let : StdSort := insertionStdSort
  obtain ⟨s, hrun⟩ := contended_runs
  obtain ⟨hlegal, hcalls, hbegins, h, hnodes, hkeeps, hmem, -⟩ :=
    cxtree_linearizes (le_refl 2) hrun contended_valid
  exact ⟨s, hrun, hlegal, hcalls, hbegins, h, hnodes, hkeeps, hmem⟩

theorem cxtree_refines_two :
    letI := insertionStdSort
    ∃ s, ∃ a : Shared Bool Unit 2 XKey ℕ,
      run step contended (.init (fun _ => XNode.new) fun _ => .new) = some s ∧
      run Shared.step (seen step insertEvent contended (.init (fun _ => XNode.new) fun _ => .new))
        (.init fun _ => XNode.new) = some a ∧
      a.preAllocLeafNode = s.preAllocLeafNode ∧ a.inserted () = entries s.log := by
  let : StdSort := insertionStdSort
  obtain ⟨s, hrun⟩ := contended_runs
  obtain ⟨a, hrun', -, hheld, -, hinserted, -⟩ :=
    cxtree_refines (le_refl 2) hrun contended_valid
  exact ⟨s, a, hrun, hrun', hheld, hinserted⟩

end CXTree
end XStore.Xkv
