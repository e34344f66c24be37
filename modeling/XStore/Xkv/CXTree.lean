import XStore.Xkv.Concurrent
import XStore.Xkv.PtrCore
import XStore.Xutils.RtmScope

/-! `CXTree` (xtree_con.hh): any number of threads that get and insert. What a call does in its RTM
scope goes access by access on the nodes in memory; the leaves for the inserts come from the
allocator, outside of the scopes. -/
namespace XStore.Xkv
open XStore.Lib XStore.Xutils
variable {T : Type} {N : ℕ} {K V : Type}

inductive TreeCall (K V : Type) where
  | get (k : K)
  | insert (k : K) (v : V)

namespace TreeCall

def key : TreeCall K V → K
  | .get k => k
  | .insert k _ => k

def entry : TreeCall K V → Option (K × V)
  | .get _ => none
  | .insert k v => some (k, v)

end TreeCall

/-- What a call brings out of its scope. -/
inductive TreeRet (V : Type) where
  | got (v : Option V)
  | inserted (ret : Bool)

/-- Where a thread stands: in no call, before step 1 of an insert, before the scope, in the scope,
or behind that of an insert with the result of `insert_core`. -/
inductive CallPhase (K V : Type) where
  | idle
  | entered (k : K) (v : V)
  | ready (call : TreeCall K V)
  | scope (call : TreeCall K V)
  | inserted (ret : Bool)

/-- Only an insert has a step before its scope. -/
def TreeCall.start : TreeCall K V → CallPhase K V
  | .get k => .ready (.get k)
  | .insert k v => .entered k v

def TreeRet.next : TreeRet V → CallPhase K V
  | .got _ => .idle
  | .inserted ret => .inserted ret

namespace CallPhase

def pending : CallPhase K V → Option (TreeCall K V)
  | .entered k v => some (.insert k v)
  | .ready call => some call
  | .scope call => some call
  | _ => none

def inScope : CallPhase K V → Option (TreeCall K V)
  | .scope call => some call
  | _ => none

def insert : CallPhase K V → Phase Unit K V
  | .entered k v => .entered () k v
  | .ready (.insert k v) => .ready () k v
  | .scope (.insert k v) => .ready () k v
  | .inserted ret => .inserted () ret
  | _ => .idle

end CallPhase

def PtrTree.scope [KeyType K] [StdSort] (t : T) (preAllocLeafNode : Option Ptr) :
    TreeCall K V → TreeCode T N K V (TreeRet V)
  | .get k => do
    let v ← get k
    pure (.got v)
  | .insert k v => do
    let ret ← insertCore t k v preAllocLeafNode
    pure (.inserted ret)

/-- The tree with its lock, the allocator and the threads. The log is a record of the calls in the
order in which they took effect. -/
structure CXTree (T : Type) (N : ℕ) (K V : Type) where
  rtm : Rtm T (TreeCell T) (TreeWord T N K V) (Res (TreeRet V))
  alloc : TrivalAlloc
  preAllocLeafNode : T → Option Ptr
  phase : T → CallPhase K V
  log : List (T × TreeCall K V × TreeRet V)

inductive TreeEvent (T : Type) (N : ℕ) (K V : Type) where
  | call (t : T) (call : TreeCall K V)
  | initPreAllocedLeaf (t : T)
  | enter (t : T)
  | scope (e : RtmEvent T (TreeCell T) (TreeWord T N K V) (Res (TreeRet V)))
  | leave (t : T)
  | takePreAllocedLeaf (t : T)

namespace TreeEvent

def Valid [KeyType K] : TreeEvent T N K V → Prop
  | .call _ c => c.key ≠ KeyType.invalid
  | _ => True

def callOf [DecidableEq T] (t : T) : TreeEvent T N K V → Option (TreeCall K V)
  | .call u c => if u = t then some c else none
  | _ => none

end TreeEvent

def Heap.empty (m : Mem N K V) (inner : InnerPtr T → TreeInner K (NodePtr T)) : Heap T N K V where
  depth := 0
  root := none
  inner := inner
  leaf := m
  arena _ := 0

namespace CXTree

/-- The memory is as it happens to be, but for the members of the tree. -/
def init (m : Mem N K V) (inner : InnerPtr T → TreeInner K (NodePtr T)) : CXTree T N K V where
  rtm := .init (Heap.empty m inner).cells
  alloc := ⟨0⟩
  preAllocLeafNode _ := none
  phase _ := .idle
  log := []

section Step
variable [DecidableEq T]

def goto (s : CXTree T N K V) (t : T) (phase : CallPhase K V) : CXTree T N K V :=
  { s with phase := Function.update s.phase t phase }

variable [KeyType K] [DecidableEq K] [Inhabited V] [DecidableEq V]

/-- The constructor of a leaf runs outside of all scopes. -/
def initPreAllocedLeaf (s : CXTree T N K V) (t : T) : Option (CXTree T N K V) :=
  match AllocTrait.alloc s.alloc with
  | (some p, a) => (s.rtm.step (.store t (.leaf p) (.leaf .new))).map fun rtm =>
    { s with rtm := rtm
             alloc := a
             preAllocLeafNode := Function.update s.preAllocLeafNode t (some p) }
  | (none, _) => none

def takePreAllocedLeaf (s : CXTree T N K V) (t : T) : Option (CXTree T N K V) :=
  match s.preAllocLeafNode t with
  | none => (s.initPreAllocedLeaf t).bind fun s => s.initPreAllocedLeaf t
  | some _ => s.initPreAllocedLeaf t

variable [StdSort]

/-- One step of one thread. A thread whose body failed does not leave its scope: in a transaction
the hardware aborts it, with the lock the program is stopped. -/
def step (s : CXTree T N K V) : TreeEvent T N K V → Option (CXTree T N K V)
  | .call t call =>
    match s.phase t with
    | .idle => some (s.goto t call.start)
    | _ => none
  | .initPreAllocedLeaf t =>
    match s.phase t with
    | .entered k v =>
      match s.preAllocLeafNode t with
      | none => (s.initPreAllocedLeaf t).map fun s => s.goto t (.ready (.insert k v))
      | some _ => some (s.goto t (.ready (.insert k v)))
    | _ => none
  | .enter t =>
    match s.phase t with
    | .ready call =>
      (s.rtm.step (.enter t (PtrTree.scope t (s.preAllocLeafNode t) call))).map fun rtm =>
        { s.goto t (.scope call) with rtm := rtm }
    | _ => none
  | .scope e => if e.within then (s.rtm.step e).map fun rtm => { s with rtm := rtm } else none
  | .leave t =>
    match s.phase t, (s.rtm.phase t).result with
    | .scope call, some (.ok r) =>
      (s.rtm.step (.leave t)).map fun rtm =>
        { s.goto t r.next with
          rtm := rtm
          log := s.log ++ [(t, call, r)] }
    | _, _ => none
  | .takePreAllocedLeaf t =>
    match s.phase t with
    | .inserted true => (s.takePreAllocedLeaf t).map fun s => s.goto t .idle
    | .inserted false => some (s.goto t .idle)
    | _ => none

def drew (s : CXTree T N K V) (t : T)
    (rtm : Rtm T (TreeCell T) (TreeWord T N K V) (Res (TreeRet V))) : CXTree T N K V :=
  { s with rtm := rtm
           alloc := ⟨s.alloc.allocated + 1⟩
           preAllocLeafNode := Function.update s.preAllocLeafNode t (some s.alloc.allocated) }

inductive Turn (s : CXTree T N K V) : TreeEvent T N K V → CXTree T N K V → Prop where
  | called {t : T} {call : TreeCall K V} (hidle : s.phase t = .idle) :
      Turn s (.call t call) (s.goto t call.start)
  | held {t : T} {k : K} {v : V} {c : Ptr} (hphase : s.phase t = .entered k v)
      (hpre : s.preAllocLeafNode t = some c) :
      Turn s (.initPreAllocedLeaf t) (s.goto t (.ready (.insert k v)))
  | drawn {t : T} {k : K} {v : V} {s₁ : CXTree T N K V} (hphase : s.phase t = .entered k v)
      (hpre : s.preAllocLeafNode t = none) (hs₁ : s.initPreAllocedLeaf t = some s₁) :
      Turn s (.initPreAllocedLeaf t) (s₁.goto t (.ready (.insert k v)))
  | entered {t : T} {call : TreeCall K V}
      {rtm : Rtm T (TreeCell T) (TreeWord T N K V) (Res (TreeRet V))}
      (hphase : s.phase t = .ready call)
      (hrtm : s.rtm.step (.enter t (PtrTree.scope t (s.preAllocLeafNode t) call)) = some rtm) :
      Turn s (.enter t) { s.goto t (.scope call) with rtm := rtm }
  | within {e : RtmEvent T (TreeCell T) (TreeWord T N K V) (Res (TreeRet V))}
      {rtm : Rtm T (TreeCell T) (TreeWord T N K V) (Res (TreeRet V))} (he : e.within = true)
      (hrtm : s.rtm.step e = some rtm) : Turn s (.scope e) { s with rtm := rtm }
  | left {t : T} {call : TreeCall K V} {r : TreeRet V}
      {rtm : Rtm T (TreeCell T) (TreeWord T N K V) (Res (TreeRet V))}
      (hphase : s.phase t = .scope call) (hres : (s.rtm.phase t).result = some (.ok r))
      (hrtm : s.rtm.step (.leave t) = some rtm) :
      Turn s (.leave t) { s.goto t r.next with rtm := rtm, log := s.log ++ [(t, call, r)] }
  | kept {t : T} (hphase : s.phase t = .inserted false) :
      Turn s (.takePreAllocedLeaf t) (s.goto t .idle)
  | replaced {t : T} {s₁ : CXTree T N K V} (hphase : s.phase t = .inserted true)
      (hs₁ : s.takePreAllocedLeaf t = some s₁) :
      Turn s (.takePreAllocedLeaf t) (s₁.goto t .idle)

theorem Turn.of_step {s s' : CXTree T N K V} {e : TreeEvent T N K V} (h : s.step e = some s') :
    Turn s e s' := by
  cases e with
  | call t call =>
    simp only [CXTree.step] at h
    split at h
    next hidle =>
      obtain rfl := Option.some.inj h
      exact .called hidle
    next => cases h
  | initPreAllocedLeaf t =>
    simp only [CXTree.step] at h
    split at h
    next k v hphase =>
      split at h
      next hpre =>
        obtain ⟨s₁, hs₁, rfl⟩ := Option.map_eq_some_iff.mp h
        exact .drawn hphase hpre hs₁
      next c hpre =>
        obtain rfl := Option.some.inj h
        exact .held hphase hpre
    next => cases h
  | enter t =>
    simp only [CXTree.step] at h
    split at h
    next call hphase =>
      obtain ⟨rtm, hrtm, rfl⟩ := Option.map_eq_some_iff.mp h
      exact .entered hphase hrtm
    next => cases h
  | scope e =>
    simp only [CXTree.step] at h
    split at h
    next he =>
      obtain ⟨rtm, hrtm, rfl⟩ := Option.map_eq_some_iff.mp h
      exact .within he hrtm
    next => cases h
  | leave t =>
    simp only [CXTree.step] at h
    split at h
    next call r hphase hres =>
      obtain ⟨rtm, hrtm, rfl⟩ := Option.map_eq_some_iff.mp h
      exact .left hphase hres hrtm
    next => cases h
  | takePreAllocedLeaf t =>
    simp only [CXTree.step] at h
    split at h
    next hphase =>
      obtain ⟨s₁, hs₁, rfl⟩ := Option.map_eq_some_iff.mp h
      exact .replaced hphase hs₁
    next hphase =>
      obtain rfl := Option.some.inj h
      exact .kept hphase
    next => cases h

end Step

section Calls
variable [DecidableEq T] [KeyType K] [DecidableEq K] [Inhabited V] [DecidableEq V]
  {s s' : CXTree T N K V} {t u : T} {phase : CallPhase K V}

omit [KeyType K] [DecidableEq K] [Inhabited V] [DecidableEq V] in
@[simp] theorem goto_self : (s.goto t phase).phase t = phase := Function.update_self _ _ _

omit [KeyType K] [DecidableEq K] [Inhabited V] [DecidableEq V] in
theorem goto_other (h : u ≠ t) : (s.goto t phase).phase u = s.phase u := Function.update_of_ne h _ _

theorem initPreAllocedLeaf_drew (h : s.initPreAllocedLeaf t = some s') :
    ∃ rtm, s.rtm.step (.store t (.leaf s.alloc.allocated) (.leaf .new)) = some rtm ∧
      s' = s.drew t rtm := by
  obtain ⟨rtm, hrtm, rfl⟩ := Option.map_eq_some_iff.mp h
  exact ⟨rtm, hrtm, rfl⟩

theorem takePreAllocedLeaf_same (h : s.takePreAllocedLeaf t = some s') :
    s'.phase = s.phase ∧ s'.log = s.log := by
  unfold takePreAllocedLeaf at h
  split at h
  · obtain ⟨s₁, hs₁, h⟩ := Option.bind_eq_some_iff.mp h
    obtain ⟨rtm, -, rfl⟩ := initPreAllocedLeaf_drew hs₁
    obtain ⟨rtm', -, rfl⟩ := initPreAllocedLeaf_drew h
    exact ⟨rfl, rfl⟩
  · obtain ⟨rtm, -, rfl⟩ := initPreAllocedLeaf_drew h
    exact ⟨rfl, rfl⟩

def callIn (t : T) (x : T × TreeCall K V × TreeRet V) : Option (TreeCall K V) :=
  if x.1 = t then some x.2.1 else none

/-- The calls of a thread that took effect, and the one that it is in. -/
def calls (s : CXTree T N K V) (t : T) : List (TreeCall K V) :=
  s.log.filterMap (callIn t) ++ (s.phase t).pending.toList

omit [KeyType K] [DecidableEq K] [Inhabited V] [DecidableEq V] in
theorem calls_goto {old : CallPhase K V} (hold : s.phase u = old) (hlog : s'.log = s.log)
    (hphase : s'.phase = Function.update s.phase u phase) (hpending : phase.pending = old.pending) :
    s'.calls t = s.calls t ++ [] := by
  rw [calls, calls, hlog, hphase, List.append_nil]
  by_cases heq : t = u
  · rw [heq, Function.update_self, hold, hpending]
  · rw [Function.update_of_ne heq]

variable [StdSort]

/-- A step adds the call that it begins, and loses or doubles none. -/
theorem calls_step {e : TreeEvent T N K V} (t : T) (h : s.step e = some s') :
    s'.calls t = s.calls t ++ (e.callOf t).toList := by
  cases Turn.of_step h with
  | @called u call hidle =>
    by_cases heq : u = t
    · subst heq
      have hpending : call.start.pending = some call := by cases call <;> rfl
      have hnone : (s.phase u).pending = none := by rw [hidle]; rfl
      simp [calls, hnone, hpending, TreeEvent.callOf, goto]
    · simp [calls, TreeEvent.callOf, heq, Ne.symm heq, goto]
  | held hphase hpre => exact calls_goto hphase rfl rfl rfl
  | drawn hphase hpre hs₁ =>
    obtain ⟨rtm, -, rfl⟩ := initPreAllocedLeaf_drew hs₁
    exact calls_goto hphase rfl rfl rfl
  | entered hphase hrtm => exact calls_goto hphase rfl rfl rfl
  | within he hrtm => simp [calls, TreeEvent.callOf]
  | @left u call r rtm hphase hres hrtm =>
    have hpending : (r.next : CallPhase K V).pending = none := by cases r <;> rfl
    by_cases heq : t = u
    · subst heq
      have hold : (s.phase t).pending = some call := by rw [hphase]; rfl
      simp [calls, goto, hold, hpending, callIn, TreeEvent.callOf]
    · simp [calls, goto, heq, callIn, Ne.symm heq, TreeEvent.callOf]
  | kept hphase => exact calls_goto hphase rfl rfl rfl
  | @replaced u s₁ hphase hs₁ =>
    obtain ⟨hsame, hlog⟩ := takePreAllocedLeaf_same hs₁
    have hgo : (s₁.goto u .idle).phase = Function.update s.phase u .idle := by rw [goto, hsame]
    exact calls_goto hphase hlog hgo rfl

theorem calls_run {es : List (TreeEvent T N K V)} (t : T) (hrun : run step es s = some s') :
    s'.calls t = s.calls t ++ es.filterMap (TreeEvent.callOf t) := by
  induction es generalizing s with
  | nil =>
    obtain rfl := Option.some.inj hrun
    simp
  | cons e es ih =>
    obtain ⟨s₁, hs₁, hrest⟩ := Option.bind_eq_some_iff.mp hrun
    rw [ih hrest, calls_step t hs₁, List.append_assoc]
    cases hcall : e.callOf t <;> simp [hcall]

theorem log_run {es : List (TreeEvent T N K V)} (hrun : run step es s = some s') :
    s.log <+: s'.log := by
  induction es generalizing s with
  | nil =>
    obtain rfl := Option.some.inj hrun
    exact List.prefix_rfl
  | cons e es ih =>
    obtain ⟨s₁, hstep, hrest⟩ := Option.bind_eq_some_iff.mp hrun
    refine List.IsPrefix.trans ?_ (ih hrest)
    cases Turn.of_step hstep with
    | left hphase hres hrtm => exact List.prefix_append _ _
    | drawn hphase hpre hs₁ =>
      obtain ⟨rtm, -, rfl⟩ := initPreAllocedLeaf_drew hs₁
      exact List.prefix_rfl
    | replaced hphase hs₁ =>
      obtain ⟨-, hlog⟩ := takePreAllocedLeaf_same hs₁
      exact hlog ▸ List.prefix_rfl
    | _ => exact List.prefix_rfl

end Calls
end CXTree
end XStore.Xkv
