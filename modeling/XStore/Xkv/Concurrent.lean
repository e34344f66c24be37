import XStore.Lib.Runs
import XStore.Xkv.Pinned
import Mathlib.Data.Fintype.Card

/-! `insert_w_alloc` (xtree_con.hh) from any number of threads into any number of trees. The
insert itself is one step, as the RTM scope makes it; getting the first pre-allocated leaf and
replacing a leaf that was taken are steps of their own. -/
namespace XStore.Xkv
open XStore.Lib
variable {N : ℕ} {K V T I : Type}

/-- Where a thread stands in its call: none, before and after step 1, and behind the RTM
scope with the result of `insert_core`. -/
inductive Phase (I K V : Type) where
  | idle
  | entered (tree : I) (k : K) (v : V)
  | ready (tree : I) (k : K) (v : V)
  | inserted (tree : I) (ret : Bool)

namespace Phase

def spent : Phase I K V → Bool
  | .inserted _ ret => ret
  | _ => false

def prepared : Phase I K V → Bool
  | .ready _ _ _ => true
  | .inserted _ _ => true
  | _ => false

def pending : Phase I K V → Option (I × K)
  | .entered tree k _ => some (tree, k)
  | .ready tree k _ => some (tree, k)
  | _ => none

end Phase

/-- What the threads `T` and the trees `I` share. A thread has one `pre_alloc_leaf_node` for
all trees. The last three fields record the run: the keys of all calls, the entries that went
in, and the results of the calls that returned. -/
structure Shared (T I : Type) (N : ℕ) (K V : Type) where
  mem : Mem N K V
  alloc : TrivalAlloc
  trees : I → XTree K
  preAllocLeafNode : T → Option Ptr
  phase : T → Phase I K V
  issued : List (I × K)
  inserted : I → Multiset (K × V)
  returned : List Bool

inductive InsertEvent (T I K V : Type) where
  | call (t : T) (tree : I) (k : K) (v : V)
  | initPreAllocedLeaf (t : T)
  | insertCore (t : T)
  | takePreAllocedLeaf (t : T)

def InsertEvent.Valid [KeyType K] : InsertEvent T I K V → Prop
  | .call _ _ k _ => k ≠ KeyType.invalid
  | _ => True

namespace Shared

def init [KeyType K] (m : Mem N K V) : Shared T I N K V where
  mem := m
  alloc := ⟨0⟩
  trees _ := XTree.new
  preAllocLeafNode _ := none
  phase _ := .idle
  issued := []
  inserted _ := 0
  returned := []

/-- What a thread that works on a tree sees. -/
def view (s : Shared T I N K V) (t : T) (tree : I) : World N K V TrivalAlloc where
  mem := s.mem
  alloc := s.alloc
  preAllocLeafNode := s.preAllocLeafNode t
  tree := s.trees tree

variable [DecidableEq T] [DecidableEq I]

def put (s : Shared T I N K V) (t : T) (tree : I) (w : World N K V TrivalAlloc) :
    Shared T I N K V :=
  { s with mem := w.mem
           alloc := w.alloc
           trees := Function.update s.trees tree w.tree
           preAllocLeafNode := Function.update s.preAllocLeafNode t w.preAllocLeafNode }

def goto (s : Shared T I N K V) (t : T) (phase : Phase I K V) : Shared T I N K V :=
  { s with phase := Function.update s.phase t phase }

variable [KeyType K] [Inhabited V] [StdSort]

/-- One step of one thread. No result means that the thread is not there. -/
def exec (s : Shared T I N K V) : InsertEvent T I K V → Option (Res (Shared T I N K V))
  | .call t tree k v =>
    match s.phase t with
    | .idle => some (pure { s.goto t (.entered tree k v) with issued := (tree, k) :: s.issued })
    | _ => none
  | .initPreAllocedLeaf t =>
    match s.phase t with
    | .entered tree k v => some do
      let w ← match s.preAllocLeafNode t with
        | none => (s.view t tree).initPreAllocedLeaf
        | some _ => pure (s.view t tree)
      pure ((s.put t tree w).goto t (.ready tree k v))
    | _ => none
  | .insertCore t =>
    match s.phase t with
    | .ready tree k v => some do
      let (m, x, ret) ← (s.trees tree).insertCore s.mem k v (s.preAllocLeafNode t)
      let s' := s.put t tree { s.view t tree with mem := m, tree := x }
      pure { s'.goto t (.inserted tree ret) with
        inserted := Function.update s.inserted tree ((k, v) ::ₘ s.inserted tree) }
    | _ => none
  | .takePreAllocedLeaf t =>
    match s.phase t with
    | .inserted tree ret => some do
      let w ← if ret then (s.view t tree).takePreAllocedLeaf else pure (s.view t tree)
      pure { (s.put t tree w).goto t .idle with returned := ret :: s.returned }
    | _ => none

/-- A thread that a fault stops makes no step. -/
def step (s : Shared T I N K V) (e : InsertEvent T I K V) : Option (Shared T I N K V) :=
  (s.exec e).bind Except.toOption

/-- A call that no other thread interrupts is the `insert_w_alloc` of one thread. -/
theorem run_call (s : Shared T I N K V) (t : T) (tree : I) (k : K) (v : V)
    (hidle : s.phase t = .idle) :
    (run step [.call t tree k v, .initPreAllocedLeaf t, .insertCore t, .takePreAllocedLeaf t]
        s).map (fun s' => (s'.view t tree, s'.returned)) =
      ((s.view t tree).insertWAlloc k v).toOption.map (fun r => (r.1, r.2 :: s.returned)) := by
  cases hpre : s.preAllocLeafNode t with
  | none =>
    simp [run, step, exec, goto, put, view, hidle, hpre, World.insertWAlloc,
      World.initPreAllocedLeaf, AllocTrait.alloc]
    cases (s.trees tree).insertCore (Function.update s.mem s.alloc.allocated XNode.new) k v
      (some s.alloc.allocated) with
    | error e => simp
    | ok res =>
      obtain ⟨m, x, ret⟩ := res
      cases ret <;> simp [World.takePreAllocedLeaf, World.initPreAllocedLeaf, AllocTrait.alloc]
  | some c =>
    simp [run, step, exec, goto, put, view, hidle, hpre, World.insertWAlloc]
    cases (s.trees tree).insertCore s.mem k v (some c) with
    | error e => simp
    | ok res =>
      obtain ⟨m, x, ret⟩ := res
      cases ret <;>
        simp [hpre, World.takePreAllocedLeaf, World.initPreAllocedLeaf, AllocTrait.alloc]

def draw (s : Shared T I N K V) (t : T) : Shared T I N K V :=
  { s with mem := Function.update s.mem s.alloc.allocated XNode.new
           alloc := ⟨s.alloc.allocated + 1⟩
           preAllocLeafNode := Function.update s.preAllocLeafNode t (some s.alloc.allocated) }

def after (s : Shared T I N K V) (t : T) (tree : I) (k : K) (v : V)
    (res : Mem N K V × XTree K × Bool) : Shared T I N K V :=
  { s with mem := res.1
           trees := Function.update s.trees tree res.2.1
           phase := Function.update s.phase t (.inserted tree res.2.2)
           inserted := Function.update s.inserted tree ((k, v) ::ₘ s.inserted tree) }

inductive Stepped (s : Shared T I N K V) : InsertEvent T I K V → Shared T I N K V → Prop
  | called {t : T} {tree : I} {k : K} {v : V} : s.phase t = .idle →
      Stepped s (.call t tree k v)
        { s.goto t (.entered tree k v) with issued := (tree, k) :: s.issued }
  | held {t : T} {tree : I} {k : K} {v : V} {c : Ptr} : s.phase t = .entered tree k v →
      s.preAllocLeafNode t = some c →
      Stepped s (.initPreAllocedLeaf t) (s.goto t (.ready tree k v))
  | drawn {t : T} {tree : I} {k : K} {v : V} : s.phase t = .entered tree k v →
      s.preAllocLeafNode t = none →
      Stepped s (.initPreAllocedLeaf t) ((s.draw t).goto t (.ready tree k v))
  | done {t : T} {tree : I} {k : K} {v : V} {c : Ptr} {res : Mem N K V × XTree K × Bool} :
      s.phase t = .ready tree k v → s.preAllocLeafNode t = some c →
      (s.trees tree).insertCore s.mem k v (some c) = .ok res →
      Stepped s (.insertCore t) (s.after t tree k v res)
  | kept {t : T} {tree : I} : s.phase t = .inserted tree false →
      Stepped s (.takePreAllocedLeaf t)
        { s.goto t .idle with returned := false :: s.returned }
  | replaced {t : T} {tree : I} {c : Ptr} : s.phase t = .inserted tree true →
      s.preAllocLeafNode t = some c →
      Stepped s (.takePreAllocedLeaf t)
        { (s.draw t).goto t .idle with returned := true :: s.returned }

def Prepared (s : Shared T I N K V) : Prop :=
  ∀ t, (s.phase t).prepared = true → ∃ c, s.preAllocLeafNode t = some c

/-- In such a state a thread makes its step, or `insert_core` stops it. -/
theorem Prepared.exec {s : Shared T I N K V} (h : s.Prepared) {e : InsertEvent T I K V}
    {r : Res (Shared T I N K V)} (hexec : s.exec e = some r) :
    (∃ s', r = .ok s' ∧ Stepped s e s') ∨
    ∃ t tree k v c f, s.phase t = .ready tree k v ∧ s.preAllocLeafNode t = some c ∧
      (s.trees tree).insertCore s.mem k v (some c) = .error f ∧ r = .error f := by
  cases e with
  | call t tree k v =>
    cases hp : s.phase t with
    | idle =>
      simp only [Shared.exec, hp, pure_eq_ok, Option.some.injEq] at hexec
      exact Or.inl ⟨_, hexec.symm, .called hp⟩
    | _ => simp [Shared.exec, hp] at hexec
  | initPreAllocedLeaf t =>
    cases hp : s.phase t with
    | entered tree k v =>
      refine Or.inl ?_
      cases hpre : s.preAllocLeafNode t with
      | none =>
        simp only [Shared.exec, hp, hpre, view, put, World.initPreAllocedLeaf, AllocTrait.alloc,
          ok_bind, pure_eq_ok, Option.some.injEq, Function.update_eq_self] at hexec
        exact ⟨_, hexec.symm, .drawn hp hpre⟩
      | some c =>
        have hself : Function.update s.preAllocLeafNode t (some c) = s.preAllocLeafNode := by
          rw [← hpre, Function.update_eq_self]
        simp only [Shared.exec, hp, hpre, view, put, ok_bind, pure_eq_ok, Option.some.injEq,
          Function.update_eq_self, hself] at hexec
        exact ⟨_, hexec.symm, .held hp hpre⟩
    | _ => simp [Shared.exec, hp] at hexec
  | insertCore t =>
    cases hp : s.phase t with
    | ready tree k v =>
      obtain ⟨c, hpre⟩ := h t (by rw [hp]; rfl)
      have hself : Function.update s.preAllocLeafNode t (some c) = s.preAllocLeafNode := by
        rw [← hpre, Function.update_eq_self]
      simp only [Shared.exec, hp, hpre, Option.some.injEq] at hexec
      cases hres : (s.trees tree).insertCore s.mem k v (some c) with
      | error f =>
        rw [hres] at hexec
        exact Or.inr ⟨t, tree, k, v, c, f, hp, hpre, hres, hexec.symm⟩
      | ok res =>
        rw [hres] at hexec
        simp only [ok_bind, pure_eq_ok, view, put, goto, hpre, hself] at hexec
        exact Or.inl ⟨_, hexec.symm, .done hp hpre hres⟩
    | _ => simp [Shared.exec, hp] at hexec
  | takePreAllocedLeaf t =>
    cases hp : s.phase t with
    | inserted tree ret =>
      obtain ⟨c, hpre⟩ := h t (by rw [hp]; rfl)
      refine Or.inl ?_
      cases ret with
      | false =>
        simp only [Shared.exec, hp, view, put, ok_bind, pure_eq_ok, Option.some.injEq,
          Function.update_eq_self, Bool.false_eq_true, if_false] at hexec
        exact ⟨_, hexec.symm, .kept hp⟩
      | true =>
        simp only [Shared.exec, hp, hpre, view, put, World.takePreAllocedLeaf,
          World.initPreAllocedLeaf, AllocTrait.alloc, ok_bind, pure_eq_ok, Option.some.injEq,
          Function.update_eq_self, if_true] at hexec
        exact ⟨_, hexec.symm, .replaced hp hpre⟩
    | _ => simp [Shared.exec, hp] at hexec

theorem Prepared.step {s s' : Shared T I N K V} (h : s.Prepared) {e : InsertEvent T I K V}
    (hstep : s.step e = some s') : Stepped s e s' := by
  obtain ⟨r, hexec, hr⟩ := Option.bind_eq_some_iff.mp hstep
  cases h.exec hexec with
  | inl hok =>
    obtain ⟨s₁, rfl, hstepped⟩ := hok
    obtain rfl := Option.some.inj hr
    exact hstepped
  | inr herr =>
    obtain ⟨_, _, _, _, _, f, _, _, _, rfl⟩ := herr
    cases hr

end Shared

section Owned
variable [LinearOrder K] [BoundedOrder K] [Inhabited V]

/-- Every leaf belongs to one tree or to one thread. A thread's leaf is in a tree only between
the insert that took it and its replacement. -/
structure Shared.Owned (s : Shared T I N K V) : Prop where
  keeps : ∀ i, Keeps s.mem (s.trees i) (s.inserted i)
  allocated : ∀ i, ∀ p ∈ (s.trees i).leaves, p < s.alloc.allocated
  disjoint : ∀ i j, i ≠ j → ∀ p ∈ (s.trees i).leaves, p ∉ (s.trees j).leaves
  held : ∀ t c, s.preAllocLeafNode t = some c → c < s.alloc.allocated
  apart : ∀ t u c, s.preAllocLeafNode t = some c → s.preAllocLeafNode u = some c → t = u
  spare : ∀ t c, s.preAllocLeafNode t = some c → (s.phase t).spent = false →
    s.mem c = XNode.new ∧ ∀ i, c ∉ (s.trees i).leaves
  prepared : s.Prepared
  valid : ∀ t i k, (s.phase t).pending = some (i, k) → k ≠ ⊤

namespace Shared
variable {s s' : Shared T I N K V} {t : T} {i : I} {k : K} {v : V} {c : Ptr}

theorem Owned.init (m : Mem N K V) : (init m : Shared T I N K V).Owned where
  keeps _ := Keeps.new
  allocated _ _ hp := nomatch hp
  disjoint _ _ _ _ hp := nomatch hp
  held _ _ h := nomatch h
  apart _ _ _ h := nomatch h
  spare _ _ h := nomatch h
  prepared _ h := nomatch h
  valid _ _ _ h := nomatch h

theorem Owned.fresh (h : s.Owned) (i : I) : s.alloc.allocated ∉ (s.trees i).leaves :=
  fun hp => lt_irrefl _ (h.allocated i _ hp)

variable [DecidableEq T]

theorem Owned.goto (h : s.Owned) {phase : Phase I K V}
    (hspare : ∀ c, s.preAllocLeafNode t = some c → phase.spent = false →
      s.mem c = XNode.new ∧ ∀ i, c ∉ (s.trees i).leaves)
    (hprep : phase.prepared = true → ∃ c, s.preAllocLeafNode t = some c)
    (hvalid : ∀ i k, phase.pending = some (i, k) → k ≠ ⊤) (issued : List (I × K))
    (returned : List Bool) :
    Owned { s.goto t phase with issued := issued, returned := returned } where
  keeps := h.keeps
  allocated := h.allocated
  disjoint := h.disjoint
  held := h.held
  apart := h.apart
  spare u c hc hspent := by
    by_cases hu : u = t
    · rw [hu] at hc hspent
      simp only [Shared.goto, Function.update_self] at hspent
      exact hspare c hc hspent
    · simp only [Shared.goto, Function.update_of_ne hu] at hspent
      exact h.spare u c hc hspent
  prepared u hu := by
    by_cases hut : u = t
    · rw [hut] at hu ⊢
      simp only [Shared.goto, Function.update_self] at hu
      exact hprep hu
    · simp only [Shared.goto, Function.update_of_ne hut] at hu
      exact h.prepared u hu
  valid u i k hu := by
    by_cases hut : u = t
    · rw [hut] at hu
      simp only [Shared.goto, Function.update_self] at hu
      exact hvalid i k hu
    · simp only [Shared.goto, Function.update_of_ne hut] at hu
      exact h.valid u i k hu

theorem Owned.draw (h : s.Owned) (t : T) : (s.draw t).Owned where
  keeps j := (h.keeps j).congr (fun p hp => Function.update_of_ne (h.allocated j p hp).ne _ _)
  allocated j p hp := Nat.lt_succ_of_lt (h.allocated j p hp)
  disjoint := h.disjoint
  held u c hc := by
    by_cases hu : u = t
    · simp only [Shared.draw, hu, Function.update_self, Option.some.injEq] at hc
      rw [← hc]
      exact Nat.lt_succ_self _
    · simp only [Shared.draw, Function.update_of_ne hu] at hc
      exact Nat.lt_succ_of_lt (h.held u c hc)
  apart u u' c hc hc' := by
    by_cases hu : u = t <;> by_cases hu' : u' = t
    · rw [hu, hu']
    · simp only [Shared.draw, hu, Function.update_self, Option.some.injEq] at hc
      simp only [Shared.draw, Function.update_of_ne hu'] at hc'
      rw [← hc] at hc'
      exact absurd (h.held u' _ hc') (lt_irrefl _)
    · simp only [Shared.draw, Function.update_of_ne hu] at hc
      simp only [Shared.draw, hu', Function.update_self, Option.some.injEq] at hc'
      rw [← hc'] at hc
      exact absurd (h.held u _ hc) (lt_irrefl _)
    · simp only [Shared.draw, Function.update_of_ne hu] at hc
      simp only [Shared.draw, Function.update_of_ne hu'] at hc'
      exact h.apart u u' c hc hc'
  spare u c hc hspent := by
    by_cases hu : u = t
    · simp only [Shared.draw, hu, Function.update_self, Option.some.injEq] at hc
      rw [← hc]
      exact ⟨Function.update_self _ _ _, h.fresh⟩
    · simp only [Shared.draw, Function.update_of_ne hu] at hc
      have hne : c ≠ s.alloc.allocated := (h.held u c hc).ne
      obtain ⟨hnew, hout⟩ := h.spare u c hc hspent
      exact ⟨(Function.update_of_ne hne _ _).trans hnew, hout⟩
  prepared u hu := by
    by_cases hut : u = t
    · exact ⟨s.alloc.allocated, by simp [Shared.draw, hut]⟩
    · simp only [Shared.draw, Function.update_of_ne hut]
      exact h.prepared u hu
  valid := h.valid

theorem Owned.drawn (h : s.Owned) (hc : (s.draw t).preAllocLeafNode t = some c) :
    (s.draw t).mem c = XNode.new ∧ ∀ i, c ∉ ((s.draw t).trees i).leaves := by
  simp only [Shared.draw, Function.update_self, Option.some.injEq] at hc
  rw [← hc]
  exact ⟨Function.update_self _ _ _, h.fresh⟩

variable [DecidableEq I] [StdSort]

omit [DecidableEq T] [DecidableEq I] in
/-- The atomic insert takes a fresh leaf, and the other trees are out of its reach. -/
theorem Owned.handed (hN : 2 ≤ N) (h : s.Owned) (hphase : s.phase t = .ready i k v)
    (hpre : s.preAllocLeafNode t = some c) {res : Mem N K V × XTree K × Bool}
    (hres : (s.trees i).insertCore s.mem k v (some c) = .ok res) :
    Keeps res.1 res.2.1 ((k, v) ::ₘ s.inserted i) ∧ Handed s.mem (s.trees i) k c res ∧
      ∀ j, j ≠ i → ∀ p ∈ (s.trees j).leaves, res.1 p = s.mem p := by
  obtain ⟨hnew, hout⟩ := h.spare t c hpre (by rw [hphase]; rfl)
  have hkey : k ≠ ⊤ := h.valid t i k (by rw [hphase]; rfl)
  obtain ⟨hkeeps, hhanded⟩ := (h.keeps i).insertCore hN hkey (hout i) hnew hres
  refine ⟨hkeeps, hhanded, fun j hj p hp => ?_⟩
  exact hhanded.frame p (h.disjoint j i hj p hp) (fun he => hout j (he ▸ hp))

omit [Inhabited V] [StdSort] in
theorem leaf_after {res : Mem N K V × XTree K × Bool} (h : Handed s.mem (s.trees i) k c res)
    {j : I} {p : Ptr} (hp : p ∈ ((s.after t i k v res).trees j).leaves) :
    p ∈ (s.trees j).leaves ∨ j = i ∧ res.2.2 = true ∧ p = c := by
  by_cases hj : j = i
  · rw [hj]
    rw [hj, show (s.after t i k v res).trees i = res.2.1 by simp [Shared.after]] at hp
    exact ((h.leaves p).mp hp).imp_right (fun hc => ⟨rfl, hc⟩)
  · exact Or.inl (by simpa [Shared.after, Function.update_of_ne hj] using hp)

theorem Owned.after (hN : 2 ≤ N) (h : s.Owned) (hphase : s.phase t = .ready i k v)
    (hpre : s.preAllocLeafNode t = some c) {res : Mem N K V × XTree K × Bool}
    (hres : (s.trees i).insertCore s.mem k v (some c) = .ok res) : (s.after t i k v res).Owned := by
  obtain ⟨hnew, hout⟩ := h.spare t c hpre (by rw [hphase]; rfl)
  obtain ⟨hkeeps, hhanded, hother⟩ := h.handed hN hphase hpre hres
  refine ⟨?_, ?_, ?_, h.held, h.apart, ?_, ?_, ?_⟩
  · intro j
    by_cases hj : j = i
    · simpa [Shared.after, hj] using hkeeps
    · simpa [Shared.after, Function.update_of_ne hj] using (h.keeps j).congr (hother j hj)
  · intro j p hp
    cases leaf_after hhanded hp with
    | inl hp => exact h.allocated j p hp
    | inr hc => exact hc.2.2 ▸ h.held t c hpre
  · intro j l hjl p hp hpl
    cases leaf_after hhanded hp with
    | inl hp =>
      cases leaf_after hhanded hpl with
      | inl hpl => exact h.disjoint j l hjl p hp hpl
      | inr hc => exact hout j (hc.2.2 ▸ hp)
    | inr hc =>
      cases leaf_after hhanded hpl with
      | inl hpl => exact hout l (hc.2.2 ▸ hpl)
      | inr hc' => exact hjl (hc.1.trans hc'.1.symm)
  · intro u c' hc' hspent
    by_cases hu : u = t
    · rw [hu] at hc' hspent
      obtain rfl : c = c' := Option.some.inj (hpre.symm.trans hc')
      have hret : res.2.2 = false := by
        simpa [Shared.after, Phase.spent] using hspent
      refine ⟨(hhanded.spare hret).trans hnew, fun j hj => ?_⟩
      cases leaf_after hhanded hj with
      | inl hj => exact hout j hj
      | inr hc => exact absurd (hret.symm.trans hc.2.1) (by simp)
    · have hne : c' ≠ c := fun he => hu (h.apart u t c (he ▸ hc') hpre)
      have hspent' : (s.phase u).spent = false := by
        simpa [Shared.after, Function.update_of_ne hu] using hspent
      obtain ⟨hnew', hout'⟩ := h.spare u c' hc' hspent'
      refine ⟨(hhanded.frame c' (hout' i) hne).trans hnew', fun j hj => ?_⟩
      cases leaf_after hhanded hj with
      | inl hj => exact hout' j hj
      | inr hc => exact hne hc.2.2
  · intro u hu
    by_cases hut : u = t
    · exact ⟨c, by rw [hut]; exact hpre⟩
    · refine h.prepared u ?_
      simpa [Shared.after, Function.update_of_ne hut] using hu
  · intro u j x hu
    by_cases hut : u = t
    · simp [Shared.after, hut, Phase.pending] at hu
    · refine h.valid u j x ?_
      simpa [Shared.after, Function.update_of_ne hut] using hu

/-- Every step of a thread keeps the leaves apart. -/
theorem Owned.step (hN : 2 ≤ N) (h : s.Owned) {e : InsertEvent T I K V} (hvalid : e.Valid)
    (hstep : Stepped s e s') : s'.Owned := by
  cases hstep with
  | called hidle =>
    refine h.goto (fun c hc _ => h.spare _ c hc (by rw [hidle]; rfl))
      (fun hprep => by cases hprep) ?_ _ _
    intro i k hpending
    cases hpending
    exact hvalid
  | held hphase hpre =>
    refine h.goto (fun c hc _ => h.spare _ c hc (by rw [hphase]; rfl)) (fun _ => ⟨_, hpre⟩) ?_ _ _
    intro i k hpending
    cases hpending
    exact h.valid _ _ _ (by rw [hphase]; rfl)
  | drawn hphase hpre =>
    refine (h.draw _).goto (fun c hc _ => h.drawn hc)
      (fun _ => ⟨_, Function.update_self _ _ _⟩) ?_ _ _
    intro i k hpending
    cases hpending
    exact h.valid _ _ _ (by rw [hphase]; rfl)
  | done hphase hpre hres => exact h.after hN hphase hpre hres
  | kept hphase =>
    exact h.goto (fun c hc _ => h.spare _ c hc (by rw [hphase]; rfl))
      (fun hprep => by cases hprep) (fun _ _ hpending => by cases hpending) _ _
  | replaced hphase hpre =>
    exact (h.draw _).goto (fun c hc _ => h.drawn hc)
      (fun hprep => by cases hprep) (fun _ _ hpending => by cases hpending) _ _

end Shared
end Owned

section Counted
variable [Fintype T] {s s' : Shared T I N K V} {t : T}

def Shared.holders (s : Shared T I N K V) : Finset T :=
  Finset.univ.filter (fun t => (s.preAllocLeafNode t).isSome)

/-- One leaf for every call that returned true and one for every thread that has a leaf. -/
def Shared.Counted (s : Shared T I N K V) : Prop :=
  s.alloc.allocated = s.returned.count true + s.holders.card

variable [DecidableEq T] [Inhabited V]

theorem Shared.holders_draw [KeyType K] : (s.draw t).holders = insert t s.holders := by
  ext u
  simp only [holders, Finset.mem_insert, Finset.mem_filter, Finset.mem_univ, true_and]
  by_cases hu : u = t
  · simp [draw, hu]
  · simp [draw, hu]

variable [DecidableEq I] [KeyType K] [StdSort]

theorem Shared.Counted.step (h : s.Counted) {e : InsertEvent T I K V} (hstep : Stepped s e s') :
    s'.Counted := by
  unfold Counted at h ⊢
  cases hstep with
  | called hidle => exact h
  | held hphase hpre => exact h
  | @drawn t tree k v hphase hpre =>
    have hnot : t ∉ s.holders := by simp [holders, hpre]
    change s.alloc.allocated + 1 = s.returned.count true + (s.draw t).holders.card
    rw [holders_draw, Finset.card_insert_of_notMem hnot, h]
    omega
  | done hphase hpre hres => exact h
  | kept hphase =>
    change s.alloc.allocated = (false :: s.returned).count true + s.holders.card
    rw [List.count_cons_of_ne (by decide), h]
  | @replaced t tree c hphase hpre =>
    have hmem : t ∈ s.holders := by simp [holders, hpre]
    change s.alloc.allocated + 1 = (true :: s.returned).count true + (s.draw t).holders.card
    rw [holders_draw, Finset.insert_eq_self.mpr hmem, h, List.count_cons_self]
    omega

end Counted

section Distinct
variable [LinearOrder K] [BoundedOrder K]

/-- No two calls are for one key of one tree: a pending key is in no tree yet and pending
nowhere else. -/
structure Shared.Distinct (s : Shared T I N K V) : Prop where
  stands : ∀ i, Stands (fun a b => a < b) s.mem (s.trees i) (s.inserted i)
  pending : ∀ t i k, (s.phase t).pending = some (i, k) →
    (i, k) ∈ s.issued ∧ k ∉ (s.inserted i).map Prod.fst
  alone : ∀ t u x, (s.phase t).pending = some x → (s.phase u).pending = some x → t = u
  issued : ∀ i, ∀ e ∈ s.inserted i, (i, e.1) ∈ s.issued

namespace Shared
variable {s s' : Shared T I N K V}

theorem Distinct.init (m : Mem N K V) : (init m : Shared T I N K V).Distinct where
  stands _ := Or.inl ⟨rfl, rfl⟩
  pending _ _ _ h := nomatch h
  alone _ _ _ h := nomatch h
  issued _ e he := absurd he (Multiset.notMem_zero e)

theorem Distinct.sub (h : s.Distinct)
    (hstands : ∀ i, Stands (fun a b => a < b) s'.mem (s'.trees i) (s'.inserted i))
    (hsub : ∀ t x, (s'.phase t).pending = some x → (s.phase t).pending = some x)
    (hissued : s'.issued = s.issued) (hinserted : s'.inserted = s.inserted) : s'.Distinct where
  stands := hstands
  pending t i k hk := by
    rw [hissued, hinserted]
    exact h.pending t i k (hsub t _ hk)
  alone t u x hx hx' := h.alone t u x (hsub t x hx) (hsub u x hx')
  issued := by
    rw [hissued, hinserted]
    exact h.issued

variable [DecidableEq T]

omit [LinearOrder K] [BoundedOrder K] in
theorem pending_update {phase : T → Phase I K V} {t : T} {p : Phase I K V}
    (hp : ∀ x, p.pending = some x → (phase t).pending = some x) (u : T) (x : I × K)
    (hx : (Function.update phase t p u).pending = some x) : (phase u).pending = some x := by
  by_cases hu : u = t
  · rw [hu, Function.update_self] at hx
    rw [hu]
    exact hp x hx
  · rwa [Function.update_of_ne hu] at hx

variable [DecidableEq I] [Inhabited V] [StdSort]

omit [DecidableEq T] [DecidableEq I] in
/-- A pending insert of a key that is not in the tree: no ASSERT fails. -/
theorem Distinct.insertCore (hN : 2 ≤ N) (h : s.Distinct) (hown : s.Owned) {t : T} {i : I} {k : K}
    {v : V} {c : Ptr} (hphase : s.phase t = .ready i k v) (hpre : s.preAllocLeafNode t = some c) :
    ∃ res, (s.trees i).insertCore s.mem k v (some c) = .ok res ∧
      Stands (fun a b => a < b) res.1 res.2.1 ((k, v) ::ₘ s.inserted i) := by
  have hpending : (s.phase t).pending = some (i, k) := by
    rw [hphase]
    rfl
  have hkey := hown.valid t i k hpending
  obtain ⟨hnew, hout⟩ := hown.spare t c hpre (by rw [hphase]; rfl)
  obtain ⟨res, hres, hstands, -⟩ := ((h.stands i).insertCore hN Bound.lt hkey
    (fun _ => (h.pending t i k hpending).2) (hout i) hnew v).2 ((h.stands i).not_collides hkey)
  exact ⟨res, hres, hstands⟩

omit [DecidableEq I] [StdSort] [Inhabited V] in
theorem Distinct.called (h : s.Distinct) (t : T) {i : I} {k : K} (v : V)
    (hnew : (i, k) ∉ s.issued) :
    Distinct { s.goto t (.entered i k v) with issued := (i, k) :: s.issued } := by
  have hnone : ∀ u, (s.phase u).pending ≠ some (i, k) :=
    fun u hu => hnew (h.pending u i k hu).1
  have hcases : ∀ u x, (Function.update s.phase t (.entered i k v) u).pending = some x →
      u = t ∧ x = (i, k) ∨ u ≠ t ∧ (s.phase u).pending = some x := by
    intro u x hx
    by_cases hu : u = t
    · rw [hu, Function.update_self] at hx
      exact Or.inl ⟨hu, (Option.some.inj hx).symm⟩
    · rw [Function.update_of_ne hu] at hx
      exact Or.inr ⟨hu, hx⟩
  refine ⟨h.stands, fun u j x hx => ?_, fun u u' x hx hx' => ?_, fun j e he => ?_⟩
  · cases hcases u (j, x) hx with
    | inl heq =>
      obtain ⟨-, hjx⟩ := heq
      obtain ⟨rfl, rfl⟩ := Prod.mk.inj hjx
      refine ⟨List.mem_cons_self, fun hmem => ?_⟩
      obtain ⟨e, he, rfl⟩ := Multiset.mem_map.mp hmem
      exact hnew (h.issued j e he)
    | inr hold =>
      obtain ⟨hmem, hfree⟩ := h.pending u j x hold.2
      exact ⟨List.mem_cons_of_mem _ hmem, hfree⟩
  · cases hcases u x hx with
    | inl heq =>
      cases hcases u' x hx' with
      | inl heq' => exact heq.1.trans heq'.1.symm
      | inr hold' => exact absurd (heq.2 ▸ hold'.2) (hnone u')
    | inr hold =>
      cases hcases u' x hx' with
      | inl heq' => exact absurd (heq'.2 ▸ hold.2) (hnone u)
      | inr hold' => exact h.alone u u' x hold.2 hold'.2
  · exact List.mem_cons_of_mem _ (h.issued j e he)

theorem Distinct.done (hN : 2 ≤ N) (h : s.Distinct) (hown : s.Owned) {t : T} {i : I} {k : K}
    {v : V} {c : Ptr} {res : Mem N K V × XTree K × Bool} (hphase : s.phase t = .ready i k v)
    (hpre : s.preAllocLeafNode t = some c)
    (hres : (s.trees i).insertCore s.mem k v (some c) = .ok res) :
    (s.after t i k v res).Distinct := by
  obtain ⟨res', hres', hstands⟩ := h.insertCore hN hown hphase hpre
  obtain rfl := Except.ok.inj (hres.symm.trans hres')
  obtain ⟨-, -, hother⟩ := hown.handed hN hphase hpre hres
  have hpending : (s.phase t).pending = some (i, k) := by
    rw [hphase]
    rfl
  have hsub : ∀ u x, (Function.update s.phase t (.inserted i res.2.2) u).pending = some x →
      (s.phase u).pending = some x := pending_update (fun x hx => by cases hx)
  have hgone : ∀ u x, (Function.update s.phase t (.inserted i res.2.2) u).pending = some x →
      x ≠ (i, k) := by
    intro u x hx heq
    have hu := h.alone t u x (heq ▸ hpending) (hsub u x hx)
    rw [← hu, Function.update_self] at hx
    cases hx
  have hins : ∀ j, (s.after t i k v res).inserted j =
      if j = i then (k, v) ::ₘ s.inserted i else s.inserted j := by
    intro j
    simp [Shared.after, Function.update_apply]
  refine ⟨fun j => ?_, fun u j x hx => ?_, fun u u' x hx hx' => ?_, fun j e he => ?_⟩
  · by_cases hj : j = i
    · simpa [Shared.after, hj] using hstands
    · simpa [Shared.after, Function.update_of_ne hj] using (h.stands j).congr (hother j hj)
  · obtain ⟨hmem, hfree⟩ := h.pending u j x (hsub u _ hx)
    refine ⟨hmem, fun hin => ?_⟩
    rw [hins] at hin
    split at hin
    · next hj =>
      rw [Multiset.map_cons, Multiset.mem_cons, ← hj] at hin
      cases hin with
      | inl heq => exact hgone u (j, x) hx (Prod.ext hj heq)
      | inr hin => exact hfree hin
    · exact hfree hin
  · exact h.alone u u' x (hsub u x hx) (hsub u' x hx')
  · rw [hins] at he
    split at he
    · next hj =>
      cases Multiset.mem_cons.mp he with
      | inl heq =>
        rw [heq, hj]
        exact (h.pending t i k hpending).1
      | inr he => exact h.issued j e (hj ▸ he)
    · exact h.issued j e he

theorem Distinct.step (hN : 2 ≤ N) (h : s.Distinct) (hown : s.Owned) {e : InsertEvent T I K V}
    (hstep : Stepped s e s') (hnodup : s'.issued.Nodup) : s'.Distinct := by
  cases hstep with
  | called hidle => exact h.called _ _ (List.nodup_cons.mp hnodup).1
  | held hphase hpre =>
    refine h.sub h.stands (pending_update fun x hx => ?_) rfl rfl
    rw [hphase]
    exact hx
  | drawn hphase hpre =>
    refine h.sub (fun i => (h.stands i).congr fun p hp => ?_) (pending_update fun x hx => ?_)
      rfl rfl
    · exact Function.update_of_ne (hown.allocated i p hp).ne _ _
    · change (s.phase _).pending = some x
      rw [hphase]
      exact hx
  | done hphase hpre hres => exact h.done hN hown hphase hpre hres
  | kept hphase =>
    exact h.sub h.stands (pending_update fun x hx => by cases hx) rfl rfl
  | replaced hphase hpre =>
    refine h.sub (fun i => (h.stands i).congr fun p hp => ?_)
      (pending_update fun x hx => by cases hx) rfl rfl
    exact Function.update_of_ne (hown.allocated i p hp).ne _ _

end Shared
end Distinct

section Runs
variable [LinearOrder K] [BoundedOrder K] [Inhabited V] [StdSort] [DecidableEq T] [DecidableEq I]
  [Fintype T]

/-- Any threads, any trees, any interleaving: every leaf is linked at most once, a thread never
keeps a linked leaf behind its call, and no leaf is allocated that the calls do not account
for. Only the last but one fact needs the keys to be distinct. -/
theorem leaves_linked_once (hN : 2 ≤ N) (m : Mem N K V) {es : List (InsertEvent T I K V)}
    {s : Shared T I N K V} (hrun : run Shared.step es (.init m) = some s)
    (hkeys : ∀ e ∈ es, e.Valid) :
    (∀ i, (s.trees i).leaves.Nodup) ∧
    (∀ i j, i ≠ j → (s.trees i).leaves.Disjoint (s.trees j).leaves) ∧
    (∀ t c, s.preAllocLeafNode t = some c → s.phase t = .idle → ∀ i, c ∉ (s.trees i).leaves) ∧
    (∀ i k v, (k, v) ∈ s.inserted i → (∀ u, (k, u) ∈ s.inserted i → u = v) →
      (s.trees i).get s.mem k = .ok (some v)) ∧
    (s.issued.Nodup → ∀ e r, s.exec e = some r → ∃ s', r = .ok s') ∧
    s.alloc.allocated = s.returned.count true + s.holders.card := by
  have hinv : s.Owned ∧ s.Counted ∧ (s.issued.Nodup → s.Distinct) := by
    refine run_invariant_of (fun s : Shared T I N K V => s.Owned ∧ s.Counted ∧
      (s.issued.Nodup → s.Distinct)) InsertEvent.Valid ?_ hkeys hrun
      ⟨.init m, by simp [Shared.Counted, Shared.init, Shared.holders], fun _ => .init m⟩
    intro s e s' hstep hvalid h
    obtain ⟨hown, hcount, hdistinct⟩ := h
    have hstepped := hown.prepared.step hstep
    refine ⟨hown.step hN hvalid hstepped, hcount.step hstepped, fun hnodup => ?_⟩
    have hsub : s.issued.Nodup := by
      cases hstepped with
      | called hidle => exact (List.nodup_cons.mp hnodup).2
      | _ => exact hnodup
    exact (hdistinct hsub).step hN hown hstepped hnodup
  obtain ⟨hown, hcount, hdistinct⟩ := hinv
  refine ⟨fun i => (hown.keeps i).1.nodup, fun i j hij p hp => hown.disjoint i j hij p hp,
    fun t c hc hidle => (hown.spare t c hc (by rw [hidle]; rfl)).2, ?_, ?_, hcount⟩
  · intro i k v hin hone
    obtain ⟨u, hget, hu⟩ := (hown.keeps i).get hN hin
    rw [hget, hone u hu]
  · intro hnodup e r hexec
    cases hown.prepared.exec hexec with
    | inl hok =>
      obtain ⟨s', heq, -⟩ := hok
      exact ⟨s', heq⟩
    | inr herr =>
      obtain ⟨t, i, k, v, c, f, hphase, hpre, hres, -⟩ := herr
      obtain ⟨res, hok, -⟩ := (hdistinct hnodup).insertCore hN hown hphase hpre
      rw [hok] at hres
      cases hres

end Runs

/-- Two threads that insert the key 3 into two trees at the same time. -/
theorem leaves_linked_once_two :
    letI := insertionStdSort
    letI calls : List (InsertEvent (Fin 2) (Fin 2) XKey ℕ) :=
      [.call 0 0 3 30, .call 1 1 3 31, .initPreAllocedLeaf 1, .initPreAllocedLeaf 0, .insertCore 0,
        .insertCore 1, .takePreAllocedLeaf 1, .takePreAllocedLeaf 0]
    ∃ s, run Shared.step calls (.init (fun _ => XNode.new : Mem 2 XKey ℕ)) = some s ∧
      (∀ i, (s.trees i).leaves.Nodup) ∧
      s.alloc.allocated = s.returned.count true + s.holders.card := by
  let : StdSort := insertionStdSort
  obtain ⟨s, hrun⟩ := Option.isSome_iff_exists.mp (show (run Shared.step
    ([.call 0 0 3 30, .call 1 1 3 31, .initPreAllocedLeaf 1, .initPreAllocedLeaf 0, .insertCore 0,
        .insertCore 1, .takePreAllocedLeaf 1, .takePreAllocedLeaf 0] :
        List (InsertEvent (Fin 2) (Fin 2) XKey ℕ))
    (.init (fun _ => XNode.new : Mem 2 XKey ℕ))).isSome = true by decide +kernel)
  have hkey : (3 : XKey) ≠ ⊤ := by decide
  obtain ⟨hnodup, -, -, -, -, hcount⟩ := leaves_linked_once (le_refl 2) _ hrun
    (by simp [InsertEvent.Valid, hkey])
  exact ⟨s, hrun, hnodup, hcount⟩

/-- A thread that has not inserted yet has no leaf: after one call by one of two threads there
are two leaves for one call that returned true. -/
theorem leaves_not_one_per_thread :
    letI := insertionStdSort
    ¬ ∀ (es : List (InsertEvent (Fin 2) (Fin 1) XKey ℕ)) (s : Shared (Fin 2) (Fin 1) 2 XKey ℕ),
      run Shared.step es (.init (fun _ => XNode.new)) = some s →
        s.alloc.allocated = s.returned.count true + Fintype.card (Fin 2) := by
  let : StdSort := insertionStdSort
  intro hall
  have hout : (run Shared.step ([.call 0 0 3 30, .initPreAllocedLeaf 0, .insertCore 0,
      .takePreAllocedLeaf 0] : List (InsertEvent (Fin 2) (Fin 1) XKey ℕ))
      (.init (fun _ => XNode.new : Mem 2 XKey ℕ))).map
        (fun s => (s.alloc.allocated, s.returned)) = some (2, [true]) := by decide +kernel
  obtain ⟨s, hrun, heq⟩ := Option.map_eq_some_iff.mp hout
  obtain ⟨halloc, hret⟩ := Prod.mk.inj heq
  have hcount := hall _ s hrun
  rw [halloc, hret] at hcount
  exact absurd hcount (by decide)

end XStore.Xkv
