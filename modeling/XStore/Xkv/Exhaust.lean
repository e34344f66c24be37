import XStore.Lib.Runs
import XStore.Xkv.Pinned

/-! `insert_w_alloc` with an allocator that runs out (xalloc.hh). `value()` on an empty Option
raises, and a caller that catches goes on with whatever the insert had done by then. -/
namespace XStore.Xkv
open XStore.Lib
variable {N S : ℕ} {K V A : Type}

/-- `XAlloc`: a slab that hands out blocks of `S` bytes one behind the other. The pool stands
in memory, so the sum of its size and a block's does not wrap. -/
structure XAlloc (S : ℕ) where
  memPool : Ptr
  totalSz : ℕ
  curAllocSz : ℕ
  curAllocNum : ℕ

instance : AllocTrait (XAlloc S) where
  alloc a :=
    if a.curAllocSz + S ≤ a.totalSz then
      (some (a.memPool + a.curAllocSz),
        { a with curAllocSz := a.curAllocSz + S, curAllocNum := a.curAllocNum + 1 })
    else (none, a)

def XAlloc.HasRoom (a : XAlloc S) (n : ℕ) : Prop := a.curAllocSz + n * S ≤ a.totalSz

namespace World
variable [KeyType K] [Inhabited V] [AllocTrait A]

/-- A call whose `value()` may raise, with the world `w` that it leaves behind then. -/
def caught {α : Type} (w : World N K V A) (call : Res (World N K V A × α)) :
    Res (World N K V A × Option α) :=
  match call with
  | .ok (w', a) => .ok (w', some a)
  | .error .emptyOption => .ok (w, none)
  | .error f => .error f

/-- `insert_w_alloc` under a caller that catches: no result where `value()` raised. Step 1
raises with nothing done, the last step with the insert done. -/
def tryInsert [StdSort] (w : World N K V A) (k : K) (v : V) :
    Res (World N K V A × Option Bool) := do
  let (w, held) ← w.caught <| match w.preAllocLeafNode with
    | none => do
      let w ← w.initPreAllocedLeaf
      pure (w, ())
    | some _ => pure (w, ())
  match held with
  | none => pure (w, none)
  | some _ => do
    let (m, t, ret) ← w.tree.insertCore w.mem k v w.preAllocLeafNode
    let w := { w with mem := m, tree := t }
    w.caught <| if ret then do
        let w ← w.takePreAllocedLeaf
        pure (w, ret)
      else pure (w, ret)

section Steps
variable [StdSort] {w w₁ : World N K V A} {k : K} {v : V} {c : Ptr}

theorem tryInsert_held (hpre : w.preAllocLeafNode = some c) :
    w.tryInsert k v = (do
      let (m, t, ret) ← w.tree.insertCore w.mem k v (some c)
      let w := { w with mem := m, tree := t }
      w.caught <| if ret then do
          let w ← w.takePreAllocedLeaf
          pure (w, ret)
        else pure (w, ret)) := by
  simp only [tryInsert, hpre, caught, pure_eq_ok, ok_bind]

theorem tryInsert_init (hpre : w.preAllocLeafNode = none) (hinit : w.initPreAllocedLeaf = .ok w₁) :
    w.tryInsert k v = w₁.tryInsert k v := by
  obtain ⟨c, hc⟩ := initPreAllocedLeaf_held hinit
  rw [tryInsert_held hc]
  simp only [tryInsert, hpre, hinit, hc, caught, pure_eq_ok, ok_bind]

theorem tryInsert_value (w : World N K V A) (k : K) (v : V) :
    (do
      let (w, ret) ← w.tryInsert k v
      let ret ← need ret .emptyOption
      pure (w, ret)) = w.insertWAlloc k v := by
  have hheld : ∀ (w : World N K V A) (c : Ptr), w.preAllocLeafNode = some c → (do
      let (w, ret) ← w.tryInsert k v
      let ret ← need ret .emptyOption
      pure (w, ret)) = w.insertWAlloc k v := by
    intro w c hc
    rw [tryInsert_held hc]
    simp only [insertWAlloc, hc, pure_eq_ok, ok_bind]
    cases w.tree.insertCore w.mem k v (some c) with
    | error e => rfl
    | ok res =>
      obtain ⟨m, t, ret⟩ := res
      cases ret with
      | false => rfl
      | true =>
        simp only [ok_bind, if_true, takePreAllocedLeaf, initPreAllocedLeaf]
        cases AllocTrait.alloc w.alloc with
        | mk p a => cases p <;> rfl
  cases hpre : w.preAllocLeafNode with
  | some c => exact hheld w c hpre
  | none =>
    cases hinit : w.initPreAllocedLeaf with
    | ok w₁ =>
      rw [tryInsert_init hpre hinit, insertWAlloc_init hpre hinit]
      obtain ⟨c, hc⟩ := initPreAllocedLeaf_held hinit
      exact hheld w₁ c hc
    | error e =>
      simp only [tryInsert, insertWAlloc, hpre, hinit, error_bind]
      unfold initPreAllocedLeaf at hinit
      split at hinit
      · cases hinit
      · cases hinit
        rfl

end Steps
end World

section Exhausts
variable [LinearOrder K] [BoundedOrder K]

/-- The insert takes the pre-allocated leaf, and the allocator has no block to replace it. -/
def World.Exhausts (w : World N K V (XAlloc S)) (k : K) : Prop :=
  w.tree.Takes w.mem k ∧
    match w.preAllocLeafNode with
    | none => w.alloc.HasRoom 1 ∧ ¬ w.alloc.HasRoom 2
    | some _ => ¬ w.alloc.HasRoom 1

section Pool
variable [Inhabited V] {w : World N K V (XAlloc S)}

def World.draw (w : World N K V (XAlloc S)) : World N K V (XAlloc S) where
  mem := Function.update w.mem (w.alloc.memPool + w.alloc.curAllocSz) XNode.new
  alloc := { w.alloc with curAllocSz := w.alloc.curAllocSz + S
                          curAllocNum := w.alloc.curAllocNum + 1 }
  preAllocLeafNode := some (w.alloc.memPool + w.alloc.curAllocSz)
  tree := w.tree

theorem World.initPreAllocedLeaf_room (h : w.alloc.HasRoom 1) :
    w.initPreAllocedLeaf = .ok w.draw := by
  unfold XAlloc.HasRoom at h
  rw [one_mul] at h
  simp only [initPreAllocedLeaf, AllocTrait.alloc, if_pos h, draw]

theorem World.initPreAllocedLeaf_full (h : ¬ w.alloc.HasRoom 1) :
    w.initPreAllocedLeaf = .error .emptyOption := by
  unfold XAlloc.HasRoom at h
  rw [one_mul] at h
  simp only [initPreAllocedLeaf, AllocTrait.alloc, if_neg h]

theorem World.hasRoom_draw (n : ℕ) : w.draw.alloc.HasRoom n ↔ w.alloc.HasRoom (n + 1) := by
  simp only [draw, XAlloc.HasRoom, Nat.succ_mul]
  omega

end Pool

/-- A run of inserts into one tree over one pool: the world, and the inserts that completed. -/
structure Pooled (S N : ℕ) (K V : Type) where
  world : World N K V (XAlloc S)
  completed : List (K × V)

namespace Pooled
variable [Inhabited V]

def init (m : Mem N K V) (memPool : Ptr) (totalSz : ℕ) : Pooled S N K V where
  world := ⟨m, ⟨memPool, totalSz, 0, 0⟩, none, XTree.new⟩
  completed := []

def step [StdSort] (p : Pooled S N K V) (op : K × V) : Option (Pooled S N K V) :=
  match p.world.tryInsert op.1 op.2 with
  | .ok (w, some _) => some ⟨w, op :: p.completed⟩
  | .ok (w, none) => some ⟨w, p.completed⟩
  | .error _ => none

/-- The pre-allocated leaf is not in the tree, and every completed insert is found. -/
def Sound (p : Pooled S N K V) : Prop :=
  (∀ c, p.world.preAllocLeafNode = some c → c ∉ p.world.tree.leaves) ∧
    ∀ op ∈ p.completed, p.world.get op.1 = .ok (some op.2)

/-- The insert leaves a block to take, and gives no key a second value. -/
def Safe (p : Pooled S N K V) (op : K × V) : Prop :=
  ¬ p.world.Exhausts op.1 ∧ ∀ v, (op.1, v) ∈ p.completed → v = op.2

/-- The tree holds the completed inserts in blocks of the pool that were handed out. -/
structure Stored (p : Pooled S N K V) : Prop where
  keeps : Keeps p.world.mem p.world.tree ↑p.completed
  below : ∀ q ∈ p.world.tree.leaves, q < p.world.alloc.memPool + p.world.alloc.curAllocSz

structure Inv (p : Pooled S N K V) : Prop extends Stored p where
  spare : ∀ c, p.world.preAllocLeafNode = some c →
    c < p.world.alloc.memPool + p.world.alloc.curAllocSz ∧ c ∉ p.world.tree.leaves ∧
      p.world.mem c = XNode.new
  unheld : p.world.preAllocLeafNode = none → p.world.tree = XTree.new

def Single (ops : List (K × V)) : Prop := ∀ k u v, (k, u) ∈ ops → (k, v) ∈ ops → u = v

variable {p p' : Pooled S N K V} {w w' : World N K V (XAlloc S)} {k : K} {v : V} {c : Ptr}
  {completed : List (K × V)} {out : Option Bool}

theorem Inv.init (m : Mem N K V) (memPool : Ptr) (totalSz : ℕ) :
    (init m memPool totalSz : Pooled S N K V).Inv where
  keeps := Keeps.new
  below _ hq := nomatch hq
  spare _ h := nomatch h
  unheld _ := rfl

theorem Inv.sound (hN : 2 ≤ N) (h : p.Inv) (hsingle : Single p.completed) : p.Sound := by
  refine ⟨fun c hc => (h.spare c hc).2.1, fun op hop => ?_⟩
  obtain ⟨u, hget, hu⟩ := h.keeps.get hN (Multiset.mem_coe.mpr hop)
  rw [hsingle op.1 u op.2 (Multiset.mem_coe.mp hu) hop] at hget
  exact hget

omit [Inhabited V] in
theorem Sound.single (h : p.Sound) : Single p.completed := by
  intro k u v hu hv
  exact Option.some.inj (Except.ok.inj ((h.2 _ hu).symm.trans (h.2 _ hv)))

theorem Stored.draw (hS : 0 < S) (h : Stored ⟨w, completed⟩) : Inv ⟨w.draw, completed⟩ where
  keeps := h.keeps.congr (fun q hq => Function.update_of_ne (h.below q hq).ne _ _)
  below q hq := (h.below q hq).trans (Nat.add_lt_add_left (Nat.lt_add_of_pos_right hS) _)
  spare c hc := by
    obtain rfl := Option.some.inj hc
    exact ⟨Nat.add_lt_add_left (Nat.lt_add_of_pos_right hS) _,
      fun hq => lt_irrefl _ (h.below _ hq), Function.update_self _ _ _⟩
  unheld hnone := by cases hnone

variable [StdSort]

/-- What an insert with a leaf at hand leaves behind. -/
theorem Inv.tryInsert (hN : 2 ≤ N) (hS : 0 < S) (h : Inv ⟨w, completed⟩)
    (hpre : w.preAllocLeafNode = some c) (hkey : k ≠ ⊤)
    (hout : w.tryInsert k v = .ok (w', out)) :
    (w.Exhausts k ∧ out = none ∧ w'.preAllocLeafNode = some c ∧ c ∈ w'.tree.leaves) ∨
      ¬ w.Exhausts k ∧ out ≠ none ∧ Inv ⟨w', (k, v) :: completed⟩ := by
  obtain ⟨mem, alloc, pre, tree⟩ := w
  obtain rfl : pre = some c := hpre
  obtain ⟨hlt, hc, hfresh⟩ := h.spare c rfl
  rw [World.tryInsert_held rfl] at hout
  cases hres : tree.insertCore mem k v (some c) with
  | error e =>
    rw [hres] at hout
    cases hout
  | ok res =>
    obtain ⟨hkeeps, hhanded⟩ := h.keeps.insertCore hN hkey hc hfresh hres
    have htaken := hhanded.taken
    have hleaves := hhanded.leaves
    have hspare := hhanded.spare
    obtain ⟨m, t, ret⟩ := res
    have hstored : Stored (⟨⟨m, alloc, some c, t⟩, (k, v) :: completed⟩ : Pooled S N K V) := by
      refine ⟨hkeeps, fun q hq => ?_⟩
      cases (hleaves q).mp hq with
      | inl hq => exact h.below q hq
      | inr heq => exact heq.2 ▸ hlt
    rw [hres] at hout
    simp only [ok_bind] at hout
    cases ret with
    | false =>
      have hnot : ¬ tree.Takes mem k := fun htakes => by cases htaken.mpr htakes
      obtain ⟨rfl, rfl⟩ := Prod.mk.inj (Except.ok.inj hout)
      refine Or.inr ⟨fun hx => hnot hx.1, by simp, hstored, fun c' hc' => ?_, nofun⟩
      obtain rfl := Option.some.inj hc'
      refine ⟨hlt, fun hin => ?_, (hspare rfl).trans hfresh⟩
      cases (hleaves c).mp hin with
      | inl hin => exact hc hin
      | inr hfalse => cases hfalse.1
    | true =>
      have htakes := htaken.mp rfl
      simp only [if_true, World.takePreAllocedLeaf] at hout
      by_cases hroom : alloc.HasRoom 1
      · have hinit := World.initPreAllocedLeaf_room (w := ⟨m, alloc, some c, t⟩) hroom
        rw [hinit] at hout
        obtain ⟨rfl, rfl⟩ := Prod.mk.inj (Except.ok.inj hout)
        exact Or.inr ⟨fun hx => hx.2 hroom, by simp, hstored.draw hS⟩
      · have hinit := World.initPreAllocedLeaf_full (w := ⟨m, alloc, some c, t⟩) hroom
        rw [hinit] at hout
        obtain ⟨rfl, rfl⟩ := Prod.mk.inj (Except.ok.inj hout)
        exact Or.inl ⟨⟨htakes, hroom⟩, rfl, rfl, (hleaves c).mpr (Or.inr ⟨rfl, rfl⟩)⟩

theorem step_eq {op : K × V} (hstep : step ⟨w, completed⟩ op = some p') :
    ∃ w' out, w.tryInsert op.1 op.2 = .ok (w', out) ∧
      (out = none → p' = ⟨w', completed⟩) ∧ (out ≠ none → p' = ⟨w', op :: completed⟩) := by
  unfold step at hstep
  split at hstep
  · next w' ret hout =>
    exact ⟨w', some ret, hout, nofun, fun _ => (Option.some.inj hstep).symm⟩
  · next w' hout => exact ⟨w', none, hout, fun _ => (Option.some.inj hstep).symm, nofun⟩
  · cases hstep

omit [LinearOrder K] [BoundedOrder K] [Inhabited V] [StdSort] in
theorem single_cons {op : K × V} (hsingle : Single completed) :
    Single (op :: completed) ↔ ∀ v, (op.1, v) ∈ completed → v = op.2 := by
  constructor
  · exact fun h v hv => h op.1 v op.2 (List.mem_cons_of_mem _ hv) List.mem_cons_self
  · intro h k u v hu hv
    cases List.mem_cons.mp hu with
    | inl hu' =>
      cases List.mem_cons.mp hv with
      | inl hv' => exact congrArg Prod.snd (hu'.trans hv'.symm)
      | inr hv' =>
        obtain rfl := hu'
        exact (h v hv').symm
    | inr hu' =>
      cases List.mem_cons.mp hv with
      | inl hv' =>
        obtain rfl := hv'
        exact h u hu'
      | inr hv' => exact hsingle k u v hu' hv'

/-- A safe insert keeps the invariant, and any other shows in the state behind it. -/
theorem Inv.step_held (hN : 2 ≤ N) (hS : 0 < S) (h : Inv ⟨w, completed⟩)
    (hpre : w.preAllocLeafNode = some c) (hsingle : Single completed) {op : K × V}
    (hkey : op.1 ≠ ⊤) (hstep : Pooled.step ⟨w, completed⟩ op = some p') :
    (Safe ⟨w, completed⟩ op → p'.Inv ∧ Single p'.completed) ∧
      (p'.Sound → Safe ⟨w, completed⟩ op) := by
  obtain ⟨w', out, hout, hnone, hsome⟩ := step_eq hstep
  cases h.tryInsert hN hS hpre hkey hout with
  | inl hbad =>
    obtain ⟨hex, hraised, hpre', hin⟩ := hbad
    refine ⟨fun hsafe => absurd hex hsafe.1, fun hsound => ?_⟩
    rw [hnone hraised] at hsound
    exact absurd hin (hsound.1 c hpre')
  | inr hgood =>
    obtain ⟨hex, hdone, hinv⟩ := hgood
    rw [hsome hdone]
    refine ⟨fun hsafe => ⟨hinv, (single_cons hsingle).mpr hsafe.2⟩, fun hsound => ⟨hex, ?_⟩⟩
    exact (single_cons hsingle).mp hsound.single

theorem Inv.step (hN : 2 ≤ N) (hS : 0 < S) (h : p.Inv) (hsingle : Single p.completed)
    {op : K × V} (hkey : op.1 ≠ ⊤) (hstep : p.step op = some p') :
    (p.Safe op → p'.Inv ∧ Single p'.completed) ∧ (p'.Sound → p.Safe op) := by
  obtain ⟨w, completed⟩ := p
  cases hpre : w.preAllocLeafNode with
  | some c => exact h.step_held hN hS hpre hsingle hkey hstep
  | none =>
    have hnew : w.tree = XTree.new := h.unheld hpre
    by_cases hroom : w.alloc.HasRoom 1
    · -- step 1 draws a leaf; what is left is the insert of a thread that has one
      have hinit := World.initPreAllocedLeaf_room hroom
      have htry : Pooled.step ⟨w.draw, completed⟩ op = some p' := by
        rw [← hstep]
        simp only [Pooled.step, World.tryInsert_init hpre hinit]
      have htakes : ∀ m : Mem N K V, w.tree.Takes m op.1 := by
        rw [hnew]
        exact fun m => Or.inl rfl
      have hex : w.draw.Exhausts op.1 ↔ w.Exhausts op.1 := by
        have hroom₂ := w.hasRoom_draw 1
        simp only [World.Exhausts, hpre]
        exact ⟨fun hx => ⟨htakes _, hroom, fun h2 => hx.2 (hroom₂.mpr h2)⟩,
          fun hx => ⟨htakes _, fun h1 => hx.2.2 (hroom₂.mp h1)⟩⟩
      have hsafe : Safe ⟨w.draw, completed⟩ op ↔ Safe ⟨w, completed⟩ op := by
        simp only [Safe, hex]
      rw [← hsafe]
      exact (h.toStored.draw hS).step_held hN hS rfl hsingle hkey htry
    · -- step 1 raises, and nothing has happened
      have hempty : completed = [] := by
        cases h.keeps.1 with
        | inl hzero => exact Multiset.coe_eq_zero _ |>.mp hzero.2
        | inr hroot =>
          obtain ⟨root, hroot, -⟩ := hroot
          rw [hnew] at hroot
          cases hroot
      have htry : w.tryInsert op.1 op.2 = .ok (w, none) := by
        simp only [World.tryInsert, hpre, World.initPreAllocedLeaf_full hroom, error_bind,
          World.caught, ok_bind, pure_eq_ok]
      obtain rfl : (⟨w, completed⟩ : Pooled S N K V) = p' := by
        simpa [Pooled.step, htry] using hstep
      refine ⟨fun _ => ⟨h, hsingle⟩, fun _ => ⟨fun hex => ?_, by simp [hempty]⟩⟩
      have hroom' := hex.2
      simp only [hpre] at hroom'
      exact hroom hroom'.1

/-- The pre-allocated leaf stays out of the tree and every completed insert is found, exactly in
the runs of safe inserts. -/
theorem sound_iff_safe (hN : 2 ≤ N) (hS : 0 < S) (m : Mem N K V) (memPool : Ptr) (totalSz : ℕ)
    {ops : List (K × V)} (hkeys : ∀ op ∈ ops, op.1 ≠ ⊤)
    (hrun : ∃ p : Pooled S N K V, run step ops (.init m memPool totalSz) = some p) :
    AllStates step Sound ops (.init m memPool totalSz : Pooled S N K V) ↔
      AllSteps step Safe ops (.init m memPool totalSz : Pooled S N K V) := by
  have hall : ∀ p : Pooled S N K V, p.Inv → Single p.completed →
      (∃ p', run step ops p = some p') →
        (AllStates step Sound ops p ↔ AllSteps step Safe ops p) := by
    clear hrun
    induction ops with
    | nil => exact fun p h hsingle _ => ⟨fun _ => trivial, fun _ => h.sound hN hsingle⟩
    | cons op ops ih =>
      intro p h hsingle hrun
      obtain ⟨p', hrun⟩ := hrun
      obtain ⟨p₁, hstep, hrest⟩ := Option.bind_eq_some_iff.mp hrun
      obtain ⟨hsafe, hsound⟩ := h.step hN hS hsingle (hkeys op List.mem_cons_self) hstep
      constructor
      · intro hstates
        have hstates₁ := hstates.2 p₁ hstep
        have hop := hsound hstates₁.head
        obtain ⟨h₁, hsingle₁⟩ := hsafe hop
        have hsteps₁ := (ih (fun o ho => hkeys o (List.mem_cons_of_mem op ho)) p₁ h₁ hsingle₁
          ⟨p', hrest⟩).mp hstates₁
        exact .cons hstep hop hsteps₁
      · intro hsteps
        obtain ⟨h₁, hsingle₁⟩ := hsafe hsteps.1
        refine ⟨h.sound hN hsingle, fun p₂ hp₂ => ?_⟩
        obtain rfl := Option.some.inj (hstep.symm.trans hp₂)
        exact (ih (fun o ho => hkeys o (List.mem_cons_of_mem op ho)) p₁ h₁ hsingle₁
          ⟨p', hrest⟩).mpr (hsteps.2 p₁ hstep)
  exact hall _ (Inv.init m memPool totalSz) (fun k u v hu => nomatch hu) hrun

end Pooled
end Exhausts

theorem sound_iff_safe_three :
    letI := insertionStdSort
    letI start : Pooled 64 2 XKey ℕ := .init (fun _ => XNode.new) 0 192
    AllStates Pooled.step Pooled.Sound [(1, 10), (2, 20), (3, 30)] start ↔
      AllSteps Pooled.step Pooled.Safe [(1, 10), (2, 20), (3, 30)] start := by
  let : StdSort := insertionStdSort
  have hkey : (1 : XKey) ≠ ⊤ ∧ (2 : XKey) ≠ ⊤ ∧ (3 : XKey) ≠ ⊤ := by decide
  exact Pooled.sound_iff_safe (le_refl 2) (by decide) (fun _ => XNode.new : Mem 2 XKey ℕ) 0 192
    (by simp [hkey]) (Option.isSome_iff_exists.mp (by decide +kernel))

/-- A pool of two leaves: the third insert splits the only leaf into the last block, raises, and
leaves that block to the next insert as a leaf of its own. -/
theorem exhausted_leaf_linked :
    letI := insertionStdSort
    ¬ ∀ (totalSz : ℕ) (ops : List (XKey × ℕ)) (p : Pooled 64 2 XKey ℕ),
      run Pooled.step ops (.init (fun _ => XNode.new) 0 totalSz) = some p →
        AllStates Pooled.step Pooled.Sound ops
          (.init (fun _ => XNode.new) 0 totalSz : Pooled 64 2 XKey ℕ) := by
  let : StdSort := insertionStdSort
  intro hall
  have hout : (run Pooled.step [(1, 10), (2, 20), (3, 30)]
      (.init (fun _ => XNode.new) 0 128 : Pooled 64 2 XKey ℕ)).map
        (fun p => (p.world.preAllocLeafNode, p.world.tree.leaves)) = some (some 64, [0, 64]) := by
    decide +kernel
  obtain ⟨p, hrun, heq⟩ := Option.map_eq_some_iff.mp hout
  obtain ⟨hpre, hleaves⟩ := Prod.mk.inj heq
  have hsound := (hall 128 _ p hrun).last hrun
  have hnot := hsound.1 64 hpre
  rw [hleaves] at hnot
  exact hnot (by simp)

end XStore.Xkv
