import XStore.Xkv.Run
import Mathlib.Order.Fin.Basic

/-! Repeated keys: a leaf split can hand up a separator that its parent already holds, and
the ASSERT on the split threshold then fails. -/
namespace XStore.Xkv
open XStore.Lib
variable {N : ℕ} {K V : Type} [LinearOrder K] [BoundedOrder K]

/-- A run goes through exactly when none of its inserts collides in the world it meets. -/
theorem insertAll_ok_iff [StdSort] [Inhabited V] (hN : 2 ≤ N) (m : Mem N K V)
    (ops : List (K × V)) (hkeys : ∀ op ∈ ops, op.1 ≠ ⊤) :
    (∃ w, (World.init m).insertAll ops = .ok w) ↔
      ∀ before op after w, ops = before ++ op :: after →
        (World.init m).insertAll before = .ok w → ¬ w.Collides op.1 := by
  rcases Ready.insertAll_iff hN (Or.inl ⟨m, rfl, rfl⟩) ops hkeys with
    ⟨⟨w, hrun, -⟩, hall⟩ | ⟨herr, before, op, after, w, heq, hrun, hcol⟩
  · exact ⟨fun _ => hall, fun _ => ⟨w, hrun⟩⟩
  · constructor
    · rintro ⟨w', hok⟩
      rw [herr] at hok
      cases hok
    · intro hnone
      exact absurd hcol (hnone before op after w heq hrun)

/-- The run stops nowhere else: the ASSERT on the split threshold is the only failure. -/
theorem insertAll_error [StdSort] [Inhabited V] (hN : 2 ≤ N) (m : Mem N K V)
    (ops : List (K × V)) (hkeys : ∀ op ∈ ops, op.1 ≠ ⊤) {f : Fault}
    (herr : (World.init m).insertAll ops = .error f) : f = .assert .splitThreshold := by
  rcases Ready.insertAll_iff hN (Or.inl ⟨m, rfl, rfl⟩) ops hkeys with
    ⟨⟨w, hrun, -⟩, -⟩ | ⟨herr', -⟩
  · rw [hrun] at herr
    cases herr
  · rw [herr'] at herr
    exact (Except.error.inj herr).symm

/-- Two keys a node: the third 5 hands up a separator 5 and the first 4 another one. The
second 4 hands a third 5 to the full root, whose middle separator is 5, from child 0. -/
theorem insertAll_repeats_assert :
    letI := insertionStdSort
    ¬ ∀ ops : List (XKey × ℕ), (∀ op ∈ ops, op.1 ≠ ⊤) →
      ∃ w, (World.init (fun _ => XNode.new : Mem 2 XKey ℕ)).insertAll ops = .ok w := by
  let : StdSort := insertionStdSort
  intro h
  obtain ⟨w, hw⟩ := h [(5, 0), (5, 1), (5, 2), (4, 3), (4, 4)] (by decide)
  have herr : ((World.init (fun _ => XNode.new : Mem 2 XKey ℕ)).insertAll
      [(5, 0), (5, 1), (5, 2), (4, 3), (4, 4)]).isOk = false := by decide +kernel
  rw [hw] at herr
  cases herr

theorem insertAll_ok_iff_two :
    letI := insertionStdSort
    (∃ w, (World.init (fun _ => XNode.new : Mem 2 XKey ℕ)).insertAll [(5, 0), (5, 1)] = .ok w) ↔
      ∀ before op after w, [((5 : XKey), 0), (5, 1)] = before ++ op :: after →
        (World.init (fun _ => XNode.new : Mem 2 XKey ℕ)).insertAll before = .ok w →
          ¬ w.Collides op.1 := by
  let : StdSort := insertionStdSort
  exact insertAll_ok_iff (le_refl 2) (fun _ => XNode.new : Mem 2 XKey ℕ) _ (by decide)

end XStore.Xkv
