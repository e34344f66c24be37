import Mathlib.Data.List.Basic
import Mathlib.Data.List.Nodup
import Mathlib.Tactic.Tauto

/-! Singly linked lists in a store: the nodes are names, `next` is the link field. -/
namespace XStore.Lib
variable {P : Type*}

/-- The names of the list are linked in this order and the last one ends the list. -/
def Linked (next : P → Option P) : List P → Prop
  | [] => True
  | p :: ps => next p = ps.head? ∧ Linked next ps

def follow (next : P → Option P) : ℕ → Option P → List P
  | 0, _ => []
  | _ + 1, none => []
  | n + 1, some p => p :: follow next n (next p)

theorem mem_splice {before after : List P} {p c q : P} :
    q ∈ before ++ p :: c :: after ↔ q = p ∨ q = c ∨ q ∈ before ++ after := by
  simp only [List.mem_append, List.mem_cons]
  tauto

theorem ne_of_nodup_middle {before after : List P} {p : P} (hn : (before ++ p :: after).Nodup) :
    ∀ q ∈ before ++ after, q ≠ p := by
  have h := List.nodup_cons.mp (List.perm_middle.nodup_iff.mp hn)
  rintro q hq rfl
  exact h.1 hq

theorem nodup_splice {before after : List P} {p c : P} (hn : (before ++ p :: after).Nodup)
    (hc : c ∉ before ++ p :: after) : (before ++ p :: c :: after).Nodup := by
  have hperm : (before ++ p :: c :: after).Perm (c :: (before ++ p :: after)) := by
    have h : (before ++ [p] ++ c :: after).Perm (c :: (before ++ [p] ++ after)) :=
      List.perm_middle
    simpa using h
  exact hperm.nodup_iff.mpr (List.nodup_cons.mpr ⟨hc, hn⟩)

namespace Linked
variable {next next' : P → Option P} {ps : List P}

theorem of_append (qs : List P) (h : Linked next (qs ++ ps)) : Linked next ps := by
  induction qs with
  | nil => exact h
  | cons q qs ih => exact ih h.2

theorem of_flatMap {Q : Type*} {f : Q → List P} {qs : List Q} {q : Q} (hq : q ∈ qs)
    (h : Linked next (qs.flatMap f)) : ∃ rest, Linked next (f q ++ rest) := by
  obtain ⟨before, after, rfl⟩ := List.append_of_mem hq
  rw [List.flatMap_append, List.flatMap_cons] at h
  exact ⟨_, h.of_append _⟩

theorem congr (heq : ∀ p ∈ ps, next' p = next p) (h : Linked next ps) : Linked next' ps := by
  induction ps with
  | nil => trivial
  | cons p ps ih =>
    refine ⟨?_, ih (fun q hq => heq q (List.mem_cons_of_mem p hq)) h.2⟩
    rw [heq p (by simp), h.1]

/-- Splicing a fresh node behind `p`: only the links of `p` and of the new node are written. -/
theorem splice (before after : List P) (p c : P)
    (h : Linked next (before ++ p :: after)) (hn : (before ++ p :: after).Nodup)
    (hp : next' p = some c) (hc : next' c = next p)
    (hother : ∀ q ∈ before ++ after, q ≠ p → next' q = next q) :
    Linked next' (before ++ p :: c :: after) := by
  induction before with
  | nil =>
    have hpn : p ∉ after := (List.nodup_cons.mp hn).1
    have hafter : Linked next' after := by
      refine h.2.congr ?_
      intro q hq
      exact hother q hq (fun he => hpn (he ▸ hq))
    exact ⟨hp, hc.trans h.1, hafter⟩
  | cons q before ih =>
    have hqp : q ≠ p := by
      intro he
      exact (List.nodup_cons.mp hn).1 (by simp [he])
    refine ⟨?_, ih h.2 (List.nodup_cons.mp hn).2
      (fun s hs => hother s (List.mem_cons_of_mem q hs))⟩
    rw [hother q (by simp) hqp, h.1]
    cases before <;> rfl

theorem follow_take (n : ℕ) (h : Linked next ps) : follow next n ps.head? = ps.take n := by
  induction ps generalizing n with
  | nil => cases n <;> rfl
  | cons p ps ih =>
    cases n with
    | zero => rfl
    | succ n => simp [follow, h.1, ih n h.2]

theorem follow_eq (n : ℕ) (h : Linked next ps) (hn : ps.length ≤ n) :
    follow next n ps.head? = ps := by
  rw [h.follow_take, List.take_of_length_le hn]

end Linked
end XStore.Lib
