import XStore.Xkv.InnerNode
import XStore.Lib.InsertIdx

/-! Insertion into one inner node, split or not, as an operation on the sequences of its
separators and children. -/
namespace XStore.Xkv
open XStore.Lib
variable {N : ℕ} {K C : Type} [LinearOrder K] [BoundedOrder K]

def halfKeys (N : ℕ) : ℕ := (N + 1) / 2 - 1

/-- What `insertToMe` leaves of the sequences `ks`, `cs` with the new separator and child
already in them: either one node, or two nodes around a separator. -/
def Holds (N : ℕ) (ks : List K) (cs : List C) (lb : ℕ) :
    TreeInner K C × Option (TreeInner K C) → Prop
  | (n, none) => n.keys = ks ∧ n.childrens = cs ∧ n.keys.length ≤ N ∧ lb < n.keys.length
  | (n, some s) => n.keys ++ s.upKey :: s.keys = ks ∧ n.childrens ++ s.childrens = cs ∧
      n.childrens.length = n.keys.length + 1 ∧
      n.keys.length ≤ N ∧ s.keys.length ≤ N ∧
      halfKeys N ≤ n.keys.length ∧ halfKeys N ≤ s.keys.length

namespace TreeInner
variable (n : TreeInner K C) (k : ℕ) (up : K) (c : C)

omit [LinearOrder K] [BoundedOrder K] in
theorem insertAtPos_ok (hk : k ≤ n.keys.length) (hroom : n.keys.length < N) :
    n.insertAtPos N up c k = .ok { n with
      keys := n.keys.insertIdx k up
      childrens := n.childrens.insertIdx (k + 1) c } := by
  simp [insertAtPos, hk, hroom]

theorem insertToMe_room (hup : up ≠ ⊤) (hk : k ≤ n.keys.length) (hroom : n.keys.length < N) :
    ∃ n', n.insertToMe N k up c = .ok (n', none) ∧
      Holds N (n.keys.insertIdx k up) (n.childrens.insertIdx (k + 1) c) n.keys.length
        (n', none) := by
  have hfull : n.full N = false := by simp [full]; omega
  refine ⟨_, by simp [insertToMe, hup, hfull, n.insertAtPos_ok k up c hk hroom]; rfl, ?_⟩
  have hlen := List.length_insertIdx_of_le_length hk up
  exact ⟨rfl, rfl, by simp only; omega, by simp only; omega⟩

omit [LinearOrder K] [BoundedOrder K] in
theorem full_parts (hN : 2 ≤ N) (hfull : n.keys.length = N) (mid : K)
    (hmid : n.keys[halfKeys N]? = some mid) :
    n.keys = n.keys.take (halfKeys N) ++ mid :: n.keys.drop (halfKeys N + 1) := by
  have hlt : halfKeys N < n.keys.length := by unfold halfKeys; omega
  rw [List.getElem?_eq_getElem hlt, Option.some.injEq] at hmid
  rw [← hmid, ← List.drop_eq_getElem_cons hlt, List.take_append_drop]

/-- The full node stops exactly where `up_key` selects the sibling although the child stands
left of the cut. -/
theorem insertToMe_error (hN : 2 ≤ N) (hup : up ≠ ⊤) (hfull : n.keys.length = N) (mid : K)
    (hmid : n.keys[halfKeys N]? = some mid) (hle : mid ≤ up) (hk : k ≤ halfKeys N) :
    n.insertToMe N k up c = .error (.assert .splitThreshold) := by
  have hthr : (N + 1) / 2 = halfKeys N + 1 := by unfold halfKeys; omega
  have hk' : ¬ halfKeys N + 1 ≤ k := by omega
  simp [insertToMe, hup, full, hfull, copyAfterNTo, empty, new, hthr, hmid, hle, hk']

section Full
variable {n k up c} {mid : K}

omit [LinearOrder K] [BoundedOrder K] in
theorem setNumKeys_keys_length (hN : 2 ≤ N) (hfull : n.keys.length = N) :
    (n.setNumKeys (halfKeys N)).keys.length = halfKeys N := by
  have hhalf : 2 * halfKeys N < N := by unfold halfKeys; omega
  change (n.keys.take (halfKeys N)).length = halfKeys N
  rw [List.length_take]
  omega

omit [LinearOrder K] [BoundedOrder K] in
theorem setNumKeys_childrens_length (hN : 2 ≤ N) (hcs : n.childrens.length = N + 1) :
    (n.setNumKeys (halfKeys N)).childrens.length = halfKeys N + 1 := by
  have hhalf : 2 * halfKeys N < N := by unfold halfKeys; omega
  change (n.childrens.take (halfKeys N + 1)).length = halfKeys N + 1
  rw [List.length_take]
  omega

def upperHalf (N : ℕ) (n : TreeInner K C) (mid : K) : TreeInner K C where
  keys := n.keys.drop (halfKeys N + 1)
  childrens := n.childrens.drop (halfKeys N + 1)
  upKey := mid

omit [LinearOrder K] [BoundedOrder K] in
theorem upperHalf_keys_length (mid : K) (hfull : n.keys.length = N) :
    (n.upperHalf N mid).keys.length = N - (halfKeys N + 1) := by
  simp [upperHalf, hfull]

theorem insertToMe_upper (hN : 2 ≤ N) (hup : up ≠ ⊤) (hfull : n.keys.length = N)
    (hcs : n.childrens.length = N + 1) (hmid : n.keys[halfKeys N]? = some mid) (hk : k ≤ N)
    (hle : mid ≤ up) (hkh : halfKeys N < k) :
    ∃ n' s, n.insertToMe N k up c = .ok (n', some s) ∧ s.upKey = mid ∧
      Holds N (n.keys.insertIdx k up) (n.childrens.insertIdx (k + 1) c) 0 (n', some s) := by
  have hthr : (N + 1) / 2 = halfKeys N + 1 := by unfold halfKeys; omega
  have hhalf : 2 * halfKeys N < N := by unfold halfKeys; omega
  have hlenL := setNumKeys_keys_length hN hfull
  have hlenC := setNumKeys_childrens_length hN hcs
  have hlenR := upperHalf_keys_length mid hfull
  set low := n.setNumKeys (halfKeys N) with hlow
  set sib := n.upperHalf N mid with hsib
  obtain ⟨j, rfl⟩ : ∃ j, k = halfKeys N + 1 + j := ⟨k - (halfKeys N + 1), by omega⟩
  have hins := sib.insertAtPos_ok (N := N) j up c (by omega) (by omega)
  refine ⟨low,
    { sib with keys := sib.keys.insertIdx j up, childrens := sib.childrens.insertIdx (j + 1) c },
    ?_, rfl, ?_, ?_, ?_, ?_, ?_, ?_, ?_⟩
  · simp [insertToMe, hup, full, hfull, copyAfterNTo, empty, new, hthr, hmid, hle]
    simp only [hsib, upperHalf] at hins
    rw [hins]
    rfl
  · have hparts : n.keys = (low.keys ++ [mid]) ++ sib.keys := by
      rw [List.append_assoc]
      exact n.full_parts hN hfull mid hmid
    have hlen : (low.keys ++ [mid]).length = halfKeys N + 1 := by
      rw [List.length_append, hlenL, List.length_singleton]
    conv_rhs => rw [hparts, ← hlen, insertIdx_append_right]
    simp only [List.append_assoc, List.singleton_append]
    rfl
  · have hparts : n.childrens = low.childrens ++ sib.childrens :=
      (List.take_append_drop (halfKeys N + 1) n.childrens).symm
    have hidx : halfKeys N + 1 + j + 1 = low.childrens.length + (j + 1) := by omega
    conv_rhs => rw [hparts, hidx, insertIdx_append_right]
  · rw [hlenC, hlenL]
  · rw [hlenL]
    omega
  · simp only [List.length_insertIdx]
    split <;> omega
  · rw [hlenL]
  · simp only [List.length_insertIdx]
    split <;> omega

theorem insertToMe_lower (hN : 2 ≤ N) (hup : up ≠ ⊤) (hfull : n.keys.length = N)
    (hcs : n.childrens.length = N + 1) (hmid : n.keys[halfKeys N]? = some mid)
    (hlt : up < mid) (hkh : k ≤ halfKeys N) :
    ∃ n' s, n.insertToMe N k up c = .ok (n', some s) ∧ s.upKey = mid ∧
      Holds N (n.keys.insertIdx k up) (n.childrens.insertIdx (k + 1) c) 0 (n', some s) := by
  have hthr : (N + 1) / 2 = halfKeys N + 1 := by unfold halfKeys; omega
  have hhalf : 2 * halfKeys N < N := by unfold halfKeys; omega
  have hle : ¬ mid ≤ up := not_le.mpr hlt
  have hlenL := setNumKeys_keys_length hN hfull
  have hlenC := setNumKeys_childrens_length hN hcs
  have hlenR := upperHalf_keys_length mid hfull
  have hins := (n.setNumKeys (halfKeys N)).insertAtPos_ok (N := N) k up c (by omega) (by omega)
  have hlenI : ((n.setNumKeys (halfKeys N)).keys.insertIdx k up).length = halfKeys N + 1 := by
    rw [List.length_insertIdx_of_le_length (by omega), hlenL]
  refine ⟨{ n.setNumKeys (halfKeys N) with
      keys := (n.setNumKeys (halfKeys N)).keys.insertIdx k up
      childrens := (n.setNumKeys (halfKeys N)).childrens.insertIdx (k + 1) c },
    n.upperHalf N mid, ?_, rfl, ?_, ?_, ?_, ?_, ?_, ?_, ?_⟩
  · simp [insertToMe, hup, full, hfull, copyAfterNTo, empty, new, hthr, hmid, hle, hins, upperHalf]
  · conv_rhs => rw [n.full_parts hN hfull mid hmid]
    exact (insertIdx_append_left _ _ _ _ (by omega)).symm
  · conv_rhs => rw [← List.take_append_drop (halfKeys N + 1) n.childrens]
    exact (insertIdx_append_left _ _ _ _ (by omega)).symm
  · simp only [hlenI]
    rw [List.length_insertIdx_of_le_length (by omega), hlenC]
  · simp only [hlenI]
    omega
  · omega
  · simp only [hlenI]
    omega
  · omega

end Full

theorem insertToMe_full (hN : 2 ≤ N) (hup : up ≠ ⊤) (hfull : n.keys.length = N)
    (hcs : n.childrens.length = N + 1) (mid : K) (hmid : n.keys[halfKeys N]? = some mid)
    (hk : k ≤ N) (hlow : up < mid → k ≤ halfKeys N) (hhigh : mid ≤ up → halfKeys N < k) :
    ∃ n' s, n.insertToMe N k up c = .ok (n', some s) ∧ s.upKey = mid ∧
      Holds N (n.keys.insertIdx k up) (n.childrens.insertIdx (k + 1) c) 0 (n', some s) := by
  by_cases hle : mid ≤ up
  · exact insertToMe_upper hN hup hfull hcs hmid hk hle (hhigh hle)
  · have hlt := lt_of_not_ge hle
    exact insertToMe_lower hN hup hfull hcs hmid hlt (hlow hlt)

end TreeInner
end XStore.Xkv
