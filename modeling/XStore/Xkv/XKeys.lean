import XStore.Base
import XStore.Lib.Sort
import Mathlib.Data.Fintype.Basic
import Mathlib.Data.Fintype.Card
import Mathlib.Data.Multiset.Filter
import Mathlib.Logic.Function.Basic

/-! The key block of a leaf (xkeys.hh): `N` unsorted slots in which `kInvalidKey` marks a
hole, and the incarnation that a split increments. -/
namespace XStore.Xkv
open XStore.Lib
variable {N : ℕ} {K : Type} [KeyType K]

structure XNodeKeys (N : ℕ) (K : Type) where
  keys : Fin N → K
  incarnation : UInt16

namespace XNodeKeys

def new : XNodeKeys N K where
  keys _ := KeyType.invalid
  incarnation := 0

/-- Put the key into the first hole. Nothing looks for an equal key. -/
def addKey (n : XNodeKeys N K) (key : K) : Option (XNodeKeys N K × Fin N) :=
  match (List.finRange N).find? (fun i => KeyType.eq (n.keys i) KeyType.invalid) with
  | some i => some ({ n with keys := Function.update n.keys i key }, i)
  | none => none

def search (n : XNodeKeys N K) (key : K) : Option (Fin N) :=
  (List.finRange N).find? (fun i => KeyType.eq (n.keys i) key)

def numKeys (n : XNodeKeys N K) : ℕ :=
  ((List.finRange N).filter (fun i => KeyType.ne (n.keys i) KeyType.invalid)).length

def getKey (n : XNodeKeys N K) (idx : Fin N) : K := n.keys idx

def clear (n : XNodeKeys N K) (idx : Fin N) : XNodeKeys N K :=
  { n with keys := Function.update n.keys idx KeyType.invalid }

/-- Sort (key, slot) pairs by key and take the slot in the middle. -/
def findMedianKey [StdSort] (n : XNodeKeys N K) : Option (Fin N) :=
  let temp := (List.finRange N).map (fun i => (n.keys i, i))
  if temp.length > 0 then
    ((StdSort.sort (fun left right => KeyType.lt left.1 right.1) temp)[temp.length / 2]?).map
      Prod.snd
  else none

end XNodeKeys

section Spec
variable {K : Type} [LinearOrder K] [BoundedOrder K]

def XNodeKeys.occupied (n : XNodeKeys N K) : Finset (Fin N) :=
  Finset.univ.filter (fun i => n.keys i ≠ ⊤)

def XNodeKeys.Full (n : XNodeKeys N K) : Prop := ∀ i, n.keys i ≠ ⊤

namespace XNodeKeys
variable (n : XNodeKeys N K)

@[simp] theorem mem_occupied (i : Fin N) : i ∈ n.occupied ↔ n.keys i ≠ ⊤ := by
  simp [occupied]

theorem addKey_none_iff (key : K) : n.addKey key = none ↔ n.Full := by
  unfold addKey Full
  split
  · next i h =>
    have hi := List.find?_some h
    simp only [KeyType.eq_ofOrder, KeyType.invalid_ofOrder, decide_eq_true_eq] at hi
    simp only [reduceCtorEq, false_iff, not_forall, not_not]
    exact ⟨i, hi⟩
  · next h =>
    simpa using h

/-- An accepted key sits in a slot that was a hole, and no other slot changes. -/
theorem addKey_some {key : K} {n' : XNodeKeys N K} {i : Fin N}
    (h : n.addKey key = some (n', i)) :
    n.keys i = ⊤ ∧ n' = { n with keys := Function.update n.keys i key } := by
  unfold addKey at h
  split at h
  · next j hj =>
    have hfree := List.find?_some hj
    simp only [KeyType.eq_ofOrder, KeyType.invalid_ofOrder, decide_eq_true_eq] at hfree
    simp only [Option.some.injEq, Prod.mk.injEq] at h
    obtain ⟨rfl, rfl⟩ := h
    exact ⟨hfree, rfl⟩
  · cases h

theorem addKey_fresh (hN : 0 < N) (key : K) (hn : ∀ i, n.keys i = ⊤) :
    n.addKey key = some ({ n with keys := Function.update n.keys ⟨0, hN⟩ key }, ⟨0, hN⟩) := by
  obtain ⟨M, rfl⟩ : ∃ M, N = M + 1 := ⟨N - 1, by omega⟩
  have h : (List.finRange (M + 1)).find?
      (fun i => KeyType.eq (n.keys i) KeyType.invalid) = some 0 := by
    rw [List.finRange_succ, List.find?_cons_of_pos]
    simp [hn]
  unfold addKey
  rw [h]
  rfl

theorem search_some {key : K} {i : Fin N} (h : n.search key = some i) : n.keys i = key := by
  have hi := List.find?_some h
  simpa using hi

theorem search_none_iff (key : K) : n.search key = none ↔ ∀ i, n.keys i ≠ key := by
  simp [search]

theorem numKeys_eq : n.numKeys = n.occupied.card := by
  unfold numKeys occupied
  rw [← List.toFinset_card_of_nodup ((List.nodup_finRange N).filter _)]
  congr 1
  ext i
  simp

/-- The middle of the sorted slots: at least `N/2` further slots hold no larger key, and at
least `N - N/2` slots hold no smaller one. -/
theorem findMedianKey_spec [StdSort] (hN : 0 < N) :
    ∃ i, n.findMedianKey = some i ∧
      N / 2 < (Finset.univ.filter (fun j => n.keys j ≤ n.keys i)).card ∧
      N - N / 2 ≤ (Finset.univ.filter (fun j => n.keys i ≤ n.keys j)).card := by
  let temp := (List.finRange N).map (fun i => (n.keys i, i))
  let s := StdSort.sort (fun left right : K × Fin N => decide (left.1 < right.1)) temp
  have hperm : s.Perm temp := StdSort.perm _ temp
  have hlen : s.length = N := by rw [hperm.length_eq]; simp [temp]
  have hsorted := StdSort.sorted_key (fun e : K × Fin N => e.1) temp
  have hmid : N / 2 < s.length := by omega
  -- every pair of the sorted list carries the key of its own slot
  have hpair : ∀ e ∈ s, n.keys e.2 = e.1 := by
    intro e he
    have hmem := hperm.mem_iff.mp he
    simp only [temp, List.mem_map] at hmem
    obtain ⟨i, -, rfl⟩ := hmem
    rfl
  have hcount : ∀ p : K → Bool, s.countP (fun e => p e.1) =
      (Finset.univ.filter (fun j => p (n.keys j) = true)).card := by
    intro p
    rw [hperm.countP_eq, List.countP_map, List.countP_eq_length_filter]
    rw [← List.toFinset_card_of_nodup ((List.nodup_finRange N).filter _)]
    congr 1
    ext j
    simp
  have hkey : n.keys (s[N / 2]).2 = (s[N / 2]).1 := hpair _ (List.getElem_mem hmid)
  refine ⟨(s[N / 2]).2, ?_, ?_, ?_⟩
  · unfold findMedianKey
    have htemp : temp.length = N := by simp [temp]
    change (if temp.length > 0 then (s[temp.length / 2]?).map Prod.snd else none) = _
    rw [htemp, if_pos hN, List.getElem?_eq_getElem hmid]
    rfl
  · have h := rank_low (fun e : K × Fin N => e.1) s hsorted (N / 2) hmid
    rw [hcount (fun k => decide (k ≤ (s[N / 2]).1))] at h
    simpa [hkey] using h
  · have h := rank_high (fun e : K × Fin N => e.1) s hsorted (N / 2) hmid
    rw [hcount (fun k => decide ((s[N / 2]).1 ≤ k)), hlen] at h
    simpa [hkey] using h

end XNodeKeys
end Spec
end XStore.Xkv
