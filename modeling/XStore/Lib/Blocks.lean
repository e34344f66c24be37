import XStore.Lib.EveryNth
import Mathlib.Data.List.TakeWhile

/-! Ascending lists that come in blocks: the part up to a bound, and both ends of every
block. -/
namespace XStore.Lib
variable {α : Type*}

theorem takeWhile_eq_filter {p : α → Bool} {xs : List α}
    (h : xs.Pairwise (fun a b => p b = true → p a = true)) : xs.takeWhile p = xs.filter p := by
  induction xs with
  | nil => rfl
  | cons x xs ih =>
    obtain ⟨hx, hxs⟩ := List.pairwise_cons.mp h
    cases hp : p x with
    | true => simp [hp, ih hxs]
    | false =>
      rw [List.takeWhile_cons_of_neg (by simp [hp]), List.filter_cons_of_neg (by simp [hp])]
      symm
      rw [List.filter_eq_nil_iff]
      intro y hy hpy
      rw [hx y hy hpy] at hp
      cases hp

/-- The blocks of the initial part: the last one may be cut. -/
def cutBlocks (p : α → Bool) : List (List α) → List (List α)
  | [] => []
  | b :: bs =>
    if b.all p then b :: cutBlocks p bs
    else if b.takeWhile p = [] then [] else [b.takeWhile p]

theorem flatten_cutBlocks (p : α → Bool) (bs : List (List α)) :
    (cutBlocks p bs).flatten = bs.flatten.takeWhile p := by
  induction bs with
  | nil => rfl
  | cons b bs ih =>
    by_cases hall : b.all p = true
    · rw [cutBlocks, if_pos hall, List.flatten_cons, ih, List.flatten_cons,
        List.takeWhile_append_of_pos (by simpa using hall)]
    · have hcut : (b ++ bs.flatten).takeWhile p = b.takeWhile p := by
        rw [List.takeWhile_append, if_neg]
        intro hlen
        have heq : b.takeWhile p = b := (List.takeWhile_prefix p).eq_of_length hlen
        refine hall (List.all_eq_true.mpr (fun x hx => ?_))
        rw [← heq] at hx
        exact List.mem_takeWhile_imp hx
      rw [cutBlocks, if_neg hall, List.flatten_cons, hcut]
      split
      · next hnil => simp [hnil]
      · simp

/-- Every block of the initial part starts a block of the list, and all but the last one are
whole. -/
theorem cutBlocks_getElem? {p : α → Bool} {bs : List (List α)} (hne : ∀ b ∈ bs, b ≠ [])
    {i : ℕ} {c : List α} (h : (cutBlocks p bs)[i]? = some c) :
    ∃ b, bs[i]? = some b ∧ c <+: b ∧ c ≠ [] ∧ (i + 1 < (cutBlocks p bs).length → c = b) := by
  induction bs generalizing i with
  | nil => simp [cutBlocks] at h
  | cons b bs ih =>
    rw [cutBlocks] at h ⊢
    split at h
    · next hall =>
      rw [if_pos hall]
      cases i with
      | zero =>
        obtain rfl : b = c := by simpa using h
        exact ⟨b, rfl, List.prefix_refl b, hne b (by simp), fun _ => rfl⟩
      | succ i =>
        obtain ⟨b', hb', hpre, hc, hwhole⟩ := ih (fun b hb => hne b (List.mem_cons_of_mem _ hb))
          (by simpa using h)
        exact ⟨b', by simpa using hb', hpre, hc, fun hlen => hwhole (by simpa using hlen)⟩
    · next hall =>
      rw [if_neg hall]
      split at h
      · simp at h
      · next hcut =>
        rw [if_neg hcut]
        cases i with
        | zero =>
          obtain rfl : b.takeWhile p = c := by simpa using h
          exact ⟨b, rfl, List.takeWhile_prefix p, hcut, fun hlen => by simp at hlen⟩
        | succ i => simp at h

def bothEnds : List α → List α
  | [] => []
  | x :: xs => x :: xs.getLast?.toList

theorem bothEnds_subset {b : List α} {x : α} (h : x ∈ bothEnds b) : x ∈ b := by
  cases b with
  | nil => cases h
  | cons y ys =>
    rcases List.mem_cons.mp h with rfl | h
    · exact List.mem_cons_self
    · exact List.mem_cons_of_mem y (List.mem_of_getLast? (Option.mem_toList.mp h))

theorem getLast?_bothEnds (b : List α) : (bothEnds b).getLast? = b.getLast? := by
  cases b with
  | nil => rfl
  | cons x xs => cases h : xs.getLast? <;> simp [bothEnds, h, List.getLast?_cons]

/-- Blocks of at least two elements, the last one excepted: every second end is the first of
a block. -/
theorem everyNth_two_bothEnds {bs : List (List α)} (hne : ∀ b ∈ bs, b ≠ [])
    (hlong : ∀ i b, bs[i]? = some b → i + 1 < bs.length → 2 ≤ b.length) :
    everyNth 2 0 (bs.flatMap bothEnds) = bs.flatMap (fun b => b.head?.toList) := by
  induction bs with
  | nil => rfl
  | cons b bs ih =>
    have htail := ih (fun b hb => hne b (List.mem_cons_of_mem _ hb))
      (fun i c hc hi => hlong (i + 1) c (by simpa using hc) (by simpa using hi))
    rw [List.flatMap_cons, List.flatMap_cons]
    match b, hne b (by simp), hlong 0 b (by simp) with
    | [], h, _ => exact absurd rfl h
    | [x], _, h =>
      have hnil : bs = [] := by
        by_contra hbs
        have htwo := h (by simpa using List.length_pos_of_ne_nil hbs)
        simp at htwo
      simp [hnil, bothEnds, everyNth]
    | x :: y :: ys, _, _ =>
      obtain ⟨z, hz⟩ : ∃ z, (y :: ys).getLast? = some z :=
        ⟨_, List.getLast?_eq_some_getLast (by simp)⟩
      simp [bothEnds, hz, everyNth, wrapSucc, htail]

end XStore.Lib
