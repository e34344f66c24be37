import XStore.Xcache.PageSampling
import Mathlib.Data.List.MinMax

/-! What the page sampler keeps of pages whose keys come in any order. The running maximum
starts with the second key of a page, so the first key is never its maximum. -/
namespace XStore.Xcache
open XStore.Lib XStore.Xkv XStore.Xml
variable {N : ℕ} {K V : Type} [LinearOrder K]

structure Pages (N : ℕ) (bs : List (List (K × ℕ))) : Prop where
  ne : ∀ b ∈ bs, b ≠ []
  same : ∀ b ∈ bs, ∀ x ∈ b, ∀ y ∈ b, x.2 / N = y.2 / N
  apart : bs.Pairwise (fun b c => ∀ x ∈ b, ∀ y ∈ c, x.2 / N ≠ y.2 / N)
  keys : (bs.flatten.map Prod.fst).Nodup
  labels : (bs.flatten.map Prod.snd).Nodup

/-- The pair with the smallest key, and the one with the largest key if there are several. -/
def pageEnds (b : List (K × ℕ)) : List (K × ℕ) :=
  (b.argmin Prod.fst).toList ++ if 1 < b.length then (b.argmax Prod.fst).toList else []

/-- What the sampler emits: its maximum is that of the pairs behind the first one, and it is
left out where it is the pair with the smallest key. -/
def emitted (b : List (K × ℕ)) : List (K × ℕ) :=
  (b.argmin Prod.fst).toList ++
    (b.tail.argmax Prod.fst).toList.filter (fun y => decide (b.argmin Prod.fst ≠ some y))

namespace PageSampler

def ofPage (b : List (K × ℕ)) : PageSampler N K where
  minKeyInPage := (b.argmin Prod.fst).map Prod.fst
  minKeyLabel := (b.argmin Prod.fst).map Prod.snd
  maxKeyInPage := (b.tail.argmax Prod.fst).map Prod.fst
  maxKeyLabel := (b.tail.argmax Prod.fst).map Prod.snd

variable {b c : List (K × ℕ)} {x : K × ℕ} (t : TrainSet K)

theorem addCur_ofPage (hsame : ∀ x ∈ b, ∀ y ∈ b, x.2 / N = y.2 / N)
    (hlabels : (b.map Prod.snd).Nodup) :
    (ofPage b : PageSampler N K).addCur t = .ok (t.append (emitted b)) := by
  cases hmin : b.argmin Prod.fst with
  | none =>
    obtain rfl := List.argmin_eq_none.mp hmin
    simp [ofPage, addCur, emitted, TrainSet.append]
  | some m =>
    have hm : m ∈ b := List.argmin_mem hmin
    cases hmax : b.tail.argmax Prod.fst with
    | none => simp [ofPage, addCur, emitted, hmin, hmax, TrainSet.append, TrainSet.push]
    | some y =>
      have hy : y ∈ b := List.mem_of_mem_tail (List.argmax_mem hmax)
      have hpage : y.2 / N = m.2 / N := hsame y hy m hm
      have hoff : m.2 % N = y.2 % N ↔ m = y := by
        constructor
        · intro hmod
          have hm' := Nat.div_add_mod m.2 N
          have hy' := Nat.div_add_mod y.2 N
          rw [hpage, ← hmod, hm'] at hy'
          exact List.inj_on_of_nodup_map hlabels hm hy hy'
        · rintro rfl
          rfl
      by_cases heq : m = y
      · simp [ofPage, addCur, emitted, hmin, hmax, heq, LogicAddr.decodeLogicId,
          LogicAddr.decodeOff, TrainSet.append, TrainSet.push]
      · simp [ofPage, addCur, emitted, hmin, hmax, heq, hpage, hoff, LogicAddr.decodeLogicId,
          LogicAddr.decodeOff, TrainSet.append, TrainSet.push]

variable [BoundedOrder K]

theorem addTo_samePage (hne : b ≠ []) (hsame : ∀ y ∈ b, x.2 / N = y.2 / N) :
    (ofPage b : PageSampler N K).addTo x.1 x.2 t = .ok (ofPage (b ++ [x]), t) := by
  have htail : (b ++ [x]).tail = b.tail ++ [x] := List.tail_append_of_ne_nil hne
  cases hmin : b.argmin Prod.fst with
  | none => exact absurd (List.argmin_eq_none.mp hmin) hne
  | some m =>
    have hpage : x.2 / N = m.2 / N := hsame m (List.argmin_mem hmin)
    cases hmax : b.tail.argmax Prod.fst with
    | none =>
      by_cases hlow : x.1 < m.1 <;>
        simp [ofPage, addTo, htail, List.argmin_concat, List.argmax_concat, hmin, hmax, hpage,
          LogicAddr.decodeLogicId, hlow]
    | some z =>
      by_cases hlow : x.1 < m.1 <;> by_cases hhigh : z.1 < x.1 <;>
        simp [ofPage, addTo, htail, List.argmin_concat, List.argmax_concat, hmin, hmax, hpage,
          LogicAddr.decodeLogicId, hlow, hhigh]

theorem addTo_otherPage (hne : b ≠ []) (hsame : ∀ x ∈ b, ∀ y ∈ b, x.2 / N = y.2 / N)
    (hlabels : (b.map Prod.snd).Nodup) (hother : ∀ y ∈ b, x.2 / N ≠ y.2 / N) :
    (ofPage b : PageSampler N K).addTo x.1 x.2 t = .ok (ofPage [x], t.append (emitted b)) := by
  cases hmin : b.argmin Prod.fst with
  | none => exact absurd (List.argmin_eq_none.mp hmin) hne
  | some m =>
    have hpage : ¬ x.2 / N = m.2 / N := hother m (List.argmin_mem hmin)
    have hkey : (ofPage b : PageSampler N K).minKeyInPage = some m.1 := by simp [ofPage, hmin]
    have hlabel : (ofPage b : PageSampler N K).minKeyLabel = some m.2 := by simp [ofPage, hmin]
    simp only [addTo, hkey, hlabel, need_some, ok_bind, LogicAddr.decodeLogicId, ne_eq, hpage,
      not_false_eq_true, if_true, addCur_ofPage t hsame hlabels, pure_eq_ok]
    rfl

theorem addAll_samePage (hne : b ≠ []) (hsame : ∀ x ∈ b ++ c, ∀ y ∈ b ++ c, x.2 / N = y.2 / N) :
    addAll c (ofPage b : PageSampler N K) t = .ok (ofPage (b ++ c), t) := by
  induction c generalizing b with
  | nil => simp
  | cons x c ih =>
    have hadd : SampleTrait.addTo (ofPage b : PageSampler N K) x.1 x.2 t =
        .ok (ofPage (b ++ [x]), t) :=
      addTo_samePage t hne (fun y hy => hsame x (by simp) y (List.mem_append_left _ hy))
    rw [addAll_cons_ok _ hadd, ih (by simp) (by simpa using hsame), List.append_assoc]
    rfl

theorem addAll_page (hb : b ≠ []) (hsame : ∀ x ∈ b, ∀ y ∈ b, x.2 / N = y.2 / N)
    (hlabels : (b.map Prod.snd).Nodup) (hc : c ≠ [])
    (hsame' : ∀ x ∈ c, ∀ y ∈ c, x.2 / N = y.2 / N)
    (hapart : ∀ x ∈ b, ∀ y ∈ c, x.2 / N ≠ y.2 / N) :
    addAll c (ofPage b : PageSampler N K) t = .ok (ofPage c, t.append (emitted b)) := by
  obtain ⟨x, c, rfl⟩ := List.exists_cons_of_ne_nil hc
  have hfirst : SampleTrait.addTo (ofPage b : PageSampler N K) x.1 x.2 t =
      .ok (ofPage [x], t.append (emitted b)) :=
    addTo_otherPage t hb hsame hlabels (fun y hy h => hapart y hy x (by simp) h.symm)
  have hrest := addAll_samePage (N := N) (b := [x]) (c := c) (t.append (emitted b)) (by simp) hsame'
  rw [addAll_cons_ok _ hfirst]
  exact hrest

theorem addAll_ofPage {bs : List (List (K × ℕ))} (h : Pages N (b :: bs)) :
    ∃ s t', addAll bs.flatten (ofPage b : PageSampler N K) t = .ok (s, t') ∧
      s.addCur t' = .ok (t.append ((b :: bs).flatMap emitted)) := by
  induction bs generalizing b t with
  | nil =>
    refine ⟨_, t, rfl, ?_⟩
    have hlabels : (b.map Prod.snd).Nodup := by simpa using h.labels
    simpa using addCur_ofPage t (h.same b (by simp)) hlabels
  | cons c bs ih =>
    obtain ⟨hapart, hrest⟩ := List.pairwise_cons.mp h.apart
    have htail : Pages N (c :: bs) :=
      { ne := fun d hd => h.ne d (List.mem_cons_of_mem b hd)
        same := fun d hd => h.same d (List.mem_cons_of_mem b hd)
        apart := hrest
        keys := by
          have hkeys := h.keys
          rw [List.flatten_cons, List.map_append] at hkeys
          exact (List.nodup_append.mp hkeys).2.1
        labels := by
          have hlabels := h.labels
          rw [List.flatten_cons, List.map_append] at hlabels
          exact (List.nodup_append.mp hlabels).2.1 }
    have hlabels : (b.map Prod.snd).Nodup := by
      have hlabels := h.labels
      rw [List.flatten_cons, List.map_append] at hlabels
      exact (List.nodup_append.mp hlabels).1
    obtain ⟨s, t', hadd, hfin⟩ := ih (t.append (emitted b)) htail
    refine ⟨s, t', ?_, ?_⟩
    · rw [List.flatten_cons, addAll_append, addAll_page t (h.ne b (by simp)) (h.same b (by simp))
        hlabels (h.ne c (by simp)) (h.same c (by simp)) (hapart c (by simp)), ok_bind]
      exact hadd
    · rw [hfin]
      simp [TrainSet.append]

/-- The whole run of the sampler, whatever the order of the keys inside the pages. -/
theorem addAll_pages_any {bs : List (List (K × ℕ))} (h : Pages N bs) :
    ∃ s t', addAll bs.flatten (new : PageSampler N K) t = .ok (s, t') ∧
      SampleTrait.finalize s t' = .ok (t.append (bs.flatMap emitted)) := by
  cases bs with
  | nil => exact ⟨new, t, rfl, by simp [SampleTrait.finalize, addCur, new, TrainSet.append]⟩
  | cons b bs =>
    obtain ⟨x, c, hb⟩ := List.exists_cons_of_ne_nil (h.ne b (by simp))
    obtain ⟨s, t', hadd, hfin⟩ := addAll_ofPage t h
    refine ⟨s, t', ?_, hfin⟩
    have hone : addAll [x] (new : PageSampler N K) t = .ok (ofPage [x], t) := rfl
    have hpage : addAll b (new : PageSampler N K) t = .ok (ofPage b, t) := by
      rw [hb, ← List.singleton_append, addAll_append, hone, ok_bind]
      exact addAll_samePage t (by simp) (by simpa [hb] using h.same b (by simp))
    rw [List.flatten_cons, addAll_append, hpage, ok_bind]
    exact hadd

end PageSampler

section Ends
variable {b : List (K × ℕ)} {x : K × ℕ} {c : List (K × ℕ)}

theorem mem_of_mem_emitted {y : K × ℕ} (h : y ∈ emitted b) : y ∈ b := by
  cases List.mem_append.mp h with
  | inl h => exact List.argmin_mem (Option.mem_toList.mp h)
  | inr h =>
    have hmax := (List.mem_filter.mp h).1
    exact List.mem_of_mem_tail (List.argmax_mem (Option.mem_toList.mp hmax))

theorem emitted_of_larger (h : 1 < (x :: c).length → ∃ y ∈ c, x.1 < y.1) :
    emitted (x :: c) = pageEnds (x :: c) := by
  cases hmax : c.argmax Prod.fst with
  | none =>
    obtain rfl := List.argmax_eq_none.mp hmax
    simp [emitted, pageEnds]
  | some z =>
    have hz : z ∈ c := List.argmax_mem hmax
    have hlen : 1 < (x :: c).length := by simpa using List.length_pos_of_mem hz
    obtain ⟨y, hy, hxy⟩ := h hlen
    have hxz : x.1 < z.1 := lt_of_lt_of_le hxy (List.le_of_mem_argmax hy hmax)
    have hne : (x :: c).argmin Prod.fst ≠ some z := fun hmin =>
      absurd (List.le_of_mem_argmin (List.mem_cons_self (a := x)) hmin) (not_le.mpr hxz)
    have hall : (x :: c).argmax Prod.fst = some z := by
      rw [List.argmax_cons, hmax]
      exact if_pos hxz
    rw [pageEnds, if_pos hlen]
    simp [emitted, hmax, hall, hne]

/-- The first key is the largest of several: it should be emitted and is not. -/
theorem lost_of_largest (hne : c ≠ []) (hkeys : ((x :: c).map Prod.fst).Nodup)
    (h : ∀ y ∈ c, ¬ x.1 < y.1) : x ∈ pageEnds (x :: c) ∧ x ∉ emitted (x :: c) := by
  obtain ⟨hx, -⟩ := List.nodup_cons.mp hkeys
  have hbelow : ∀ y ∈ c, y.1 < x.1 := by
    intro y hy
    refine lt_of_le_of_ne (not_lt.mp (h y hy)) (fun heq => hx ?_)
    rw [← heq]
    exact List.mem_map_of_mem hy
  cases hmax : c.argmax Prod.fst with
  | none => exact absurd (List.argmax_eq_none.mp hmax) hne
  | some z =>
    have hz : z ∈ c := List.argmax_mem hmax
    have hall : (x :: c).argmax Prod.fst = some x := by
      rw [List.argmax_cons, hmax]
      exact if_neg (h z hz)
    constructor
    · simp [pageEnds, hall, List.length_pos_of_ne_nil hne]
    · intro hmem
      cases List.mem_append.mp hmem with
      | inl hmin =>
        have hle := List.le_of_mem_argmin (List.mem_cons_of_mem x hz) (Option.mem_toList.mp hmin)
        exact absurd hle (not_le.mpr (hbelow z hz))
      | inr hfilter =>
        have hxmax := Option.mem_toList.mp (List.mem_filter.mp hfilter).1
        have hxc : x ∈ c := List.argmax_mem hxmax
        exact lt_irrefl _ (hbelow x hxc)

end Ends

theorem Pages.block_unique {bs : List (List (K × ℕ))} (h : Pages N bs) {b c : List (K × ℕ)}
    (hb : b ∈ bs) (hc : c ∈ bs) {x : K × ℕ} (hxb : x ∈ b) (hxc : x ∈ c) : b = c := by
  by_contra hne
  have hsymm : Std.Symm (fun b c : List (K × ℕ) => ∀ x ∈ b, ∀ y ∈ c, x.2 / N ≠ y.2 / N) :=
    ⟨fun b c hbc x hx y hy heq => hbc y hy x hx heq.symm⟩
  exact h.apart.forall hb hc hne x hxb x hxc rfl

omit [LinearOrder K] in
theorem TrainSet.append_inj {t : TrainSet K} {xs ys : List (K × ℕ)}
    (h : t.append xs = t.append ys) : xs = ys := by
  simp only [TrainSet.append, TrainSet.mk.injEq, List.append_cancel_left_eq] at h
  rw [← List.zip_unzip xs, ← List.zip_unzip ys, List.unzip_eq_map, List.unzip_eq_map, h.1, h.2]

/-- The sampler keeps the smallest and the largest key of every page exactly if no page of
several keys starts with its largest one. -/
theorem page_order_iff [BoundedOrder K] {bs : List (List (K × ℕ))} (h : Pages N bs)
    (t : TrainSet K) :
    (∃ s t', addAll bs.flatten (PageSampler.new : PageSampler N K) t = .ok (s, t') ∧
      SampleTrait.finalize s t' = .ok (t.append (bs.flatMap pageEnds))) ↔
    ∀ x c, x :: c ∈ bs → c ≠ [] → ∃ y ∈ c, x.1 < y.1 := by
  obtain ⟨s, t', hadd, hfin⟩ := PageSampler.addAll_pages_any t h
  constructor
  · rintro ⟨s₁, t₁, hadd₁, hfin₁⟩ x c hb hne
    obtain ⟨rfl, rfl⟩ := Prod.mk.inj (Except.ok.inj (hadd.symm.trans hadd₁))
    have heq := TrainSet.append_inj (Except.ok.inj (hfin.symm.trans hfin₁))
    by_contra hnot
    have hkeys : ((x :: c).map Prod.fst).Nodup := by
      have hsub := (List.sublist_flatten_of_mem hb).map Prod.fst
      exact h.keys.sublist hsub
    obtain ⟨hin, hout⟩ := lost_of_largest hne hkeys
      (fun y hy hlt => hnot ⟨y, hy, hlt⟩)
    have hmem : x ∈ bs.flatMap emitted := by
      rw [heq]
      exact List.mem_flatMap.mpr ⟨_, hb, hin⟩
    obtain ⟨d, hd, hxd⟩ := List.mem_flatMap.mp hmem
    have hsame := h.block_unique hb hd List.mem_cons_self (mem_of_mem_emitted hxd)
    exact hout (hsame ▸ hxd)
  · intro hall
    have heq : bs.flatMap emitted = bs.flatMap pageEnds := by
      refine List.flatMap_congr (fun b hb => ?_)
      obtain ⟨x, c, rfl⟩ := List.exists_cons_of_ne_nil (h.ne b hb)
      exact emitted_of_larger (fun hlen => hall x c hb (by rintro rfl; simp at hlen))
    exact ⟨s, t', hadd, by rw [hfin, heq]⟩

/-- Page 0 holds the key 5 at offset 0 and the key 3 at offset 1: only the key 3 is kept. -/
theorem page_order_descending :
    ¬ ∀ (bs : List (List (XKey × ℕ))) (t : TrainSet XKey), Pages 16 bs →
      ∃ s t', addAll bs.flatten (PageSampler.new : PageSampler 16 XKey) t = .ok (s, t') ∧
        SampleTrait.finalize s t' = .ok (t.append (bs.flatMap pageEnds)) := by
  intro hall
  have hpages : Pages 16 [[((5 : XKey), 0), (3, 1)]] := by
    constructor <;> decide
  obtain ⟨s, t', hadd, hfin⟩ := hall _ .empty hpages
  have hrun : (addAll [((5 : XKey), 0), (3, 1)] (PageSampler.new : PageSampler 16 XKey) .empty >>=
      fun st => SampleTrait.finalize st.1 st.2) = .ok ⟨[3], [1]⟩ := by
    decide
  have hflat : [[((5 : XKey), 0), (3, 1)]].flatten = [(5, 0), (3, 1)] := rfl
  rw [← hflat, hadd, ok_bind, hfin] at hrun
  exact absurd hrun (by decide)

theorem page_order_iff_two :
    (∃ s t', addAll [[((3 : XKey), 0), (5, 1)], [(9, 16)]].flatten
        (PageSampler.new : PageSampler 16 XKey) .empty = .ok (s, t') ∧
      SampleTrait.finalize s t' = .ok (TrainSet.append .empty
        ([[((3 : XKey), 0), (5, 1)], [(9, 16)]].flatMap pageEnds))) ↔
    ∀ x c, x :: c ∈ [[((3 : XKey), 0), (5, 1)], [(9, 16)]] → c ≠ [] → ∃ y ∈ c, x.1 < y.1 :=
  page_order_iff (by constructor <;> decide) .empty

end XStore.Xcache
