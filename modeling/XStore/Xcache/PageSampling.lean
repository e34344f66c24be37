import XStore.Lib.Blocks
import XStore.Xcache.ErrorBound
import XStore.Xcache.Snapshot

/-! Training at the granularity of pages: the page sampler keeps both ends of every page, and
the page updaters ignore a prediction that hits the right page. -/
namespace XStore.Xcache
open XStore.Lib XStore.Xkv XStore.Xml
variable {N : ℕ} {K V : Type}

/-- `page_update_func<N>` (page_tt_iter.hh): the difference of the u64 values is narrowed. -/
def pageUpdateFunc (N : ℕ) : UpdateFunc := fun label predict curMin curMax =>
  if LogicAddr.decodeLogicId N label = LogicAddr.decodeLogicId N predict then (curMin, curMax)
  else
    let minError := min curMin (toInt32 (((label : ℤ) - predict) % 2 ^ 64))
    let maxError := max curMax (toInt32 (((label : ℤ) - predict) % 2 ^ 64))
    (minError, maxError)

def kNPageKey : ℕ := 16

/-- `page_updater` (ycsb/server/db.hh): the difference is one of i64 values. -/
def pageUpdater : UpdateFunc := fun label predict curMin curMax =>
  if LogicAddr.decodeLogicId kNPageKey predict = LogicAddr.decodeLogicId kNPageKey label then
    (curMin, curMax)
  else
    let newMin := min curMin (toInt64 (toInt64 label - toInt64 predict))
    let newMax := max curMax (toInt64 (toInt64 label - toInt64 predict))
    (toInt32 newMin, toInt32 newMax)

def samePage (N l p : ℕ) : Bool := decide (l / N = p / N)

theorem toInt32_emod (x : ℤ) : toInt32 (x % 2 ^ 64) = toInt32 x := by
  unfold toInt32
  rw [Int.bmod_def, Int.bmod_def]
  have h : x % 2 ^ 64 % (2 ^ 32 : ℕ) = x % (2 ^ 32 : ℕ) := by omega
  rw [h]

theorem pageUpdateFunc_accumulates : Accumulates (pageUpdateFunc N) (samePage N) := by
  constructor
  intro l p mn mx hl hp hmn hmn' hmx hmx'
  have hdiff : toInt32 (((l : ℤ) - p) % 2 ^ 64) = l - p := by
    rw [toInt32_emod]
    exact toInt32_eq (by omega) (by omega)
  by_cases hpage : l / N = p / N
  · simp [pageUpdateFunc, samePage, LogicAddr.decodeLogicId, hpage]
  · simp only [pageUpdateFunc, samePage, LogicAddr.decodeLogicId, hpage, if_false, hdiff,
      decide_false, Bool.false_eq_true]

theorem pageUpdater_accumulates : Accumulates pageUpdater (samePage kNPageKey) := by
  constructor
  intro l p mn mx hl hp hmn hmn' hmx hmx'
  have hstep := defaultUpdateFunc_accumulates.step l p mn mx hl hp hmn hmn' hmx hmx'
  rw [if_neg (by simp)] at hstep
  by_cases hpage : l / kNPageKey = p / kNPageKey
  · simp [pageUpdater, samePage, LogicAddr.decodeLogicId, hpage]
  · have hpage' : ¬ p / kNPageKey = l / kNPageKey := fun h => hpage h.symm
    rw [← hstep]
    simp [pageUpdater, samePage, LogicAddr.decodeLogicId, hpage, hpage', defaultUpdateFunc]

variable [LinearOrder K] [BoundedOrder K]

structure PageBlock (N i : ℕ) (b : List (K × ℕ)) : Prop where
  ne : b ≠ []
  page : ∀ x ∈ b, x.2 / N = i
  sorted : b.Pairwise (fun x y => x.1 < y.1 ∧ x.2 < y.2)

def TrainSet.append (t : TrainSet K) (xs : List (K × ℕ)) : TrainSet K where
  set := t.set ++ xs.map Prod.fst
  label := t.label ++ xs.map Prod.snd

namespace PageSampler

def ofBlock : List (K × ℕ) → PageSampler N K
  | [] => new
  | x :: xs => { minKeyInPage := some x.1, minKeyLabel := some x.2
                 maxKeyInPage := xs.getLast?.map Prod.fst
                 maxKeyLabel := xs.getLast?.map Prod.snd }

variable {i : ℕ} {b c : List (K × ℕ)} {x : K × ℕ} (t : TrainSet K)

omit [BoundedOrder K] in
theorem addCur_ofBlock (hb : PageBlock N i b) :
    (ofBlock b : PageSampler N K).addCur t = .ok (t.append (bothEnds b)) := by
  match b, hb with
  | x :: xs, hb =>
    cases hlast : xs.getLast? with
    | none => simp [ofBlock, addCur, hlast, TrainSet.append, TrainSet.push, bothEnds]
    | some y =>
      have hy : y ∈ xs := List.mem_of_getLast? hlast
      have hpage : y.2 / N = x.2 / N := by
        rw [hb.page y (by simp [hy]), hb.page x (by simp)]
      have hlt : x.2 < y.2 := ((List.pairwise_cons.mp hb.sorted).1 y hy).2
      have hoff : x.2 % N ≠ y.2 % N := by
        intro hmod
        have hx := Nat.div_add_mod x.2 N
        have hy := Nat.div_add_mod y.2 N
        rw [hpage, ← hmod, hx] at hy
        omega
      simp [ofBlock, addCur, hlast, LogicAddr.decodeLogicId, LogicAddr.decodeOff, hpage, hoff,
        TrainSet.append, TrainSet.push, bothEnds]

theorem addTo_inside (hne : b ≠ []) (hb : PageBlock N i (b ++ [x])) :
    (ofBlock b : PageSampler N K).addTo x.1 x.2 t = .ok (ofBlock (b ++ [x]), t) := by
  match b, hne, hb with
  | y :: ys, _, hb =>
    have hpage : x.2 / N = y.2 / N := by
      rw [hb.page x (by simp), hb.page y (by simp)]
    have hlt := (List.pairwise_append.mp hb.sorted).2.2
    have hyx : ¬ x.1 < y.1 := not_lt.mpr (hlt y (by simp) x (by simp)).1.le
    cases hlast : ys.getLast? with
    | none =>
      simp [ofBlock, addTo, hlast, LogicAddr.decodeLogicId, hpage, hyx]
    | some z =>
      have hzx : z.1 < x.1 :=
        (hlt z (List.mem_cons_of_mem y (List.mem_of_getLast? hlast)) x (by simp)).1
      simp [ofBlock, addTo, hlast, LogicAddr.decodeLogicId, hpage, hyx, hzx]

theorem addTo_next (hb : PageBlock N i b) (hx : x.2 / N ≠ i) :
    (ofBlock b : PageSampler N K).addTo x.1 x.2 t =
      .ok (ofBlock [x], t.append (bothEnds b)) := by
  have hcur := addCur_ofBlock t hb
  match b, hb with
  | y :: ys, hb =>
    have hpage : ¬ x.2 / N = y.2 / N := by
      rw [hb.page y (by simp)]
      exact hx
    have hlabel : (ofBlock (y :: ys) : PageSampler N K).minKeyLabel = some y.2 := rfl
    have hkey : (ofBlock (y :: ys) : PageSampler N K).minKeyInPage = some y.1 := rfl
    simp only [addTo, hkey, hlabel, need_some, ok_bind, LogicAddr.decodeLogicId, ne_eq, hpage,
      not_false_eq_true, if_true, hcur, pure_eq_ok]
    rfl

theorem addAll_inside (hne : b ≠ []) (hb : PageBlock N i (b ++ c)) :
    addAll c (ofBlock b : PageSampler N K) t = .ok (ofBlock (b ++ c), t) := by
  induction c generalizing b with
  | nil => simp
  | cons x c ih =>
    have hb' : PageBlock N i ((b ++ [x]) ++ c) := by simpa using hb
    have hone : PageBlock N i (b ++ [x]) := by
      have hsub : (b ++ [x]).Sublist ((b ++ [x]) ++ c) := List.sublist_append_left _ _
      exact ⟨by simp, fun y hy => hb'.page y (hsub.mem hy), hb'.sorted.sublist hsub⟩
    have hadd : SampleTrait.addTo (ofBlock b : PageSampler N K) x.1 x.2 t =
        .ok (ofBlock (b ++ [x]), t) := addTo_inside t hne hone
    rw [addAll_cons_ok _ hadd, ih (by simp) hb', List.append_assoc]
    rfl

/-- All pages that follow: both ends of each end up in the training set. -/
theorem addAll_pages {bs : List (List (K × ℕ))} (hb : PageBlock N i b)
    (hbs : ∀ j c, bs[j]? = some c → PageBlock N (i + 1 + j) c) :
    ∃ s t', addAll bs.flatten (ofBlock b : PageSampler N K) t = .ok (s, t') ∧
      s.addCur t' = .ok (t.append ((b :: bs).flatMap bothEnds)) := by
  induction bs generalizing b i t with
  | nil => exact ⟨_, t, rfl, by simpa using addCur_ofBlock t hb⟩
  | cons c bs ih =>
    have hc : PageBlock N (i + 1) c := hbs 0 c rfl
    match c, hc with
    | x :: c, hc =>
      obtain ⟨s, t', hrest, hfin⟩ := ih (t.append (bothEnds b)) hc (fun j d hd => by
        have h := hbs (j + 1) d (by simpa using hd)
        rwa [show i + 1 + (j + 1) = i + 1 + 1 + j by omega] at h)
      have hfirst : SampleTrait.addTo (ofBlock b : PageSampler N K) x.1 x.2 t =
          .ok (ofBlock [x], t.append (bothEnds b)) :=
        addTo_next t hb (by rw [hc.page x (by simp)]; omega)
      refine ⟨s, t', ?_, ?_⟩
      · rw [List.flatten_cons, List.cons_append, addAll_cons_ok _ hfirst, addAll_append,
          addAll_inside _ (by simp) (by simpa using hc), ok_bind]
        exact hrest
      · rw [hfin]
        simp [TrainSet.append]

theorem addAll_finalize {bs : List (List (K × ℕ))}
    (hbs : ∀ j c, bs[j]? = some c → PageBlock N j c) :
    ∃ s t', addAll bs.flatten (new : PageSampler N K) t = .ok (s, t') ∧
      SampleTrait.finalize s t' = .ok (t.append (bs.flatMap bothEnds)) := by
  cases bs with
  | nil => exact ⟨new, t, rfl, by simp [SampleTrait.finalize, addCur, new, TrainSet.append]⟩
  | cons b bs =>
    have hb : PageBlock N 0 b := hbs 0 b rfl
    match b, hb with
    | x :: b, hb =>
      obtain ⟨s, t', hrest, hfin⟩ := addAll_pages t hb (fun j c hc => by
        have h := hbs (j + 1) c (by simpa using hc)
        rwa [show j + 1 = 0 + 1 + j by omega] at h)
      refine ⟨s, t', ?_, hfin⟩
      rw [List.flatten_cons, List.cons_append]
      change addAll ([x] ++ (b ++ bs.flatten)) _ t = _
      have hone : addAll [x] (new : PageSampler N K) t = .ok (ofBlock [x], t) := rfl
      rw [addAll_append, hone, ok_bind, addAll_append,
        addAll_inside _ (by simp) (by simpa using hb), ok_bind]
      exact hrest

end PageSampler
end XStore.Xcache
