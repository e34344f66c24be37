import Mathlib.Data.List.Basic

/-! Encodings that tell where they end: a list of them needs no separators. -/
namespace XStore.Lib
variable {α β : Type*} {P : α → Prop} {f : α → List β}

/-- No encoding of a value in `P` is the beginning of another one. -/
def SelfDelimiting (P : α → Prop) (f : α → List β) : Prop :=
  ∀ a b xs ys, P a → P b → f a ++ xs = f b ++ ys → a = b

theorem SelfDelimiting.of_length {n : ℕ} (hlen : ∀ a, (f a).length = n)
    (hinj : ∀ a b, P a → P b → f a = f b → a = b) : SelfDelimiting P f := by
  intro a b xs ys ha hb h
  exact hinj a b ha hb (List.append_inj_left h ((hlen a).trans (hlen b).symm))

theorem SelfDelimiting.flatMap_inj (hf : SelfDelimiting P f) {as bs : List α} {xs ys : List β}
    (hlen : as.length = bs.length) (has : ∀ a ∈ as, P a) (hbs : ∀ b ∈ bs, P b)
    (h : as.flatMap f ++ xs = bs.flatMap f ++ ys) : as = bs := by
  induction as generalizing bs with
  | nil => exact (List.eq_nil_of_length_eq_zero hlen.symm).symm
  | cons a as ih =>
    cases bs with
    | nil => simp at hlen
    | cons b bs =>
      rw [List.flatMap_cons, List.flatMap_cons, List.append_assoc, List.append_assoc] at h
      have hab : a = b := hf a b _ _ (has a (by simp)) (hbs b (by simp)) h
      subst hab
      have htail := ih (by simpa using hlen) (fun c hc => has c (List.mem_cons_of_mem a hc))
        (fun c hc => hbs c (List.mem_cons_of_mem a hc)) (List.append_cancel_left h)
      rw [htail]

end XStore.Lib
