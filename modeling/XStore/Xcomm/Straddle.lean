import XStore.Xcomm.TornRead
import Mathlib.Tactic.IntervalCases

/-! A `seq_check` across two words: its low bytes can be loaded in the middle of a write, its
high bytes afterwards, and together they look like the number before the write. -/
namespace XStore.Xcomm
open XStore.Lib
variable {s : ℕ}

def quietWrite (s : ℕ) : List (Event s) :=
  [.invalidateCheck, .invalidateSeq, .storeSeq, .storeCheck]

def quietState (n : ℕ) (p : Fin s → Byte) : State s where
  obj := { seq := n + 1, payload := p, seqCheck := n + 1 }
  writer := .idle
  versions := List.replicate (n + 1) p
  readers := (State.init p).readers

theorem run_quiet (n : ℕ) (hn : n + 1 < 2 ^ 32) (p : Fin s → Byte) :
    run step (List.replicate n (quietWrite s)).flatten (State.init p) =
      some (quietState n p) := by
  induction n with
  | zero => rfl
  | succ n ih =>
    rw [List.replicate_succ', List.flatten_append, run_append, ih (by omega)]
    have hmod : (n + 1 + 1) % 2 ^ 32 = n + 1 + 1 := Nat.mod_eq_of_lt hn
    simp only [Option.bind_some, List.flatten_singleton, quietWrite, run, step, quietState, hmod,
      ← List.replicate_succ']

theorem run_loads (m : ℕ) (σ : State s)
    (hm : (σ.readers 0).pos + m ≤ WrappedType.size s / 8) :
    run step (List.replicate m (.load 0)) σ =
      some (σ.setReader 0 ((σ.readers 0).loads σ.obj σ.versions.length m)) := by
  induction m generalizing σ with
  | zero =>
    rw [Reader.loads_zero]
    simp [State.setReader]
  | succ m ih =>
    set rd := (σ.readers 0).load σ.obj σ.versions.length with hrd
    have hstep : step σ (.load 0) = some (σ.setReader 0 rd) := by
      have hf : ¬ (σ.readers 0).finished s := by
        unfold Reader.finished
        omega
      simp [step, hf, hrd]
    have hself : (σ.setReader 0 rd).readers 0 = rd := State.setReader_self σ 0 rd
    have hpos : rd.pos = (σ.readers 0).pos + 1 := rfl
    rw [List.replicate_succ, run_cons hstep, ih _ (by rw [hself, hpos]; omega), hself,
      ← Reader.loads_succ]
    simp [State.setReader, hrd]

/-- The number at which the bytes of `seq_check` in the first of its two words are all 0. -/
def lowBytes (s : ℕ) : ℕ := 8 - (4 + s) % 8

theorem byteOf_straddle {k i : ℕ} (hk : 1 ≤ k) (hk' : k ≤ 3) (hi : i < 4) :
    (i < k → byteOf 0 i = byteOf (256 ^ k) i) ∧
      (k ≤ i → byteOf (256 ^ k + 1) i = byteOf (256 ^ k) i) := by
  interval_cases k <;> interval_cases i <;> decide

/-- The writer starts the next write in the middle of a copy, right before the first word of
`seq_check` is loaded, and ends it right after. -/
theorem straddle_run (hs : 9 ≤ s) (hmod : 5 ≤ (4 + s) % 8) (c : ℕ) (hc : 0 < c)
    (hc' : c + 1 < 2 ^ 32) (p q : Fin s → Byte) :
    ∃ es σ, run step es (State.init p) = some σ ∧ (σ.readers 0).finished s ∧
      (σ.readers 0).started = c ∧ (σ.readers 0).latest = c + 1 ∧
      σ.versions = List.replicate c p ++ [q] ∧ ∀ b, b / 8 < WrappedType.size s / 8 →
        (σ.readers 0).copy b =
          if b / 8 < (4 + s) / 8 then (⟨c, p, c⟩ : WrappedType s).byteAt b
          else if b / 8 = (4 + s) / 8 then (⟨0, q, 0⟩ : WrappedType s).byteAt b
          else (⟨c + 1, q, c + 1⟩ : WrappedType s).byteAt b := by
  obtain ⟨n, rfl⟩ : ∃ n, c = n + 1 := ⟨c - 1, by omega⟩
  have hsize : (4 + s) / 8 + 1 < WrappedType.size s / 8 := by
    unfold WrappedType.size
    omega
  -- the words before `seq_check`
  let rd₁ := ((quietState n p).readers 0).loads (quietState n p).obj
    (quietState n p).versions.length ((4 + s) / 8)
  have hrun₁ := run_loads ((4 + s) / 8) (quietState n p)
    (by simp only [quietState, State.init]; omega)
  have hpos₁ : rd₁.pos = (4 + s) / 8 := Nat.zero_add _
  -- the next write up to its payload, and the first word of `seq_check`
  let σ₂ : State s := { (quietState n p).setReader 0 rd₁ with
    writer := .writing (n + 1), obj := ⟨0, q, 0⟩ }
  have hrun₂ : run step [.invalidateCheck, .invalidateSeq, .storePayload (fun i => some (q i))]
      ((quietState n p).setReader 0 rd₁) = some σ₂ := rfl
  have hself₂ : σ₂.readers 0 = rd₁ := State.setReader_self (quietState n p) 0 rd₁
  let rd₂ := rd₁.loads σ₂.obj σ₂.versions.length 1
  have hrun₃ := run_loads 1 σ₂ (by rw [hself₂, hpos₁]; omega)
  rw [hself₂] at hrun₃
  have hpos₂ : rd₂.pos = (4 + s) / 8 + 1 := by rw [← hpos₁]; rfl
  -- the end of the write, and all other words
  let σ₄ : State s := { σ₂.setReader 0 rd₂ with
    writer := .idle, obj := ⟨n + 1 + 1, q, n + 1 + 1⟩
    versions := List.replicate (n + 1) p ++ [q] }
  have hrun₄ : run step [.storeSeq, .storeCheck] (σ₂.setReader 0 rd₂) = some σ₄ := by
    have hmod : (n + 1 + 1) % 2 ^ 32 = n + 1 + 1 := Nat.mod_eq_of_lt hc'
    simp only [run, step, State.setReader, σ₂, hmod, Option.bind_some]
    rfl
  have hself₄ : σ₄.readers 0 = rd₂ := State.setReader_self σ₂ 0 rd₂
  let m := WrappedType.size s / 8 - ((4 + s) / 8 + 1)
  let rd₃ := rd₂.loads σ₄.obj σ₄.versions.length m
  have hrun₅ := run_loads m σ₄ (by rw [hself₄, hpos₂]; omega)
  rw [hself₄] at hrun₅
  have hrun := run_trans (run_trans (run_trans (run_trans (run_trans (run_quiet n (by omega) p)
    hrun₁) hrun₂) hrun₃) hrun₄) hrun₅
  have hself₅ : (σ₄.setReader 0 rd₃).readers 0 = rd₃ := State.setReader_self σ₄ 0 rd₃
  have hstarted : rd₃.started = rd₁.started := by
    simp only [rd₃, rd₂, Reader.loads] at hpos₂ ⊢
    rw [if_neg (by omega), if_neg (by omega)]
  refine ⟨_, σ₄.setReader 0 rd₃, hrun, ?_⟩
  rw [hself₅]
  refine ⟨?_, ?_, ?_, rfl, fun b hb => ?_⟩
  · have hpos₃ : rd₃.pos = rd₂.pos + m := rfl
    unfold Reader.finished
    omega
  · rw [hstarted]
    simp only [rd₁, Reader.loads, quietState, List.length_replicate]
    exact if_pos ⟨rfl, by omega⟩
  · simp only [rd₃, Reader.loads, if_pos (by omega : 0 < m)]
    simp [σ₄]
  · by_cases hlow : b / 8 < (4 + s) / 8
    · rw [if_pos hlow, Reader.loads_copy_other (by omega), Reader.loads_copy_other (by omega),
        Reader.loads_copy (Nat.zero_le _) (show b / 8 < rd₁.pos by omega)]
      rfl
    · by_cases heq : b / 8 = (4 + s) / 8
      · rw [if_neg hlow, if_pos heq, Reader.loads_copy_other (by omega),
          Reader.loads_copy (by omega) (by omega)]
      · rw [if_neg hlow, if_neg heq, Reader.loads_copy (by omega) (by omega)]

/-- Such a copy is consistent and mixes two payloads. -/
theorem not_tornFree (hs : 9 ≤ s) (hmod : 5 ≤ (4 + s) % 8) : ¬ TornFree s := by
  intro h
  have hk : 1 ≤ lowBytes s ∧ lowBytes s ≤ 3 := by
    unfold lowBytes
    omega
  have hc : 0 < 256 ^ lowBytes s ∧ 256 ^ lowBytes s + 1 < 2 ^ 32 := by
    obtain ⟨hk, hk'⟩ := hk
    generalize lowBytes s = k at hk hk'
    interval_cases k <;> decide
  obtain ⟨es, σ, hrun, hfin, hstarted, hlatest, hversions, hcopy⟩ :=
    straddle_run hs hmod _ hc.1 hc.2 (fun _ => 0) (fun _ => 1)
  have hsize : ∀ b, b < 8 + s → b / 8 < WrappedType.size s / 8 := by
    intro b hb
    unfold WrappedType.size
    omega
  have hlt : 256 ^ lowBytes s < 2 ^ 32 := by omega
  have hseq : WrappedType.u32At (σ.readers 0).copy 0 = 256 ^ lowBytes s := by
    refine WrappedType.u32At_eq (fun i hi => ?_) hlt
    rw [Nat.zero_add, hcopy i (hsize i (by omega)), if_pos (by omega), WrappedType.byteAt_seq _ hi]
  have hcheck : WrappedType.u32At (σ.readers 0).copy (4 + s) = 256 ^ lowBytes s := by
    refine WrappedType.u32At_eq (fun i hi => ?_) hlt
    obtain ⟨hlow, hhigh⟩ := byteOf_straddle hk.1 hk.2 hi
    rw [hcopy _ (hsize _ (by omega)), if_neg (by omega)]
    by_cases hword : (4 + s + i) / 8 = (4 + s) / 8
    · rw [if_pos hword, WrappedType.byteAt_check _ hi]
      exact hlow (by unfold lowBytes; omega)
    · rw [if_neg hword, WrappedType.byteAt_check _ hi]
      exact hhigh (by unfold lowBytes; omega)
  have hmem := h _ es σ hrun 0 hfin (by rw [hstarted, hlatest]; omega)
    (consistent_iff.mpr ⟨hseq.trans hcheck.symm, by rw [hseq]; omega⟩)
  -- the first byte is old, the last one new
  have hfirst : (WrappedType.ofBuffer s (σ.readers 0).copy).payload ⟨0, by omega⟩ = 0 := by
    change (σ.readers 0).copy (4 + (⟨0, by omega⟩ : Fin s)) = 0
    rw [hcopy _ (hsize _ (by simp only; omega)), if_pos (by simp only; omega),
      WrappedType.byteAt_payload]
  have hlast : (WrappedType.ofBuffer s (σ.readers 0).copy).payload ⟨s - 1, by omega⟩ = 1 := by
    change (σ.readers 0).copy (4 + (⟨s - 1, by omega⟩ : Fin s)) = 1
    rw [hcopy _ (hsize _ (by simp only; omega)), if_neg (by simp only; omega),
      if_pos (by simp only; omega), WrappedType.byteAt_payload]
  rw [hversions, List.mem_append, List.mem_singleton] at hmem
  cases hmem with
  | inl hold =>
    rw [List.eq_of_mem_replicate hold] at hlast
    have hbyte : (0 : Byte) = 1 := hlast
    exact absurd hbyte (by decide)
  | inr hnew =>
    rw [hnew] at hfirst
    have hbyte : (1 : Byte) = 0 := hfirst
    exact absurd hbyte (by decide)

/-- A copy is never torn exactly when the payload lies in the first word or `seq_check` does
not lie across two words. -/
theorem tornFree_iff (s : ℕ) : TornFree s ↔ s ≤ 4 ∨ (4 + s) % 8 ≤ 4 := by
  constructor
  · intro h
    by_contra hnot
    exact not_tornFree (by omega) (by omega) h
  · rintro (hs | hmod)
    · exact tornFree_small hs
    · by_cases hs : s ≤ 4
      · exact tornFree_small hs
      · exact tornFree_aligned (by omega) hmod

/-- A payload of 11 bytes. -/
theorem torn_read_eleven : ¬ TornFree 11 :=
  not_tornFree (by decide) (by decide)

end XStore.Xcomm
