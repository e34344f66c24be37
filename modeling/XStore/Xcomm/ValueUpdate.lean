import XStore.Xcomm.TornRead

/-! In-place updates of large values (xnode.hh). `reset` sets both sequence numbers to 1 before
it stores the payload, and no store says that a write is going on. -/
namespace XStore.Xcomm
open XStore.Lib
variable {s : ℕ}

namespace WrappedType

/-- The sequence numbers first, the payload after them. -/
def reset (o : WrappedType s) (t : Fin s → Byte) : WrappedType s :=
  let o := init o.payload
  { o with payload := t }

end WrappedType

/-- The words of a payload; the last one may be short. -/
def payloadWords (s : ℕ) : ℕ := (s + 7) / 8

/-- Where the thread stands that calls `value_update`: it has stored `seq`, or both sequence
numbers and `words` words of the payload. -/
inductive Updater (s : ℕ) where
  | idle
  | seqStored (v : Fin s → Byte)
  | storing (v : Fin s → Byte) (words : ℕ)

/-- A slot of a node, the thread that updates it and a reader. `values` records the complete
values that were in the slot. -/
structure SlotState (s : ℕ) where
  obj : WrappedType s
  updater : Updater s
  values : List (Fin s → Byte)
  reader : Reader

/-- The stores of `value_update`, in the order of the program, and the steps of the reader. -/
inductive SlotEvent (s : ℕ) where
  | storeSeq (v : Fin s → Byte)
  | storeCheck
  | storeWord
  | load
  | restart

def SlotState.init (o : WrappedType s) : SlotState s where
  obj := o
  updater := .idle
  values := [o.payload]
  reader := { pos := 0, copy := fun _ => 0, started := 0, latest := 0 }

def storePayloadWord (p v : Fin s → Byte) (w : ℕ) : Fin s → Byte :=
  fun i => if i.val / 8 = w then v i else p i

def slotStep (σ : SlotState s) : SlotEvent s → Option (SlotState s)
  | .storeSeq v =>
    match σ.updater with
    | .idle => some { σ with
        updater := .seqStored v
        obj := { σ.obj with seq := kInvalidSeq + 1 } }
    | _ => none
  | .storeCheck =>
    match σ.updater with
    | .seqStored v => some { σ with
        updater := .storing v 0
        obj := { σ.obj with seqCheck := σ.obj.seq } }
    | _ => none
  | .storeWord =>
    match σ.updater with
    | .storing v w =>
      let obj := { σ.obj with payload := storePayloadWord σ.obj.payload v w }
      if w + 1 < payloadWords s then some { σ with updater := .storing v (w + 1), obj := obj }
      else some { σ with updater := .idle, obj := obj, values := σ.values ++ [v] }
    | _ => none
  | .load =>
    if σ.reader.finished s then none
    else some { σ with reader := σ.reader.load σ.obj σ.values.length }
  | .restart =>
    if σ.reader.finished s then some { σ with reader := { σ.reader with pos := 0 } } else none

def valueUpdate (v : Fin s → Byte) : List (SlotEvent s) :=
  .storeSeq v :: .storeCheck :: List.replicate (payloadWords s) .storeWord

theorem run_storeWords {σ : SlotState s} {v : Fin s → Byte} {w : ℕ} (n : ℕ)
    (hu : σ.updater = .storing v w) (hn : w + n + 1 = payloadWords s) :
    run slotStep (List.replicate (n + 1) .storeWord) σ = some { σ with
      updater := .idle
      obj := { σ.obj with payload := fun i => if w ≤ i.val / 8 then v i else σ.obj.payload i }
      values := σ.values ++ [v] } := by
  have hword : ∀ i : Fin s, i.val / 8 < payloadWords s := by
    intro i
    have hi := i.isLt
    unfold payloadWords
    omega
  induction n generalizing σ w with
  | zero =>
    have hlast : storePayloadWord σ.obj.payload v w =
        fun i => if w ≤ i.val / 8 then v i else σ.obj.payload i := by
      funext i
      have hi := hword i
      exact if_congr (by omega) rfl rfl
    simp only [Nat.zero_add, List.replicate_one, run, slotStep, hu, if_neg (by omega :
      ¬ w + 1 < payloadWords s), Option.bind_some, hlast]
  | succ n ih =>
    have hstep : slotStep σ .storeWord = some { σ with
        updater := .storing v (w + 1)
        obj := { σ.obj with payload := storePayloadWord σ.obj.payload v w } } := by
      simp only [slotStep, hu, if_pos (by omega : w + 1 < payloadWords s)]
    rw [List.replicate_succ, run_cons hstep, ih rfl (by omega)]
    have hrest : (fun i : Fin s => if w + 1 ≤ i.val / 8 then v i
        else storePayloadWord σ.obj.payload v w i) =
        fun i => if w ≤ i.val / 8 then v i else σ.obj.payload i := by
      funext i
      unfold storePayloadWord
      split_ifs <;> first | rfl | omega
    simp only [hrest]

theorem run_valueUpdate (hs : 0 < s) {σ : SlotState s} (hu : σ.updater = .idle)
    (v : Fin s → Byte) : run slotStep (valueUpdate v) σ =
      some { σ with obj := σ.obj.reset v, values := σ.values ++ [v] } := by
  obtain ⟨n, hn⟩ : ∃ n, payloadWords s = n + 1 :=
    ⟨payloadWords s - 1, by unfold payloadWords; omega⟩
  let σ₁ : SlotState s := { σ with
    updater := .storing v 0
    obj := { σ.obj with seq := kInvalidSeq + 1, seqCheck := kInvalidSeq + 1 } }
  have hseqs : run slotStep [.storeSeq v, .storeCheck] σ = some σ₁ := by
    simp only [run, slotStep, hu, Option.bind_some]
    rfl
  have hwords := run_storeWords n (σ := σ₁) rfl (by omega)
  rw [valueUpdate, hn]
  refine (run_trans hseqs hwords).trans ?_
  simp only [Nat.zero_le, if_true, σ₁, WrappedType.reset, WrappedType.init, hu]

theorem run_slotLoads (m : ℕ) (σ : SlotState s) (hm : σ.reader.pos + m ≤ WrappedType.size s / 8) :
    run slotStep (List.replicate m .load) σ =
      some { σ with reader := σ.reader.loads σ.obj σ.values.length m } := by
  induction m generalizing σ with
  | zero => rw [Reader.loads_zero]; rfl
  | succ m ih =>
    have hstep : slotStep σ .load =
        some { σ with reader := σ.reader.load σ.obj σ.values.length } := by
      have hf : ¬ σ.reader.finished s := by
        unfold Reader.finished
        omega
      simp only [slotStep, hf, if_false]
    have hpos : (σ.reader.load σ.obj σ.values.length).pos = σ.reader.pos + 1 := rfl
    rw [List.replicate_succ, run_cons hstep, ih _ (by rw [hpos]; omega), ← Reader.loads_succ]

def Whole (σ : SlotState s) : Prop :=
  σ.reader.finished s → (WrappedType.ofBuffer s σ.reader.copy).consistent = true →
    payloadOf s σ.reader.copy ∈ σ.values

theorem byte_add_one_ne (x : Byte) : x + 1 ≠ x := by
  intro h
  have hval : (x.val + 1) % 256 = x.val := congrArg Fin.val h
  omega

/-- An update after the first load of a copy, when the sequence numbers are 1 already: every
later load belongs to the next value. -/
theorem run_overlap (hs : 8 < s) (o : WrappedType s) (p q : Fin s → Byte) :
    ∃ es σ, run slotStep es (SlotState.init o) = some σ ∧ σ.reader.finished s ∧
      σ.values = [o.payload, p, q] ∧
      (∀ b < 8, σ.reader.copy b = (o.reset p).byteAt b) ∧
      ∀ b, 8 ≤ b → b < 8 + s → σ.reader.copy b = (o.reset q).byteAt b := by
  have hsize : ∀ b, b < 8 + s → b / 8 < WrappedType.size s / 8 := by
    intro b hb
    unfold WrappedType.size
    omega
  have hwords := hsize 8 (by omega)
  -- the first update and the first load
  let σ₁ : SlotState s := { SlotState.init o with obj := o.reset p, values := [o.payload, p] }
  have hrun₁ : run slotStep (valueUpdate p) (SlotState.init o) = some σ₁ :=
    run_valueUpdate (by omega) rfl p
  have hpos₀ : σ₁.reader.pos = 0 := rfl
  let rd₁ := σ₁.reader.loads σ₁.obj σ₁.values.length 1
  have hrun₂ := run_slotLoads 1 σ₁ (by omega)
  have hpos₁ : rd₁.pos = 1 := rfl
  -- the second update and the other loads
  let σ₂ : SlotState s := { σ₁ with
    reader := rd₁, obj := (o.reset p).reset q, values := [o.payload, p, q] }
  have hrun₃ : run slotStep (valueUpdate q) { σ₁ with reader := rd₁ } = some σ₂ :=
    run_valueUpdate (by omega) rfl q
  let m := WrappedType.size s / 8 - 1
  let rd₂ := rd₁.loads σ₂.obj σ₂.values.length m
  have hrun₄ := run_slotLoads m σ₂ (show rd₁.pos + m ≤ _ by omega)
  have hpos₂ : rd₂.pos = rd₁.pos + m := rfl
  refine ⟨_, { σ₂ with reader := rd₂ },
    run_trans (run_trans (run_trans hrun₁ hrun₂) hrun₃) hrun₄, ?_, rfl, ?_, ?_⟩
  · unfold Reader.finished
    simp only
    omega
  · intro b hb
    change rd₂.copy b = _
    rw [Reader.loads_copy_other (by omega), Reader.loads_copy (by omega) (by omega)]
  · intro b hb hb'
    have hword := hsize b hb'
    exact Reader.loads_copy (by omega) (by omega)

/-- Such a copy is consistent, and it mixes the values if they differ in every byte. -/
theorem exists_torn (hs : 8 < s) (o : WrappedType s) :
    ∃ es σ, run slotStep es (SlotState.init o) = some σ ∧ ¬ Whole σ := by
  let old := o.payload ⟨0, by omega⟩
  obtain ⟨es, σ, hrun, hfin, hvalues, hlow, hhigh⟩ :=
    run_overlap hs o (fun _ => old + 1) (fun _ => old + 1 + 1)
  refine ⟨es, σ, hrun, fun hwhole => ?_⟩
  have hseq : WrappedType.u32At σ.reader.copy 0 = 1 := by
    refine WrappedType.u32At_eq (fun i hi => ?_) (by decide)
    rw [Nat.zero_add, hlow i (by omega), WrappedType.byteAt_seq _ hi]
    rfl
  have hcheck : WrappedType.u32At σ.reader.copy (4 + s) = 1 := by
    refine WrappedType.u32At_eq (fun i hi => ?_) (by decide)
    rw [hhigh _ (by omega) (by omega), WrappedType.byteAt_check _ hi]
    rfl
  have hmem := hwhole hfin (consistent_iff.mpr ⟨hseq.trans hcheck.symm, by rw [hseq]; decide⟩)
  have hfirst : payloadOf s σ.reader.copy ⟨0, by omega⟩ = old + 1 :=
    (hlow 4 (by decide)).trans (WrappedType.byteAt_payload _ ⟨0, by omega⟩)
  have hlast : payloadOf s σ.reader.copy ⟨s - 1, by omega⟩ = old + 1 + 1 :=
    (hhigh (4 + (s - 1)) (by omega) (by omega)).trans
      (WrappedType.byteAt_payload _ ⟨s - 1, by omega⟩)
  rw [hvalues, List.mem_cons, List.mem_cons, List.mem_singleton] at hmem
  rcases hmem with h | h | h
  · rw [h] at hfirst
    exact byte_add_one_ne old hfirst.symm
  · rw [h] at hlast
    exact byte_add_one_ne (old + 1) hlast.symm
  · rw [h] at hfirst
    exact byte_add_one_ne (old + 1) hfirst

/-- Some words of the payload are stored, others are not. -/
def SlotState.Partly (σ : SlotState s) : Prop := ∃ v w, σ.updater = .storing v (w + 1)

/-- The update does not meet a copy that shows the version 1: no payload word is stored after the
first load of such a copy and before it has the whole payload, and no copy starts in the middle
of a payload. -/
def Undisturbed (σ : SlotState s) : SlotEvent s → Prop
  | .storeWord => σ.reader.pos ≠ 0 → σ.reader.pos ≤ (3 + s) / 8 →
      WrappedType.u32At σ.reader.copy 0 ≠ kInvalidSeq + 1
  | .load => σ.reader.pos = 0 → ¬ σ.Partly
  | _ => True

inductive SlotStepped (σ : SlotState s) : SlotEvent s → SlotState s → Prop where
  | storeSeq (v : Fin s → Byte) (h : σ.updater = .idle) :
      SlotStepped σ (.storeSeq v) { σ with
        updater := .seqStored v, obj := { σ.obj with seq := 1 } }
  | storeCheck (v : Fin s → Byte) (h : σ.updater = .seqStored v) :
      SlotStepped σ .storeCheck { σ with
        updater := .storing v 0, obj := { σ.obj with seqCheck := σ.obj.seq } }
  | storeWord (v : Fin s → Byte) (w : ℕ) (h : σ.updater = .storing v w) :
      SlotStepped σ .storeWord { σ with
        updater := .storing v (w + 1)
        obj := { σ.obj with payload := storePayloadWord σ.obj.payload v w } }
  | storeLast (v : Fin s → Byte) (w : ℕ) (h : σ.updater = .storing v w)
      (hlast : payloadWords s ≤ w + 1) :
      SlotStepped σ .storeWord { σ with
        updater := .idle
        obj := { σ.obj with payload := storePayloadWord σ.obj.payload v w }
        values := σ.values ++ [v] }
  | load (h : ¬ σ.reader.finished s) :
      SlotStepped σ .load { σ with reader := σ.reader.load σ.obj σ.values.length }
  | restart (h : σ.reader.finished s) :
      SlotStepped σ .restart { σ with reader := { σ.reader with pos := 0 } }

theorem slotStep_cases {σ σ' : SlotState s} {e : SlotEvent s} (h : slotStep σ e = some σ') :
    SlotStepped σ e σ' := by
  cases e with
  | storeSeq v =>
    cases hu : σ.updater <;> simp only [slotStep, hu] at h <;> cases h
    exact .storeSeq v hu
  | storeCheck =>
    cases hu : σ.updater <;> simp only [slotStep, hu] at h <;> cases h
    exact .storeCheck _ hu
  | storeWord =>
    cases hu : σ.updater with
    | idle | seqStored => simp [slotStep, hu] at h
    | storing v w =>
      by_cases hlt : w + 1 < payloadWords s
      · simp only [slotStep, hu, if_pos hlt] at h
        cases h
        exact .storeWord v w hu
      · simp only [slotStep, hu, if_neg hlt] at h
        cases h
        exact .storeLast v w hu (not_lt.mp hlt)
  | load =>
    by_cases hf : σ.reader.finished s
    · simp [slotStep, hf] at h
    · simp only [slotStep, hf, if_false] at h
      cases h
      exact .load hf
  | restart =>
    by_cases hf : σ.reader.finished s
    · simp only [slotStep, hf, if_true] at h
      cases h
      exact .restart hf
    · simp [slotStep, hf] at h

structure UpdaterInv (σ : SlotState s) : Prop where
  whole : ¬ σ.Partly → σ.obj.payload ∈ σ.values
  seqStored : ∀ v, σ.updater = .seqStored v → σ.obj.seq = 1
  storing : ∀ v w, σ.updater = .storing v w →
    σ.obj.seqCheck = 1 ∧ ∀ i : Fin s, i.val / 8 < w → σ.obj.payload i = v i

theorem UpdaterInv.init (o : WrappedType s) : UpdaterInv (SlotState.init o) where
  whole _ := List.mem_singleton_self _
  seqStored v h := by cases h
  storing v w h := by cases h

theorem storePayloadWord_eq {p v : Fin s → Byte} {w : ℕ}
    (h : ∀ i : Fin s, i.val / 8 < w → p i = v i) (i : Fin s) (hi : i.val / 8 < w + 1) :
    storePayloadWord p v w i = v i := by
  unfold storePayloadWord
  split_ifs with hw
  · rfl
  · exact h i (by omega)

theorem UpdaterInv.step {σ σ' : SlotState s} {e : SlotEvent s} (h : UpdaterInv σ)
    (hs : SlotStepped σ e σ') : UpdaterInv σ' := by
  cases hs with
  | storeSeq v hu =>
    have hwhole := h.whole (by rintro ⟨v', w, hv⟩; simp [hu] at hv)
    exact ⟨fun _ => hwhole, by simp, by simp⟩
  | storeCheck v hu =>
    have hwhole := h.whole (by rintro ⟨v', w, hv⟩; simp [hu] at hv)
    refine ⟨fun _ => hwhole, by simp, fun v' w hv => ?_⟩
    cases hv
    exact ⟨h.seqStored v hu, fun i hi => absurd hi (Nat.not_lt_zero _)⟩
  | storeWord v w hu =>
    obtain ⟨hcheck, hstored⟩ := h.storing v w hu
    refine ⟨fun hwhole => absurd ⟨v, w, rfl⟩ hwhole, by simp, fun v' w' hv => ?_⟩
    cases hv
    exact ⟨hcheck, storePayloadWord_eq hstored⟩
  | storeLast v w hu hlast =>
    obtain ⟨-, hstored⟩ := h.storing v w hu
    have hall : storePayloadWord σ.obj.payload v w = v := by
      funext i
      have hi := i.isLt
      exact storePayloadWord_eq hstored i (by unfold payloadWords at hlast; omega)
    exact ⟨fun _ => by simp [hall], by simp, by simp⟩
  | load | restart => exact ⟨h.whole, h.seqStored, h.storing⟩

/-- What a copy can be. As long as it shows the version 1 the payload does not change under it;
any other version it has lost by the time that `seq_check` is loaded. -/
inductive CopyInv (σ : SlotState s) : Prop where
  | fresh (h : σ.reader.pos = 0)
  | holds (hpos : σ.reader.pos ≠ 0 ∧ σ.reader.pos ≤ (3 + s) / 8) (hwhole : ¬ σ.Partly)
      (hbytes : ∀ i : Fin s, (4 + i) / 8 < σ.reader.pos →
        σ.reader.copy (4 + i) = σ.obj.payload i)
  | whole (hpos : (3 + s) / 8 < σ.reader.pos) (h : payloadOf s σ.reader.copy ∈ σ.values)
  | detected (hpos : σ.reader.pos ≠ 0) (hseq : WrappedType.u32At σ.reader.copy 0 ≠ 1)
      (hcheck : σ.obj.seqCheck = 1)
      (hbytes : ∀ i < 4, (4 + s + i) / 8 < σ.reader.pos →
        σ.reader.copy (4 + s + i) = byteOf 1 i)

/-- A payload word that is stored during a copy. -/
theorem CopyInv.storeWord {σ σ' : SlotState s} (hu : UpdaterInv σ) (h : CopyInv σ)
    {v : Fin s → Byte} {w : ℕ} (hw : σ.updater = .storing v w)
    (hc : Undisturbed σ .storeWord) (hreader : σ'.reader = σ.reader)
    (hcheck' : σ'.obj.seqCheck = σ.obj.seqCheck) (hvalues : σ.values ⊆ σ'.values) :
    CopyInv σ' := by
  cases h with
  | fresh h => exact .fresh (by rwa [hreader])
  | holds hpos _ _ =>
    refine .detected (by rw [hreader]; exact hpos.1) (by rw [hreader]; exact hc hpos.1 hpos.2)
      (hcheck'.trans (hu.storing v w hw).1) (fun i hi hlt => ?_)
    rw [hreader] at hlt
    omega
  | whole hpos h => exact .whole (by rwa [hreader]) (by rw [hreader]; exact hvalues h)
  | detected hpos hseq hcheck hbytes =>
    exact .detected (by rwa [hreader]) (by rwa [hreader]) (hcheck'.trans hcheck)
      (by rwa [hreader])

theorem CopyInv.load_first {σ : SlotState s} (hs : 8 < s) (h : σ.reader.pos = 0)
    (hc : Undisturbed σ .load) :
    CopyInv { σ with reader := σ.reader.load σ.obj σ.values.length } := by
  have hpos : (σ.reader.load σ.obj σ.values.length).pos = 1 := congrArg (· + 1) h
  refine .holds (by simp only [hpos]; omega) (hc h) (fun i hi => ?_)
  rw [hpos] at hi
  simp only
  rw [Reader.load_here (by omega), WrappedType.byteAt_payload]

theorem CopyInv.load {σ : SlotState s} (hs : 8 < s) (hu : UpdaterInv σ) (h : CopyInv σ)
    (hc : Undisturbed σ .load) :
    CopyInv { σ with reader := σ.reader.load σ.obj σ.values.length } := by
  have hpos : (σ.reader.load σ.obj σ.values.length).pos = σ.reader.pos + 1 := rfl
  cases h with
  | fresh h => exact CopyInv.load_first hs h hc
  | holds hne hwhole hbytes =>
    have hnext : ∀ i : Fin s, (4 + i) / 8 < σ.reader.pos + 1 →
        (σ.reader.load σ.obj σ.values.length).copy (4 + i) = σ.obj.payload i := by
      intro i hi
      by_cases hword : (4 + i.val) / 8 = σ.reader.pos
      · rw [Reader.load_here hword, WrappedType.byteAt_payload]
      · rw [Reader.load_other hword]
        exact hbytes i (by omega)
    by_cases hlast : σ.reader.pos + 1 ≤ (3 + s) / 8
    · exact .holds ⟨Nat.succ_ne_zero _, hlast⟩ hwhole hnext
    · refine .whole (not_le.mp hlast) ?_
      have hpay : payloadOf s (σ.reader.load σ.obj σ.values.length).copy = σ.obj.payload := by
        funext i
        have hi := i.isLt
        exact hnext i (by omega)
      simp only [hpay]
      exact hu.whole hwhole
  | whole hlt h =>
    have hpay : payloadOf s (σ.reader.load σ.obj σ.values.length).copy =
        payloadOf s σ.reader.copy := by
      funext i
      have hi := i.isLt
      exact Reader.load_other (o := σ.obj) (n := σ.values.length) (by omega)
    exact .whole (by simp only [hpos]; omega) (by rwa [hpay])
  | detected hne hseq hcheck hbytes =>
    refine .detected (Nat.succ_ne_zero _) ?_ hcheck (fun i hi hlt => ?_)
    · rwa [Reader.u32At_load_other (fun i hi => by omega)]
    · simp only at hlt ⊢
      by_cases hword : (4 + s + i) / 8 = σ.reader.pos
      · rw [Reader.load_here hword, WrappedType.byteAt_check _ hi, hcheck]
      · rw [Reader.load_other hword]
        exact hbytes i hi (by omega)

theorem CopyInv.step {σ σ' : SlotState s} {e : SlotEvent s} (hs : 8 < s) (hu : UpdaterInv σ)
    (h : CopyInv σ) (hst : SlotStepped σ e σ') (hc : Undisturbed σ e) : CopyInv σ' := by
  cases hst with
  | storeWord v w hw => exact h.storeWord hu hw hc rfl rfl (List.Subset.refl _)
  | storeLast v w hw => exact h.storeWord hu hw hc rfl rfl (List.subset_append_left _ _)
  | load => exact h.load hs hu hc
  | restart => exact .fresh rfl
  | storeSeq v hw =>
    cases h with
    | fresh h => exact .fresh h
    | holds hpos hwhole hbytes => exact .holds hpos (by rintro ⟨v', w, hv⟩; cases hv) hbytes
    | whole hpos h => exact .whole hpos h
    | detected hpos hseq hcheck hbytes => exact .detected hpos hseq hcheck hbytes
  | storeCheck v hw =>
    cases h with
    | fresh h => exact .fresh h
    | holds hpos hwhole hbytes => exact .holds hpos (by rintro ⟨v', w, hv⟩; cases hv) hbytes
    | whole hpos h => exact .whole hpos h
    | detected hpos hseq hcheck hbytes =>
      exact .detected hpos hseq (hu.seqStored v hw) hbytes

theorem CopyInv.isWhole {σ : SlotState s} (h : CopyInv σ) : Whole σ := by
  intro hfin hcons
  obtain ⟨heq, -⟩ := consistent_iff.mp hcons
  have hpos : (7 + s) / 8 < σ.reader.pos := by
    rw [hfin]
    unfold WrappedType.size
    omega
  cases h with
  | fresh h => omega
  | holds hle => omega
  | whole _ h => exact h
  | detected _ hseq _ hbytes =>
    have hcheck : WrappedType.u32At σ.reader.copy (4 + s) = 1 :=
      WrappedType.u32At_eq (fun i hi => hbytes i hi (by omega)) (by decide)
    exact absurd (heq.trans hcheck) hseq

/-- No slot is safe: some run gives its reader a mixture. In every run in which no update meets
a copy of version 1, all copies are whole. -/
theorem value_update_undisturbed (hs : 8 < s) (o : WrappedType s) :
    (∃ es σ, run slotStep es (SlotState.init o) = some σ ∧ ¬ Whole σ) ∧
      ∀ es, AllSteps slotStep Undisturbed es (SlotState.init o) →
        AllStates slotStep Whole es (SlotState.init o) := by
  refine ⟨exists_torn hs o, fun es hC => ?_⟩
  have hstep : ∀ σ e σ', slotStep σ e = some σ' → Undisturbed σ e →
      UpdaterInv σ ∧ CopyInv σ → UpdaterInv σ' ∧ CopyInv σ' :=
    fun σ e σ' he hc h => ⟨h.1.step (slotStep_cases he), h.2.step hs h.1 (slotStep_cases he) hc⟩
  exact (hC.allStates hstep ⟨UpdaterInv.init o, .fresh rfl⟩).imp (fun σ h => h.2.isWhole)

/-- A copy of version 5 that an update meets. -/
theorem value_update_undisturbed_sixteen :
    letI o : WrappedType 16 := { seq := 5, payload := fun _ => 0, seqCheck := 5 }
    (∃ es σ, run slotStep es (SlotState.init o) = some σ ∧ ¬ Whole σ) ∧
      AllStates slotStep Whole [.load, .storeSeq (fun _ => 7), .storeCheck, .storeWord]
        (SlotState.init o) := by
  obtain ⟨htorn, hwhole⟩ := value_update_undisturbed (by decide)
    ({ seq := 5, payload := fun _ => 0, seqCheck := 5 } : WrappedType 16)
  refine ⟨htorn, hwhole _ ?_⟩
  refine .cons rfl ?_ (.cons rfl trivial (.cons rfl trivial (.cons rfl ?_ trivial)))
  · rintro - ⟨v, w, h⟩
    cases h
  · intro _ _
    decide

/-- Values of 16 bytes. -/
theorem value_update_torn :
    ¬ ∀ (s : ℕ) (o : WrappedType s), 8 < s → o.consistent = true →
      ∀ es σ, run slotStep es (SlotState.init o) = some σ → Whole σ := by
  intro hall
  obtain ⟨es, σ, hrun, hnot⟩ := exists_torn (by decide : 8 < 16) (.init fun _ => 0)
  exact hnot (hall 16 _ (by decide) rfl es σ hrun)

end XStore.Xcomm
