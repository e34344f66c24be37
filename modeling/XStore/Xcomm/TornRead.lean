import XStore.Xcomm.WrappedType

/-! Torn reads: the two sequence numbers keep a copy whole unless `seq_check` lies across two
of the words that the reader loads. -/
namespace XStore.Xcomm
open XStore.Lib
variable {s : ℕ}

namespace WrappedType

theorem u32At_eq {mem : ℕ → Byte} {off x : ℕ} (h : ∀ i < 4, mem (off + i) = byteOf x i)
    (hx : x < 2 ^ 32) : u32At mem off = x := by
  have hbytes : (List.range 4).map (fun i => mem (off + i)) = toBytes 4 x :=
    List.map_congr_left (fun i hi => h i (List.mem_range.mp hi))
  rw [u32At, hbytes]
  exact ofBytes_toBytes_of_lt hx

theorem byteAt_seq (o : WrappedType s) {i : ℕ} (hi : i < 4) : o.byteAt i = byteOf o.seq i := by
  simp [byteAt, hi]

theorem byteAt_payload (o : WrappedType s) (i : Fin s) : o.byteAt (4 + i) = o.payload i := by
  simp [byteAt]

theorem byteAt_check (o : WrappedType s) {i : ℕ} (hi : i < 4) :
    o.byteAt (4 + s + i) = byteOf o.seqCheck i := by
  have h₁ : ¬ 4 + s + i < 4 := by omega
  have h₂ : ¬ 4 + s + i - 4 < s := by omega
  simp [byteAt, h₁, h₂, hi]

end WrappedType

/-- What the stores of the writer maintain. The latest of `n` versions has the number `n`. -/
structure WriterInv (σ : State s) : Prop where
  ne : σ.versions ≠ []
  idle : σ.writer = .idle → σ.obj.seq = σ.versions.length % 2 ^ 32 ∧
    σ.obj.seqCheck = σ.versions.length % 2 ^ 32 ∧ σ.obj.payload ∈ σ.versions
  begun : ∀ ret, σ.writer = .begun ret → ret = σ.versions.length % 2 ^ 32 ∧
    σ.obj.seq = σ.versions.length % 2 ^ 32 ∧ σ.obj.seqCheck = 0 ∧ σ.obj.payload ∈ σ.versions
  writing : ∀ ret, σ.writer = .writing ret → ret = σ.versions.length % 2 ^ 32 ∧
    σ.obj.seq = 0 ∧ σ.obj.seqCheck = 0
  ending : σ.writer = .ending → σ.obj.seq = (σ.versions.length + 1) % 2 ^ 32 ∧
    σ.obj.seqCheck = 0

theorem WriterInv.init (p : Fin s → Byte) : WriterInv (State.init p) where
  ne := by simp [State.init]
  idle := by simp [State.init, WrappedType.init, kInvalidSeq]
  begun := by simp [State.init]
  writing := by simp [State.init]
  ending := by simp [State.init]

inductive Stepped (σ : State s) : State s → Prop where
  | invalidateCheck (h : σ.writer = .idle) :
      Stepped σ { σ with writer := .begun σ.obj.seqCheck
                         obj := { σ.obj with seqCheck := 0 } }
  | invalidateSeq (ret : ℕ) (h : σ.writer = .begun ret) :
      Stepped σ { σ with writer := .writing ret, obj := { σ.obj with seq := 0 } }
  | storePayload (ret : ℕ) (h : σ.writer = .writing ret) (q : Fin s → Byte) :
      Stepped σ { σ with obj := { σ.obj with payload := q } }
  | storeSeq (ret : ℕ) (h : σ.writer = .writing ret) :
      Stepped σ { σ with writer := .ending, obj := { σ.obj with seq := (ret + 1) % 2 ^ 32 } }
  | storeCheck (h : σ.writer = .ending) :
      Stepped σ { σ with writer := .idle
                         obj := { σ.obj with seqCheck := σ.obj.seq }
                         versions := σ.versions ++ [σ.obj.payload] }
  | load (r : ℕ) (h : ¬ (σ.readers r).finished s) :
      Stepped σ (σ.setReader r ((σ.readers r).load σ.obj σ.versions.length))
  | restart (r : ℕ) (h : (σ.readers r).finished s) :
      Stepped σ (σ.setReader r { σ.readers r with pos := 0 })

theorem step_cases {σ σ' : State s} {e : Event s} (h : step σ e = some σ') : Stepped σ σ' := by
  cases e with
  | invalidateCheck =>
    cases hw : σ.writer <;> simp only [step, hw] at h <;> cases h
    exact .invalidateCheck hw
  | invalidateSeq =>
    cases hw : σ.writer <;> simp only [step, hw] at h <;> cases h
    exact .invalidateSeq _ hw
  | storePayload p =>
    cases hw : σ.writer <;> simp only [step, hw] at h <;> cases h
    rw [← hw]
    exact .storePayload _ hw _
  | storeSeq =>
    cases hw : σ.writer <;> simp only [step, hw] at h <;> cases h
    exact .storeSeq _ hw
  | storeCheck =>
    cases hw : σ.writer <;> simp only [step, hw] at h <;> cases h
    exact .storeCheck hw
  | load r =>
    by_cases hf : (σ.readers r).finished s
    · simp [step, hf] at h
    · simp only [step, hf, if_false] at h
      cases h
      exact .load r hf
  | restart r =>
    by_cases hf : (σ.readers r).finished s
    · simp only [step, hf, if_true] at h
      cases h
      exact .restart r hf
    · simp [step, hf] at h

theorem WriterInv.step {σ σ' : State s} (h : WriterInv σ) (hs : Stepped σ σ') : WriterInv σ' := by
  cases hs with
  | invalidateCheck hw =>
    obtain ⟨hseq, hcheck, hp⟩ := h.idle hw
    exact ⟨h.ne, by simp, by simpa [hcheck, hseq] using hp, by simp, by simp⟩
  | invalidateSeq ret hw =>
    obtain ⟨hret, -, hcheck, -⟩ := h.begun ret hw
    exact ⟨h.ne, by simp, by simp, by simp [hret, hcheck], by simp⟩
  | storePayload ret hw q =>
    obtain ⟨hret, hseq, hcheck⟩ := h.writing ret hw
    exact ⟨h.ne, by simp [hw], by simp [hw], by simp [hw, hret, hseq, hcheck], by simp [hw]⟩
  | storeSeq ret hw =>
    obtain ⟨hret, hseq, hcheck⟩ := h.writing ret hw
    exact ⟨h.ne, by simp, by simp, by simp, by simp [hret, hcheck, Nat.add_mod]⟩
  | storeCheck hw =>
    obtain ⟨hseq, -⟩ := h.ending hw
    exact ⟨by simp, by simp [hseq], by simp, by simp, by simp⟩
  | load r _ => exact ⟨h.ne, h.idle, h.begun, h.writing, h.ending⟩
  | restart r _ => exact ⟨h.ne, h.idle, h.begun, h.writing, h.ending⟩

theorem WriterInv.lt {σ : State s} (h : WriterInv σ) :
    σ.obj.seq < 2 ^ 32 ∧ σ.obj.seqCheck < 2 ^ 32 := by
  have hmod : ∀ x : ℕ, x % 2 ^ 32 < 2 ^ 32 := fun x => Nat.mod_lt x (by decide)
  cases hw : σ.writer with
  | idle =>
    obtain ⟨hseq, hcheck, -⟩ := h.idle hw
    rw [hseq, hcheck]
    exact ⟨hmod _, hmod _⟩
  | begun ret =>
    obtain ⟨-, hseq, hcheck, -⟩ := h.begun ret hw
    rw [hseq, hcheck]
    exact ⟨hmod _, by decide⟩
  | writing ret =>
    obtain ⟨-, hseq, hcheck⟩ := h.writing ret hw
    rw [hseq, hcheck]
    decide
  | ending =>
    obtain ⟨hseq, hcheck⟩ := h.ending hw
    rw [hseq, hcheck]
    exact ⟨hmod _, by decide⟩

attribute [ext] Reader

namespace Reader
open WrappedType
variable {rd : Reader} {o : WrappedType s} {n off : ℕ}

theorem load_here {b : ℕ} (h : b / 8 = rd.pos) : (rd.load o n).copy b = o.byteAt b := by
  simp [load, h]

theorem load_other {b : ℕ} (h : b / 8 ≠ rd.pos) : (rd.load o n).copy b = rd.copy b := by
  simp [load, h]

def loads (rd : Reader) (o : WrappedType s) (n m : ℕ) : Reader where
  pos := rd.pos + m
  copy b := if rd.pos ≤ b / 8 ∧ b / 8 < rd.pos + m then o.byteAt b else rd.copy b
  started := if rd.pos = 0 ∧ 0 < m then n else rd.started
  latest := if 0 < m then n else rd.latest

theorem loads_copy {m b : ℕ} (h : rd.pos ≤ b / 8) (h' : b / 8 < rd.pos + m) :
    (rd.loads o n m).copy b = o.byteAt b :=
  if_pos ⟨h, h'⟩

theorem loads_copy_other {m b : ℕ} (h : b / 8 < rd.pos ∨ rd.pos + m ≤ b / 8) :
    (rd.loads o n m).copy b = rd.copy b :=
  if_neg (by omega)

theorem loads_zero : rd.loads o n 0 = rd := by
  refine Reader.ext rfl (funext fun b => ?_) (if_neg (by omega)) rfl
  exact if_neg (by omega)

theorem loads_succ (m : ℕ) : (rd.load o n).loads o n m = rd.loads o n (m + 1) := by
  have hpos : (rd.load o n).pos = rd.pos + 1 := rfl
  refine Reader.ext (by simp only [loads, hpos]; omega) (funext fun b => ?_) ?_ ?_
  · simp only [loads, hpos]
    by_cases hb : b / 8 = rd.pos
    · rw [if_neg (by omega), if_pos (by omega), load_here hb]
    · rw [load_other hb]
      exact if_congr (by omega) rfl rfl
  · simp only [loads, hpos, if_neg (by omega : ¬ (rd.pos + 1 = 0 ∧ 0 < m))]
    exact if_congr (by omega) rfl rfl
  · simp only [loads, load, ite_self, if_pos (Nat.succ_pos m)]

theorem u32At_load_other (h : ∀ i < 4, (off + i) / 8 ≠ rd.pos) :
    u32At (rd.load o n).copy off = u32At rd.copy off := by
  unfold u32At
  congr 1
  exact List.map_congr_left (fun i hi => load_other (h i (List.mem_range.mp hi)))

theorem u32At_load_seq (h : rd.pos = 0) (ho : o.seq < 2 ^ 32) :
    u32At (rd.load o n).copy 0 = o.seq := by
  refine u32At_eq (fun i hi => ?_) ho
  rw [Nat.zero_add, load_here (by omega), byteAt_seq o hi]

/-- A `seq_check` that lies in one word is loaded in one step. -/
theorem u32At_load_check (h : rd.pos = (4 + s) / 8) (hs : (4 + s) % 8 ≤ 4)
    (ho : o.seqCheck < 2 ^ 32) : u32At (rd.load o n).copy (4 + s) = o.seqCheck := by
  refine u32At_eq (fun i hi => ?_) ho
  rw [load_here (by omega), byteAt_check o hi]

end Reader

def payloadOf (s : ℕ) (mem : ℕ → Byte) : Fin s → Byte := (WrappedType.ofBuffer s mem).payload

/-- What a reader knows of a large object, whose `seq_check` lies in a later word than `seq`:
version `n` was there when it loaded the first word, and either is there still, or the writer
has moved on; once it has loaded `seq_check`, the copy is decided. -/
inductive ReadInv (σ : State s) (rd : Reader) : Prop where
  | fresh (h : rd.pos = 0)
  | silent (hpos : rd.pos ≠ 0) (h : WrappedType.u32At rd.copy 0 = 0)
  | holds (n : ℕ) (hpos : rd.pos ≠ 0 ∧ rd.pos ≤ (4 + s) / 8)
      (hseq : WrappedType.u32At rd.copy 0 = n % 2 ^ 32 ∧ n % 2 ^ 32 ≠ 0) (hstart : rd.started ≤ n)
      (hn : (σ.writer = .idle ∨ ∃ ret, σ.writer = .begun ret) ∧ σ.versions.length = n ∨
        σ.writer = .ending ∧ σ.versions.length + 1 = n)
      (hbytes : ∀ i : Fin s, (4 + i) / 8 < rd.pos → rd.copy (4 + i) = σ.obj.payload i)
  | passed (n : ℕ) (hpos : rd.pos ≠ 0 ∧ rd.pos ≤ (4 + s) / 8)
      (hseq : WrappedType.u32At rd.copy 0 = n % 2 ^ 32 ∧ n % 2 ^ 32 ≠ 0) (hstart : rd.started ≤ n)
      (hn : n < σ.versions.length ∨ n = σ.versions.length ∧
        ((∃ ret, σ.writer = .writing ret) ∨ σ.writer = .ending))
  | whole (hpos : (4 + s) / 8 < rd.pos) (h : payloadOf s rd.copy ∈ σ.versions)
  | broken (hpos : (4 + s) / 8 < rd.pos)
      (h : WrappedType.u32At rd.copy (4 + s) ≠ WrappedType.u32At rd.copy 0)
  | late (hpos : (4 + s) / 8 < rd.pos) (h : rd.started + (2 ^ 32 - 1) ≤ rd.latest)
      (hle : rd.latest ≤ σ.versions.length)

/-- A step of the writer or of another reader. -/
theorem ReadInv.step {σ σ' : State s} {rd : Reader} (h : ReadInv σ rd)
    (hs : Stepped σ σ') : ReadInv σ' rd := by
  cases h with
  | fresh h => exact .fresh h
  | silent hpos h => exact .silent hpos h
  | broken hpos h => exact .broken hpos h
  | whole hpos h =>
    refine .whole hpos ?_
    cases hs with
    | storeCheck hw => exact List.mem_append_left _ h
    | invalidateCheck | invalidateSeq | storePayload | storeSeq | load | restart => exact h
  | late hpos h hle =>
    refine .late hpos h (hle.trans ?_)
    cases hs with
    | storeCheck hw => simp
    | invalidateCheck | invalidateSeq | storePayload | storeSeq | load | restart => exact le_rfl
  | passed n hpos hseq hstart hn =>
    refine .passed n hpos hseq hstart ?_
    cases hs with
    | invalidateCheck hw => exact hn.imp_right (fun h => by simp [hw] at h)
    | invalidateSeq ret hw => exact hn.imp_right (fun h => by simp [hw] at h)
    | storePayload ret hw q => exact hn
    | storeSeq ret hw => exact hn.imp_right (fun h => ⟨h.1, Or.inr rfl⟩)
    | storeCheck hw =>
      left
      simp only [List.length_append, List.length_singleton]
      omega
    | load | restart => exact hn
  | holds n hpos hseq hstart hn hbytes =>
    cases hs with
    | invalidateCheck hw =>
      refine .holds n hpos hseq hstart (Or.inl ⟨Or.inr ⟨_, rfl⟩, ?_⟩) hbytes
      simpa [hw] using hn
    | invalidateSeq ret hw =>
      refine .passed n hpos hseq hstart (Or.inr ⟨?_, Or.inl ⟨ret, rfl⟩⟩)
      simpa [hw, eq_comm] using hn
    | storePayload ret hw q => simp [hw] at hn
    | storeSeq ret hw => simp [hw] at hn
    | storeCheck hw =>
      refine .holds n hpos hseq hstart (Or.inl ⟨Or.inl rfl, ?_⟩) hbytes
      simpa [hw] using hn
    | load | restart => exact .holds n hpos hseq hstart hn hbytes

section Load
variable {σ : State s} {rd : Reader}

theorem load_pos : (rd.load σ.obj σ.versions.length).pos = rd.pos + 1 := rfl

theorem load_latest : (rd.load σ.obj σ.versions.length).latest = σ.versions.length := rfl

theorem load_started (h : rd.pos ≠ 0) :
    (rd.load σ.obj σ.versions.length).started = rd.started := by
  simp [Reader.load, h]

theorem load_first (h : rd.pos = 0) :
    (rd.load σ.obj σ.versions.length).started = σ.versions.length := by
  simp [Reader.load, h]

theorem load_seq (h : rd.pos ≠ 0) : WrappedType.u32At (rd.load σ.obj σ.versions.length).copy 0 =
    WrappedType.u32At rd.copy 0 :=
  Reader.u32At_load_other (fun i hi => by omega)

theorem load_behind (h : (4 + s) / 8 < rd.pos) (hmod : (4 + s) % 8 ≤ 4) :
    payloadOf s (rd.load σ.obj σ.versions.length).copy = payloadOf s rd.copy ∧
      WrappedType.u32At (rd.load σ.obj σ.versions.length).copy (4 + s) =
        WrappedType.u32At rd.copy (4 + s) := by
  constructor
  · funext i
    have hi := i.isLt
    exact Reader.load_other (o := σ.obj) (n := σ.versions.length) (by omega)
  · exact Reader.u32At_load_other (fun i hi => by omega)

theorem load_bytes (σ : State s) (rd : Reader)
    (hbytes : ∀ i : Fin s, (4 + i) / 8 < rd.pos → rd.copy (4 + i) = σ.obj.payload i) (i : Fin s)
    (hi : (4 + i) / 8 < rd.pos + 1) :
    (rd.load σ.obj σ.versions.length).copy (4 + i) = σ.obj.payload i := by
  by_cases h : (4 + i.val) / 8 = rd.pos
  · rw [Reader.load_here h, WrappedType.byteAt_payload]
  · rw [Reader.load_other h]
    exact hbytes i (by omega)

theorem ReadInv.load_first (hw : WriterInv σ) (hs : 4 < s) (h : rd.pos = 0) :
    ReadInv σ (rd.load σ.obj σ.versions.length) := by
  have hseq : WrappedType.u32At (rd.load σ.obj σ.versions.length).copy 0 = σ.obj.seq :=
    Reader.u32At_load_seq h hw.lt.1
  have hpos : rd.pos + 1 ≠ 0 ∧ rd.pos + 1 ≤ (4 + s) / 8 := by omega
  have hbytes := load_bytes σ rd (fun i hi => by omega)
  by_cases hz : σ.obj.seq = 0
  · exact .silent hpos.1 (hseq.trans hz)
  · cases hwr : σ.writer with
    | idle =>
      obtain ⟨hn, -, -⟩ := hw.idle hwr
      exact .holds σ.versions.length hpos ⟨hseq.trans hn, hn ▸ hz⟩ (XStore.Xcomm.load_first h).le
        (Or.inl ⟨Or.inl hwr, rfl⟩) hbytes
    | begun ret =>
      obtain ⟨-, hn, -, -⟩ := hw.begun ret hwr
      exact .holds σ.versions.length hpos ⟨hseq.trans hn, hn ▸ hz⟩ (XStore.Xcomm.load_first h).le
        (Or.inl ⟨Or.inr ⟨ret, hwr⟩, rfl⟩) hbytes
    | writing ret => exact absurd (hw.writing ret hwr).2.1 hz
    | ending =>
      obtain ⟨hn, -⟩ := hw.ending hwr
      refine .holds (σ.versions.length + 1) hpos ⟨hseq.trans hn, hn ▸ hz⟩ ?_
        (Or.inr ⟨hwr, rfl⟩) hbytes
      rw [XStore.Xcomm.load_first h]
      omega

/-- The load of `seq_check` decides the copy. -/
theorem ReadInv.load_check (hw : WriterInv σ) (hmod : (4 + s) % 8 ≤ 4)
    (hpos : rd.pos = (4 + s) / 8) (hne : rd.pos ≠ 0) (h : ReadInv σ rd) :
    ReadInv σ (rd.load σ.obj σ.versions.length) := by
  have hbehind : (4 + s) / 8 < rd.pos + 1 := by omega
  have hcheck : WrappedType.u32At (rd.load σ.obj σ.versions.length).copy (4 + s) =
      σ.obj.seqCheck := Reader.u32At_load_check hpos hmod hw.lt.2
  have hseq := load_seq (σ := σ) hne
  cases h with
  | fresh h => exact absurd h hne
  | silent _ h => exact .silent (by rw [load_pos]; omega) (hseq.trans h)
  | whole h | broken h | late h => omega
  | holds n _ hn hstart hcur hbytes =>
    have hzero : σ.obj.seqCheck = 0 → ReadInv σ (rd.load σ.obj σ.versions.length) := by
      intro hz
      refine .broken hbehind ?_
      rw [hcheck, hz, hseq, hn.1]
      exact hn.2.symm
    cases hwr : σ.writer with
    | idle =>
      refine .whole hbehind ?_
      have hpay : payloadOf s (rd.load σ.obj σ.versions.length).copy = σ.obj.payload := by
        funext i
        have hi := i.isLt
        exact load_bytes _ _ hbytes i (by omega)
      rw [hpay]
      exact (hw.idle hwr).2.2
    | begun ret => exact hzero (hw.begun ret hwr).2.2.1
    | writing ret => exact hzero (hw.writing ret hwr).2.2
    | ending => exact hzero (hw.ending hwr).2
  | passed n _ hn hstart hpast =>
    have hzero : σ.obj.seqCheck = 0 → ReadInv σ (rd.load σ.obj σ.versions.length) := by
      intro hz
      refine .broken hbehind ?_
      rw [hcheck, hz, hseq, hn.1]
      exact hn.2.symm
    cases hwr : σ.writer with
    | idle =>
      -- the same number again: the counter went all the way round
      have hlt : n < σ.versions.length := by simpa [hwr] using hpast
      by_cases heq : σ.versions.length % 2 ^ 32 = n % 2 ^ 32
      · refine .late hbehind ?_ le_rfl
        rw [load_started hne, load_latest]
        omega
      · refine .broken hbehind ?_
        rw [hcheck, (hw.idle hwr).2.1, hseq, hn.1]
        exact heq
    | begun ret => exact hzero (hw.begun ret hwr).2.2.1
    | writing ret => exact hzero (hw.writing ret hwr).2.2
    | ending => exact hzero (hw.ending hwr).2

theorem ReadInv.load (hw : WriterInv σ) (hs : 4 < s) (hmod : (4 + s) % 8 ≤ 4)
    (h : ReadInv σ rd) : ReadInv σ (rd.load σ.obj σ.versions.length) := by
  by_cases hfirst : rd.pos = 0
  · exact ReadInv.load_first hw hs hfirst
  by_cases hcheck : rd.pos = (4 + s) / 8
  · exact h.load_check hw hmod hcheck hfirst
  have hseq := load_seq (σ := σ) hfirst
  cases h with
  | fresh h => exact absurd h hfirst
  | silent _ h => exact .silent (by rw [load_pos]; omega) (hseq.trans h)
  | holds n hpos hn hstart hcur hbytes =>
    refine .holds n (by rw [load_pos]; omega) (by rwa [hseq]) (by rwa [load_started hfirst]) hcur
      (load_bytes _ _ hbytes)
  | passed n hpos hn hstart hpast =>
    exact .passed n (by rw [load_pos]; omega) (by rwa [hseq]) (by rwa [load_started hfirst]) hpast
  | whole hpos h =>
    refine .whole (by rw [load_pos]; omega) ?_
    rwa [(load_behind hpos hmod).1]
  | broken hpos h =>
    refine .broken (by rw [load_pos]; omega) ?_
    rwa [(load_behind hpos hmod).2, hseq]
  | late hpos h hle =>
    refine .late (by rw [load_pos]; omega) ?_ le_rfl
    rw [load_started hfirst, load_latest]
    omega

end Load

/-- What a reader knows of a small object, whose payload lies in the word of `seq`: the version
it loaded is finished, or its write is at its last store and nothing has changed since. -/
inductive SmallInv (σ : State s) (rd : Reader) : Prop where
  | fresh (h : rd.pos = 0)
  | silent (hpos : rd.pos ≠ 0) (h : WrappedType.u32At rd.copy 0 = 0)
  | whole (hpos : rd.pos ≠ 0) (h : payloadOf s rd.copy ∈ σ.versions)
  | pending (hpos : rd.pos ≠ 0) (hw : σ.writer = .ending)
      (hbytes : ∀ b, b / 8 < rd.pos → rd.copy b = σ.obj.byteAt b)

section Small
variable {σ σ' : State s} {rd : Reader}

theorem payload_eq_of_bytes (hs : s ≤ 4) (hpos : rd.pos ≠ 0)
    (hbytes : ∀ b, b / 8 < rd.pos → rd.copy b = σ.obj.byteAt b) :
    payloadOf s rd.copy = σ.obj.payload := by
  funext i
  have hi := i.isLt
  have hb := hbytes (4 + i) (by omega)
  rw [WrappedType.byteAt_payload] at hb
  exact hb

theorem SmallInv.step (hs : s ≤ 4) (h : SmallInv σ rd) (hst : Stepped σ σ') :
    SmallInv σ' rd := by
  cases h with
  | fresh h => exact .fresh h
  | silent hpos h => exact .silent hpos h
  | whole hpos h =>
    refine .whole hpos ?_
    cases hst with
    | storeCheck hw => exact List.mem_append_left _ h
    | invalidateCheck | invalidateSeq | storePayload | storeSeq | load | restart => exact h
  | pending hpos hw hbytes =>
    cases hst with
    | storeCheck _ =>
      refine .whole hpos (List.mem_append_right _ ?_)
      rw [payload_eq_of_bytes hs hpos hbytes]
      exact List.mem_singleton_self _
    | invalidateCheck hw' => simp [hw] at hw'
    | invalidateSeq ret hw' => simp [hw] at hw'
    | storePayload ret hw' q => simp [hw] at hw'
    | storeSeq ret hw' => simp [hw] at hw'
    | load | restart => exact .pending hpos hw hbytes

theorem SmallInv.load (hw : WriterInv σ) (hs : s ≤ 4) (h : SmallInv σ rd) :
    SmallInv σ (rd.load σ.obj σ.versions.length) := by
  have hpos : (rd.load σ.obj σ.versions.length).pos ≠ 0 := by rw [load_pos]; omega
  have hbytes : (∀ b, b / 8 < rd.pos → rd.copy b = σ.obj.byteAt b) →
      ∀ b, b / 8 < rd.pos + 1 →
        (rd.load σ.obj σ.versions.length).copy b = σ.obj.byteAt b := by
    intro hold b hb
    by_cases h : b / 8 = rd.pos
    · exact Reader.load_here h
    · rw [Reader.load_other h]
      exact hold b (by omega)
  cases h with
  | fresh h =>
    have hseq : WrappedType.u32At (rd.load σ.obj σ.versions.length).copy 0 = σ.obj.seq :=
      Reader.u32At_load_seq h hw.lt.1
    have hall := hbytes (fun b hb => by omega)
    have hpay := payload_eq_of_bytes hs hpos hall
    cases hwr : σ.writer with
    | idle => exact .whole hpos (by rw [hpay]; exact (hw.idle hwr).2.2)
    | begun ret => exact .whole hpos (by rw [hpay]; exact (hw.begun ret hwr).2.2.2)
    | writing ret => exact .silent hpos (hseq.trans (hw.writing ret hwr).2.1)
    | ending => exact .pending hpos hwr hall
  | silent hne h => exact .silent hpos ((load_seq hne).trans h)
  | whole hne h =>
    refine .whole hpos ?_
    have hpay : payloadOf s (rd.load σ.obj σ.versions.length).copy = payloadOf s rd.copy := by
      funext i
      have hi := i.isLt
      exact Reader.load_other (o := σ.obj) (n := σ.versions.length) (by omega)
    rwa [hpay]
  | pending hne hwr hall => exact .pending hpos hwr (hbytes hall)

end Small

/-- A property of the single readers that every step keeps holds for all readers in every
run. -/
theorem readers_invariant {P : State s → Reader → Prop} (hfresh : ∀ σ rd, rd.pos = 0 → P σ rd)
    (hstep : ∀ σ σ' rd, Stepped σ σ' → P σ rd → P σ' rd)
    (hload : ∀ σ rd, WriterInv σ → P σ rd → P σ (rd.load σ.obj σ.versions.length))
    {p : Fin s → Byte} {es : List (Event s)} {σ : State s}
    (hrun : run step es (State.init p) = some σ) :
    WriterInv σ ∧ ∀ r, P σ (σ.readers r) := by
  refine run_invariant (fun σ => WriterInv σ ∧ ∀ r, P σ (σ.readers r)) ?_ hrun
    ⟨WriterInv.init p, fun r => hfresh _ _ rfl⟩
  rintro σ e σ' he ⟨hw, hr⟩
  have hst := step_cases he
  refine ⟨hw.step hst, fun r => ?_⟩
  have hkeep := fun r => hstep σ σ' (σ.readers r) hst (hr r)
  cases hst with
  | load r' hf =>
    by_cases h : r = r'
    · subst h
      rw [State.setReader_self]
      exact hstep _ _ _ (.load r hf) (hload σ _ hw (hr r))
    · rw [State.setReader_other σ h]
      exact hkeep r
  | restart r' hf =>
    by_cases h : r = r'
    · subst h
      rw [State.setReader_self]
      exact hfresh _ _ rfl
    · rw [State.setReader_other σ h]
      exact hkeep r
  | invalidateCheck | invalidateSeq | storePayload | storeSeq | storeCheck => exact hkeep r

theorem u32At_check_of_bytes {σ : State s} {rd : Reader} (hfin : rd.finished s)
    (hcheck : σ.obj.seqCheck < 2 ^ 32) (hbytes : ∀ b, b / 8 < rd.pos → rd.copy b = σ.obj.byteAt b) :
    WrappedType.u32At rd.copy (4 + s) = σ.obj.seqCheck := by
  refine WrappedType.u32At_eq (fun i hi => ?_) hcheck
  rw [hbytes _ (by rw [hfin]; unfold WrappedType.size; omega), WrappedType.byteAt_check _ hi]

theorem consistent_iff {mem : ℕ → Byte} : (WrappedType.ofBuffer s mem).consistent = true ↔
    WrappedType.u32At mem 0 = WrappedType.u32At mem (4 + s) ∧ WrappedType.u32At mem 0 ≠ 0 := by
  simp [WrappedType.consistent, WrappedType.ofBuffer, kInvalidSeq]

theorem tornFree_small (hs : s ≤ 4) : TornFree s := by
  intro p es σ hrun r hfin _ hcons
  obtain ⟨hw, hr⟩ := readers_invariant (P := SmallInv) (fun _ _ h => .fresh h)
    (fun _ _ _ hst h => h.step hs hst) (fun _ _ hw h => h.load hw hs) hrun
  obtain ⟨heq, hne⟩ := consistent_iff.mp hcons
  cases hr r with
  | fresh h =>
    rw [hfin] at h
    unfold WrappedType.size at h
    omega
  | silent _ h => exact absurd h hne
  | whole _ h => exact h
  | pending _ hwr hbytes =>
    rw [heq, u32At_check_of_bytes hfin hw.lt.2 hbytes] at hne
    exact absurd (hw.ending hwr).2 hne

theorem tornFree_aligned (hs : 4 < s) (hmod : (4 + s) % 8 ≤ 4) : TornFree s := by
  intro p es σ hrun r hfin hfew hcons
  obtain ⟨-, hr⟩ := readers_invariant (P := ReadInv) (fun _ _ h => .fresh h)
    (fun _ _ _ hst h => h.step hst) (fun _ _ hw h => h.load hw hs hmod) hrun
  obtain ⟨heq, hne⟩ := consistent_iff.mp hcons
  have hpos : (4 + s) / 8 < (σ.readers r).pos := by
    rw [hfin]
    unfold WrappedType.size
    omega
  cases hr r with
  | fresh h => omega
  | silent _ h => exact absurd h hne
  | holds n hn => omega
  | passed n hn => omega
  | whole _ h => exact h
  | broken _ h => exact absurd heq.symm h
  | late _ h => omega

end XStore.Xcomm
