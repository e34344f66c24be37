import XStore.Xcache.Serialize

/-! The index goes from the server to a client: the image that the server writes (db.hh) and the
loops that read it back (client.cc). -/
namespace XStore.Ycsb
open XStore.Lib XStore.Xml XStore.Xcache
variable {M₁ M₂ : Type} [MlSerialize M₁] [MlSerialize M₂]

structure Server where
  mem : ℕ → Byte
  modelBuf : ℕ
  ttBuf : ℕ
  bufEnd : ℕ

def roundUp (num multiple : ℕ) : ℕ := (num + multiple - 1) % 2 ^ 64 &&& (2 ^ 64 - multiple)

/-- One string after another, each checked against the end of the buffer. -/
def writeAll (bufEnd : ℕ) : List (List Byte) → ℕ → (ℕ → Byte) → Res (ℕ × (ℕ → Byte))
  | [], cur, mem => pure (cur, mem)
  | s :: ss, cur, mem => do
    ensure (decide (s.length + cur ≤ bufEnd)) .imageFits
    writeAll bufEnd ss (cur + s.length) (memcpy mem cur s)

def serializeDb (cache : LocalTwoRMI M₁ M₂) (tts : List TT) (server : Server) : Res Server := do
  let (cur, mem) ← writeAll server.bufEnd (cache.secondLayer.map XSubModel.serialize)
    server.modelBuf server.mem
  let ttBuf := roundUp cur 8
  let (cur, mem) ← writeAll server.bufEnd (tts.map TT.serialize) ttBuf mem
  pure { server with mem := mem, ttBuf := ttBuf, bufEnd := cur }

structure ReplyMeta where
  totalSz : ℕ
  modelBuf : ℕ
  ttBuf : ℕ

def Server.reply (server : Server) : ReplyMeta where
  totalSz := (server.bufEnd - server.modelBuf) % 2 ^ 32
  modelBuf := server.modelBuf
  ttBuf := server.ttBuf

def parseSubs (buf : ℕ → Byte) (submodelSz : ℕ) : ℕ → ℕ → Res (List (XSubModel M₂) × ℕ)
  | 0, cur => pure ([], cur)
  | n + 1, cur => do
    let s ← XSubModel.ofView (slice buf cur submodelSz)
    let (ss, cur) ← parseSubs buf submodelSz n (cur + submodelSz)
    pure (s :: ss, cur)

/-- The loop over the tables, each as long as its count says. -/
def parseTTs (buf : ℕ → Byte) : ℕ → ℕ → Res (List TT × ℕ)
  | 0, cur => pure ([], cur)
  | n + 1, cur => do
    let ttN ← marshalDeserialize 4 (slice buf cur 4) 8
    let tt ← TT.fromSerialize (slice buf cur (4 + ttN * 8))
    let (tts, cur) ← parseTTs buf n (cur + tt.ttSz)
    pure (tt :: tts, cur)

/-- What a client has after its bootstrap; it has read its copy up to `curPtr`. -/
structure Client (M₁ M₂ : Type) where
  cache : LocalTwoRMI M₁ M₂
  tts : List TT
  curPtr : ℕ
  deriving DecidableEq

/-- The bootstrap of a client: `first` are the bytes of the dispatcher, `buf` is the copy of the
image, and `start` says where the tables are read from. -/
def bootstrapFrom (start : ℕ → ℕ) (first : List Byte) (buf : ℕ → Byte) :
    Res (Client M₁ M₂) := do
  let firstLayer ← Dispatcher.ofView first
  let submodelSz := (XSubModel.blank : XSubModel M₂).serialize.length
  let (secondLayer, cur) ← parseSubs buf submodelSz firstLayer.dispatchNum 0
  let (tts, cur) ← parseTTs buf firstLayer.dispatchNum (start cur)
  pure {
    cache := { firstLayer := firstLayer, secondLayer := secondLayer }
    tts := tts
    curPtr := cur }

/-- The client of ycsb goes on where the submodels end. -/
def bootstrap (first : List Byte) (buf : ℕ → Byte) : Res (Client M₁ M₂) :=
  bootstrapFrom id first buf

/-- The client of data_dist jumps to the tables. -/
def bootstrapJump (rep : ReplyMeta) (first : List Byte) (buf : ℕ → Byte) : Res (Client M₁ M₂) :=
  bootstrapFrom (fun _ => rep.ttBuf - rep.modelBuf) first buf

section Server

theorem roundUp_eight {x : ℕ} (h : x + 7 < 2 ^ 64) : roundUp x 8 = (x + 7) / 8 * 8 := by
  have hmask : 2 ^ 64 - 8 = (2 ^ 61 - 1) <<< 3 := by decide
  have hsub : x + 8 - 1 = x + 7 := rfl
  rw [roundUp, hsub, Nat.mod_eq_of_lt h, hmask]
  refine Nat.eq_of_testBit_eq (fun i => ?_)
  have hshift : (x + 7) / 8 * 8 = ((x + 7) >>> 3) <<< 3 := by
    rw [Nat.shiftRight_eq_div_pow, Nat.shiftLeft_eq]
  rw [hshift, Nat.testBit_and, Nat.testBit_shiftLeft, Nat.testBit_shiftLeft,
    Nat.testBit_two_pow_sub_one, Nat.testBit_shiftRight]
  by_cases hi : 3 ≤ i
  · have hback : 3 + (i - 3) = i := by omega
    by_cases hlt : i - 3 < 61
    · simp [hi, hlt, hback]
    · have hbig : (x + 7).testBit i = false := by
        refine Nat.testBit_lt_two_pow (lt_of_lt_of_le h ?_)
        exact Nat.pow_le_pow_right (by decide) (by omega)
      simp [hi, hback, hbig]
  · simp [hi]

theorem writeAll_ok {bufEnd : ℕ} (ss : List (List Byte)) (cur : ℕ) (mem : ℕ → Byte)
    (h : cur + ss.flatten.length ≤ bufEnd) : writeAll bufEnd ss cur mem =
      .ok (cur + ss.flatten.length, memcpy mem cur ss.flatten) := by
  induction ss generalizing cur mem with
  | nil =>
    have hmem : memcpy mem cur [] = mem := by
      funext a
      simp [memcpy]
    simp [writeAll, hmem]
  | cons s ss ih =>
    rw [List.flatten_cons, List.length_append] at h
    have hfit : decide (s.length + cur ≤ bufEnd) = true := by
      rw [decide_eq_true_eq]
      omega
    rw [writeAll, hfit, ensure_true, ok_bind, ih _ _ (by omega), memcpy_append, List.flatten_cons,
      List.length_append, Nat.add_assoc]

end Server

section Client
variable {buf : ℕ → Byte}

theorem parseSubs_ok [LawfulSerialize M₂] (subs : List (XSubModel M₂)) (off : ℕ)
    (hfit : ∀ s ∈ subs, s.Fits)
    (hbuf : slice buf off (subs.flatMap XSubModel.serialize).length =
      subs.flatMap XSubModel.serialize) :
    parseSubs buf (XSubModel.blank : XSubModel M₂).serialize.length subs.length off =
      .ok (subs, off + (subs.flatMap XSubModel.serialize).length) := by
  induction subs generalizing off with
  | nil => rfl
  | cons s subs ih =>
    rw [List.flatMap_cons] at hbuf ⊢
    obtain ⟨hhead, htail⟩ := (slice_append_iff _ _).mp hbuf
    have hlen : (XSubModel.blank : XSubModel M₂).serialize.length = s.serialize.length :=
      s.length_serialize.symm
    have hrest := ih _ (fun t ht => hfit t (List.mem_cons_of_mem s ht)) htail
    rw [hlen] at hrest
    rw [List.length_cons, parseSubs, hlen, hhead, XSubModel.ofView_serialize (hfit s (by simp)),
      ok_bind, hrest, List.length_append, Nat.add_assoc]
    rfl

theorem parseTTs_ok (buf : ℕ → Byte) (n off : ℕ) : ∃ tts : List TT,
    parseTTs buf n off = .ok (tts, off + (tts.flatMap TT.serialize).length) ∧
      tts.length = n ∧ (∀ t ∈ tts, t.Fits) ∧
      slice buf off (tts.flatMap TT.serialize).length = tts.flatMap TT.serialize := by
  induction n generalizing off with
  | zero => exact ⟨[], rfl, rfl, by simp, rfl⟩
  | succ n ih =>
    have hlen : (slice buf off (4 + ofBytes (slice buf off 4) * 8)).length =
        4 + ofBytes ((slice buf off (4 + ofBytes (slice buf off 4) * 8)).take 4) * 8 := by
      rw [length_slice, take_slice (by omega)]
    obtain ⟨tt, htt, hfit, hser⟩ := TT.fromSerialize_ok hlen
    obtain ⟨tts, hrest, hcard, hfits, hslice⟩ := ih (off + tt.ttSz)
    have htake : (slice buf off 4).take 4 = slice buf off 4 :=
      List.take_of_length_le (by simp)
    have hfull : slice buf off tt.serialize.length = tt.serialize := by
      rw [hser, length_slice]
    refine ⟨tt :: tts, ?_, by rw [List.length_cons, hcard], ?_, ?_⟩
    · simp [parseTTs, marshalDeserialize, htake, htt, hrest, Nat.add_assoc]
    · intro t ht
      cases List.mem_cons.mp ht with
      | inl h => rw [h]; exact hfit
      | inr h => exact hfits t h
    · rw [List.flatMap_cons]
      refine (slice_append_iff _ _).mpr ⟨hfull, ?_⟩
      rw [TT.length_serialize]
      exact hslice

/-- The loop reads certain tables exactly when the memory begins with their encoding. -/
theorem parseTTs_iff (buf : ℕ → Byte) {tts : List TT} (hfits : ∀ t ∈ tts, t.Fits) (off cur : ℕ) :
    parseTTs buf tts.length off = .ok (tts, cur) ↔
      cur = off + (tts.flatMap TT.serialize).length ∧
        slice buf off (tts.flatMap TT.serialize).length = tts.flatMap TT.serialize := by
  obtain ⟨tts', hparse, hlen, hfits', hslice⟩ := parseTTs_ok buf tts.length off
  constructor
  · intro h
    rw [hparse, Except.ok.injEq, Prod.mk.injEq] at h
    obtain ⟨rfl, rfl⟩ := h
    exact ⟨rfl, hslice⟩
  · intro h
    have heq : tts' = tts := by
      -- both encodings begin the same memory
      have hlong : slice buf off ((tts'.flatMap TT.serialize).length +
          (tts.flatMap TT.serialize).length) = slice buf off ((tts.flatMap TT.serialize).length +
          (tts'.flatMap TT.serialize).length) := by rw [Nat.add_comm]
      rw [slice_add, slice_add, hslice, h.2] at hlong
      exact TT.delimited.flatMap_inj hlen hfits' hfits hlong
    rw [hparse, h.1, heq]

/-- The client holds what the server holds, and has read nothing behind its copy. -/
def Lossless (cache : LocalTwoRMI M₁ M₂) (tts : List TT) (totalSz : ℕ)
    (r : Res (Client M₁ M₂)) : Prop :=
  ∃ c, r = .ok c ∧ c.cache = cache ∧ c.tts = tts ∧ c.curPtr ≤ totalSz

def modelBytes (cache : LocalTwoRMI M₁ M₂) : List Byte :=
  cache.secondLayer.flatMap XSubModel.serialize

def tableBytes (tts : List TT) : List Byte := tts.flatMap TT.serialize

/-- With the dispatcher and the submodels in place, everything depends on where the tables are
read. -/
theorem bootstrapFrom_iff [LawfulSerialize M₁] [LawfulSerialize M₂]
    {cache : LocalTwoRMI M₁ M₂} {tts : List TT} (totalSz : ℕ) (start : ℕ → ℕ)
    (hnum : cache.firstLayer.dispatchNum = cache.secondLayer.length)
    (hsmall : cache.secondLayer.length < 2 ^ 32) (hup : cache.firstLayer.upBound < 2 ^ 32)
    (hfirst : MlSerialize.serialize cache.firstLayer.model ≠ [])
    (hsubs : ∀ s ∈ cache.secondLayer, s.Fits)
    (htts : tts.length = cache.secondLayer.length) (htables : ∀ t ∈ tts, t.Fits)
    (hbuf : slice buf 0 (modelBytes cache).length = modelBytes cache) :
    Lossless cache tts totalSz (bootstrapFrom start cache.firstLayer.serialize buf) ↔
      start (modelBytes cache).length + (tableBytes tts).length ≤ totalSz ∧
        slice buf (start (modelBytes cache).length) (tableBytes tts).length = tableBytes tts := by
  have hdisp := Dispatcher.ofView_serialize (hnum ▸ hsmall) hup hfirst
  have hmodels := parseSubs_ok cache.secondLayer 0 hsubs hbuf
  rw [Nat.zero_add] at hmodels
  have hrun : bootstrapFrom start cache.firstLayer.serialize buf =
      (parseTTs buf tts.length (start (modelBytes cache).length)).bind (fun r =>
        .ok (⟨cache, r.1, r.2⟩ : Client M₁ M₂)) := by
    simp only [bootstrapFrom, hdisp, ok_bind, hnum, hmodels, htts]
    rfl
  obtain ⟨tts', hparse, -⟩ := parseTTs_ok buf tts.length (start (modelBytes cache).length)
  have hiff := parseTTs_iff buf htables (start (modelBytes cache).length)
  rw [hrun, hparse]
  constructor
  · intro h
    obtain ⟨c, hc, -, htt, hcur⟩ := h
    have hc' := Except.ok.inj hc
    subst hc'
    have htt' : tts' = tts := htt
    rw [htt'] at hparse hcur
    have hslice := ((hiff _).mp hparse).2
    exact ⟨hcur, hslice⟩
  · intro h
    have hgood := (hiff _).mpr ⟨rfl, h.2⟩
    have heq := Except.ok.inj (hparse.symm.trans hgood)
    rw [Prod.mk.injEq] at heq
    refine ⟨⟨cache, tts', _⟩, rfl, rfl, heq.1, ?_⟩
    have hend := heq.2
    simp only at hend ⊢
    rw [hend]
    exact h.1

end Client

section Image
variable {cache : LocalTwoRMI LR LR} {tts : List TT} {server : Server}

/-- An index that the server has trained, with a table for every submodel; the numbers are
values of their types. -/
structure Trained (cache : LocalTwoRMI LR LR) (tts : List TT) : Prop where
  ne : cache.secondLayer ≠ []
  num : cache.firstLayer.dispatchNum = cache.secondLayer.length
  tables : tts.length = cache.secondLayer.length
  upBound : cache.firstLayer.upBound < 2 ^ 32
  subs : ∀ s ∈ cache.secondLayer, s.Fits
  entries : ∀ t ∈ tts, ∀ e ∈ t.entries, e < 2 ^ 64

def modelEnd (cache : LocalTwoRMI LR LR) (server : Server) : ℕ :=
  server.modelBuf + (modelBytes cache).length

def tableStart (cache : LocalTwoRMI LR LR) (server : Server) : ℕ :=
  (modelEnd cache server + 7) / 8 * 8

/-- The old bytes of the memory between the submodels and the tables. -/
def gap (cache : LocalTwoRMI LR LR) (server : Server) : List Byte :=
  slice server.mem (modelEnd cache server) (tableStart cache server - modelEnd cache server)

structure Server.Holds (server : Server) (cache : LocalTwoRMI LR LR) (tts : List TT) :
    Prop where
  fits : tableStart cache server + (tableBytes tts).length ≤ server.bufEnd
  bufEnd : server.bufEnd < 2 ^ 64
  small : tableStart cache server + (tableBytes tts).length - server.modelBuf < 2 ^ 32

theorem length_subs {M : Type} [MlSerialize M] [LawfulSerialize M] (subs : List (XSubModel M)) :
    (subs.flatMap XSubModel.serialize).length =
      subs.length * (XSubModel.blank : XSubModel M).serialize.length := by
  induction subs with
  | nil => simp
  | cons s subs ih =>
    rw [List.flatMap_cons, List.length_append, ih, XSubModel.length_serialize, List.length_cons,
      Nat.succ_mul, Nat.add_comm]

theorem length_lr : (XSubModel.blank : XSubModel LR).serialize.length = 36 := by
  simp [XSubModel.serialize]

theorem length_modelBytes (cache : LocalTwoRMI LR LR) :
    (modelBytes cache).length = cache.secondLayer.length * 36 := by
  rw [modelBytes, length_subs, length_lr]

theorem ttSz_le {t : TT} (ht : t ∈ tts) : t.ttSz ≤ (tableBytes tts).length := by
  obtain ⟨before, after, rfl⟩ := List.append_of_mem ht
  rw [tableBytes, List.flatMap_append, List.flatMap_cons, List.length_append, List.length_append,
    TT.length_serialize]
  omega

theorem Server.Holds.bounds (h : server.Holds cache tts) (ht : Trained cache tts) :
    modelEnd cache server + 7 < 2 ^ 64 ∧ cache.secondLayer.length < 2 ^ 32 ∧
      ∀ t ∈ tts, t.Fits := by
  have hfits := h.fits
  have hend := h.bufEnd
  have hsmall := h.small
  have hmodels := length_modelBytes cache
  have hlen := List.length_pos_of_ne_nil ht.ne
  have hstart : modelEnd cache server ≤ tableStart cache server := by
    unfold tableStart
    omega
  have htables : tts ≠ [] := by
    intro hnil
    have := ht.tables
    rw [hnil] at this
    simp only [List.length_nil] at this
    omega
  obtain ⟨t₀, ht₀⟩ := List.exists_mem_of_ne_nil _ htables
  have hfour := ttSz_le ht₀
  unfold TT.ttSz at hfour
  unfold tableStart at hfits hstart hsmall
  unfold modelEnd at hfits hstart hsmall ⊢
  refine ⟨by omega, by omega, fun t htt => ⟨?_, ht.entries t htt⟩⟩
  have hsz := ttSz_le htt
  unfold TT.ttSz at hsz
  unfold TT.size
  omega

def written (cache : LocalTwoRMI LR LR) (tts : List TT) (server : Server) : Server where
  mem := memcpy (memcpy server.mem server.modelBuf (modelBytes cache)) (tableStart cache server)
    (tableBytes tts)
  modelBuf := server.modelBuf
  ttBuf := tableStart cache server
  bufEnd := tableStart cache server + (tableBytes tts).length

theorem modelEnd_le (cache : LocalTwoRMI LR LR) (server : Server) :
    modelEnd cache server ≤ tableStart cache server := by
  unfold tableStart
  omega

theorem length_gap (cache : LocalTwoRMI LR LR) (server : Server) :
    modelEnd cache server + (gap cache server).length = tableStart cache server := by
  have hle := modelEnd_le cache server
  rw [gap, length_slice]
  omega

theorem serializeDb_eq (ht : Trained cache tts) (h : server.Holds cache tts) :
    serializeDb cache tts server = .ok (written cache tts server) := by
  obtain ⟨hwrap, -, -⟩ := h.bounds ht
  have hfits := h.fits
  have hle := length_gap cache server
  have hmodels : writeAll server.bufEnd (cache.secondLayer.map XSubModel.serialize)
      server.modelBuf server.mem = .ok (modelEnd cache server,
        memcpy server.mem server.modelBuf (modelBytes cache)) := by
    refine writeAll_ok _ _ _ ?_
    rw [← List.flatMap_def]
    change modelEnd cache server ≤ server.bufEnd
    omega
  have htables : ∀ mem, writeAll server.bufEnd (tts.map TT.serialize) (tableStart cache server)
      mem = .ok (tableStart cache server + (tableBytes tts).length,
        memcpy mem (tableStart cache server) (tableBytes tts)) :=
    fun mem => writeAll_ok _ _ mem (by rw [← List.flatMap_def]; exact hfits)
  have hround : roundUp (modelEnd cache server) 8 = tableStart cache server := roundUp_eight hwrap
  simp only [serializeDb, hmodels, ok_bind, hround, htables, pure_eq_ok]
  rfl

def image (cache : LocalTwoRMI LR LR) (tts : List TT) (server : Server) : List Byte :=
  modelBytes cache ++ (gap cache server ++ tableBytes tts)

theorem slice_written : slice (written cache tts server).mem server.modelBuf
    (image cache tts server).length = image cache tts server := by
  have hend : server.modelBuf + (modelBytes cache).length = modelEnd cache server := rfl
  have hgap := length_gap cache server
  refine (slice_append_iff _ _).mpr ⟨?_, ?_⟩
  · -- the tables are written behind the submodels
    have hkeep : slice (written cache tts server).mem server.modelBuf (modelBytes cache).length =
        slice (memcpy server.mem server.modelBuf (modelBytes cache)) server.modelBuf
          (modelBytes cache).length :=
      slice_congr (fun i hi => memcpy_behind (Or.inl (by omega)))
    rw [hkeep, slice_memcpy]
  · rw [hend]
    refine (slice_append_iff _ _).mpr ⟨?_, ?_⟩
    · have hkeep : slice (written cache tts server).mem (modelEnd cache server)
          (gap cache server).length = slice server.mem (modelEnd cache server)
            (gap cache server).length := by
        refine slice_congr (fun i hi => ?_)
        simp only [written]
        rw [memcpy_behind (Or.inl (by omega)), memcpy_behind (Or.inr (by omega))]
      rw [hkeep]
      simp [gap]
    · rw [hgap]
      exact slice_memcpy _ _

theorem written_totalSz (h : server.Holds cache tts) :
    (written cache tts server).reply.totalSz = (image cache tts server).length := by
  have hend : server.modelBuf + (modelBytes cache).length = modelEnd cache server := rfl
  have hgap := length_gap cache server
  have hsmall := h.small
  simp only [Server.reply, written, image, List.length_append]
  omega

def Copied (server : Server) (buf : ℕ → Byte) : Prop :=
  ∀ i < server.reply.totalSz, buf i = server.mem (server.modelBuf + i)

theorem Copied.parts {buf : ℕ → Byte} (hcopy : Copied (written cache tts server) buf)
    (h : server.Holds cache tts) :
    slice buf 0 (modelBytes cache).length = modelBytes cache ∧
      slice buf (modelBytes cache).length (gap cache server ++ tableBytes tts).length =
        gap cache server ++ tableBytes tts := by
  have hslice : slice buf 0 (image cache tts server).length = image cache tts server := by
    refine (slice_congr (fun i hi => ?_)).trans slice_written
    rw [Nat.zero_add]
    exact hcopy i (by rw [written_totalSz h]; exact hi)
  have hparts := (slice_append_iff _ _).mp hslice
  rwa [Nat.zero_add] at hparts

theorem Copied.lossless_iff {buf : ℕ → Byte} (hcopy : Copied (written cache tts server) buf)
    (ht : Trained cache tts) (h : server.Holds cache tts) (start : ℕ → ℕ) :
    Lossless cache tts (written cache tts server).reply.totalSz
        (bootstrapFrom start cache.firstLayer.serialize buf) ↔
      start (modelBytes cache).length + (tableBytes tts).length ≤ (image cache tts server).length ∧
        slice buf (start (modelBytes cache).length) (tableBytes tts).length = tableBytes tts := by
  obtain ⟨-, hnum, hfits⟩ := h.bounds ht
  rw [written_totalSz h]
  exact bootstrapFrom_iff _ start ht.num hnum ht.upBound (LR.serialize_ne _) ht.subs ht.tables
    hfits (hcopy.parts h).1

/-- The client of ycsb gets everything exactly when the gap is invisible: the tables with the gap
before them begin like the tables. -/
theorem bootstrap_lossless_iff (ht : Trained cache tts) (h : server.Holds cache tts) :
    ∃ server', serializeDb cache tts server = .ok server' ∧ ∀ buf, Copied server' buf →
      (Lossless cache tts server'.reply.totalSz (bootstrap cache.firstLayer.serialize buf) ↔
        tableBytes tts <+: gap cache server ++ tableBytes tts) := by
  refine ⟨written cache tts server, serializeDb_eq ht h, fun buf hcopy => ?_⟩
  have hrest := (hcopy.parts h).2
  have htake : slice buf (modelBytes cache).length (tableBytes tts).length =
      (gap cache server ++ tableBytes tts).take (tableBytes tts).length := by
    rw [← hrest, take_slice (by simp)]
  rw [bootstrap, hcopy.lossless_iff ht h, List.prefix_iff_eq_take, id_eq, htake]
  constructor
  · intro hread
    exact hread.2.symm
  · intro hgap
    refine ⟨?_, hgap.symm⟩
    simp only [image, List.length_append]
    omega

def wordsOf (t : TT) : List ℕ := t.size :: t.entries.flatMap (fun e => [e % 2 ^ 32, e / 2 ^ 32])

theorem serialize_eq_words (t : TT) : t.serialize = (wordsOf t).flatMap (toBytes 4) := by
  have hentry : ∀ e, toBytes 8 e = [e % 2 ^ 32, e / 2 ^ 32].flatMap (toBytes 4) := by
    intro e
    have hlow := toBytes_mod 4 e
    have hsplit := toBytes_add 4 4 e
    rw [← hlow] at hsplit
    simpa using hsplit
  rw [wordsOf, List.flatMap_cons, TT.serialize, List.flatMap_assoc]
  congr 1
  refine List.flatMap_congr (fun e _ => hentry e)

/-- With a gap of one word, as an odd number of submodels leaves it behind an aligned address, the
gap must be the size of every table, and every entry must be this number twice. -/
theorem gap_invisible_iff {g : ℕ} (hg : g < 2 ^ 32) (hgap : gap cache server = toBytes 4 g)
    (hfits : ∀ t ∈ tts, t.Fits) : tableBytes tts <+: gap cache server ++ tableBytes tts ↔
      ∀ t ∈ tts, t.size = g ∧ ∀ e ∈ t.entries, e = g * 2 ^ 32 + g := by
  have hwords : tableBytes tts = (tts.flatMap wordsOf).flatMap (toBytes 4) := by
    rw [tableBytes, List.flatMap_assoc]
    exact List.flatMap_congr (fun t _ => serialize_eq_words t)
  have hsmall : ∀ x ∈ tts.flatMap wordsOf, x < 256 ^ 4 := by
    intro x hx
    obtain ⟨t, ht, hx⟩ := List.mem_flatMap.mp hx
    obtain ⟨hsize, hentries⟩ := hfits t ht
    cases List.mem_cons.mp hx with
    | inl h =>
      rw [h]
      exact lt_of_lt_of_le hsize (by decide)
    | inr h =>
      obtain ⟨e, he, hx⟩ := List.mem_flatMap.mp h
      have hlt := hentries e he
      simp only [List.mem_cons, List.not_mem_nil, or_false] at hx
      omega
  rw [hgap, hwords, words_prefix_iff (lt_of_lt_of_le hg (by decide)) hsmall]
  constructor
  · intro h t ht
    have hall : ∀ x ∈ wordsOf t, x = g := fun x hx => h x (List.mem_flatMap.mpr ⟨t, ht, hx⟩)
    refine ⟨hall t.size (by simp [wordsOf]), fun e he => ?_⟩
    have hmem : ∀ x ∈ [e % 2 ^ 32, e / 2 ^ 32], x = g := fun x hx =>
      hall x (List.mem_cons_of_mem _ (List.mem_flatMap.mpr ⟨e, he, hx⟩))
    have hlow := hmem (e % 2 ^ 32) (by simp)
    have hhigh := hmem (e / 2 ^ 32) (by simp)
    omega
  · intro h x hx
    obtain ⟨t, ht, hx⟩ := List.mem_flatMap.mp hx
    obtain ⟨hsize, hentries⟩ := h t ht
    cases List.mem_cons.mp hx with
    | inl hx => rw [hx, hsize]
    | inr hx =>
      obtain ⟨e, he, hx⟩ := List.mem_flatMap.mp hx
      have heq := hentries e he
      simp only [List.mem_cons, List.not_mem_nil, or_false] at hx
      omega

def oneCache : LocalTwoRMI LR LR where
  firstLayer := { model := default, dispatchNum := 1, upBound := 1 }
  secondLayer := [{ ml := default, errMin := 0, errMax := 0, max := 0 }]

def oneTable : List TT := [{ entries := [17] }]

def zeroServer : Server where
  mem := fun _ => 0
  modelBuf := 4096
  ttBuf := 0
  bufEnd := 8192

theorem trained_one : Trained oneCache oneTable where
  ne := by decide
  num := rfl
  tables := rfl
  upBound := by decide
  subs := by decide
  entries := by decide

theorem holds_one : zeroServer.Holds oneCache oneTable where
  fits := by decide
  bufEnd := by decide
  small := by decide

theorem bootstrap_lossless_iff_one :
    ∃ server', serializeDb oneCache oneTable zeroServer = .ok server' ∧
      ∀ buf, Copied server' buf → (Lossless oneCache oneTable server'.reply.totalSz
          (bootstrap oneCache.firstLayer.serialize buf) ↔
        tableBytes oneTable <+: gap oneCache zeroServer ++ tableBytes oneTable) :=
  bootstrap_lossless_iff trained_one holds_one

/-- The submodel has 36 bytes, so that four zero bytes stand before the table: the client takes
them for the count of its table, which comes out empty. -/
theorem bootstrap_loses_one : ∃ server' : Server,
    serializeDb oneCache oneTable zeroServer = .ok server' ∧
      ∃ buf : ℕ → Byte, Copied server' buf ∧
        (bootstrap oneCache.firstLayer.serialize buf : Res (Client LR LR)) =
          .ok { cache := oneCache, tts := [{ entries := [] }], curPtr := 40 } ∧
        ¬ Lossless oneCache oneTable server'.reply.totalSz
          (bootstrap oneCache.firstLayer.serialize buf) := by
  have hread : (bootstrap oneCache.firstLayer.serialize
      (fun i => (written oneCache oneTable zeroServer).mem (4096 + i)) : Res (Client LR LR)) =
      .ok { cache := oneCache, tts := [{ entries := [] }], curPtr := 40 } := by
    decide +kernel
  refine ⟨written oneCache oneTable zeroServer, serializeDb_eq trained_one holds_one,
    fun i => (written oneCache oneTable zeroServer).mem (4096 + i), fun i _ => rfl, hread, ?_⟩
  intro h
  obtain ⟨c, hc, -, htts, -⟩ := h
  rw [hread] at hc
  have hc' := Except.ok.inj hc
  subst hc'
  cases htts

theorem bootstrapJump_lossless (ht : Trained cache tts) (h : server.Holds cache tts) :
    ∃ server', serializeDb cache tts server = .ok server' ∧ ∀ buf, Copied server' buf →
      Lossless cache tts server'.reply.totalSz
        (bootstrapJump server'.reply cache.firstLayer.serialize buf) := by
  refine ⟨written cache tts server, serializeDb_eq ht h, fun buf hcopy => ?_⟩
  have hend : server.modelBuf + (modelBytes cache).length = modelEnd cache server := rfl
  have hgap := length_gap cache server
  have hjump : (written cache tts server).reply.ttBuf - (written cache tts server).reply.modelBuf =
      (modelBytes cache).length + (gap cache server).length := by
    simp only [Server.reply, written]
    omega
  rw [bootstrapJump, hcopy.lossless_iff ht h, hjump]
  refine ⟨?_, ((slice_append_iff _ _).mp (hcopy.parts h).2).2⟩
  simp only [image, List.length_append]
  omega

end Image
end XStore.Ycsb
