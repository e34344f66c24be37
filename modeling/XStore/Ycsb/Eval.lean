import XStore.Xcache.Rmi
import XStore.Xcomm.BatchRw
import XStore.Xcomm.RpcOp
import XStore.Xkv.Layout

/-! A lookup by a client (eval_c.hh): it reads the predicted pages and then the value from the
memory of the server, or asks the server, whose callback looks the key up (callbacks.hh). -/
namespace XStore.Ycsb
open XStore.Lib XStore.Xkv XStore.Xcache XStore.Xcomm XStore.Xml
variable {A V M₁ M₂ : Type} [Plain V]

def kNPageKey : ℕ := 16

inductive RPCId where
  | META
  | GET

def RPCId.toNat : RPCId → ℕ
  | META => 0
  | GET => 1

def toUsize [Usize] (x : ℤ) : ℤ := x % 2 ^ Usize.bits

/-- A coroutine of a client and its buffers. They stand in the memory of the RPC core. -/
structure Coroutine (A : Type) where
  core : RPCCore A
  corId : ℕ
  myBuf : ℕ
  replyBuf : ℕ
  flagsLen : ℤ

/-- How far a lookup comes without a reply: to the value, or to the yield behind the request. -/
inductive Eval (A V : Type) where
  | done (core : RPCCore A) (v : V)
  | waits (core : RPCCore A) (req : List Byte)

/-- `eval_w_rpc` up to the yield. -/
def evalWRpc (V : Type) [Plain V] (co : Coroutine A) (key : XKey) :
    Res (RPCCore A × List Byte) := do
  let op ← RPCOp.blank.setMsg (List.replicate 64 0)
  let op := ((op.setReq).setRpcId RPCId.GET.toNat).setCorid co.corId
  let station ← op.addOneReply co.core.replyStation ⟨co.replyBuf, Plain.size V⟩
  let (op, _) := op.addArg (Plain.toBytes key)
  let ready ← station.corReady co.corId
  ensure (!ready) .replyAwaited
  pure ({ co.core with replyStation := station }, op.finalize.msg)

def evalWRpcResult (co : Coroutine A) (core : RPCCore A) : V :=
  Plain.ofBytes (slice core.mem co.replyBuf (Plain.size V))

def getCallback (db : Store kNPageKey XKey V) (h : Header) (args : List Byte) :
    Res (List Byte) := do
  ensure (args.length == 8) .argsSize
  let value ← db.tree.get db.mem (Plain.ofBytes args)
  let value ← need value .emptyOption
  let op ← RPCOp.blank.setMsg (List.replicate 64 0)
  let (op, added) := op.setReply.addArg (Plain.toBytes value)
  ensure added .argAdded
  let op := op.setCorid h.corId
  pure op.finalize.msg

/-- The reads of the pages `ns`, ..., `ns + count - 1`, each into the next slot of the buffer. -/
def pageReads {n : ℕ} (rbuf : ℕ → Res ℕ) (buf readSz ns count : ℕ) : Res (BatchOp n) :=
  BatchOp.new.emplaceAll (fun i => do
    let addr ← rbuf (ns + i)
    pure ⟨addr, buf + readSz * i, readSz⟩) (List.range count)

/-- The first slot whose node has the key decides what is fetched. -/
def searchPages {β : Type} (mem : ℕ → Byte) (buf readSz : ℕ) (key : XKey)
    (fetch : ℕ → Fin kNPageKey → Res β) : List ℕ → Res β
  | [] => .error (.assert .valueFound)
  | i :: is =>
    match (XNodeKeys.ofBuffer kNPageKey XKey mem (buf + readSz * i)).search key with
    | some idx => fetch i idx
    | none => searchPages mem buf readSz key fetch is

def pageCount (ns ne : ℤ) : ℕ := (ne - ns + 1).toNat

section CoreEval
variable [Usize] [DoubleArith] [MlTrait M₁ XKey] [MlTrait M₂ XKey]

def kMaxBatch : ℕ := 10

/-- The first and the last page of a range of positions. The divisor is a usize. -/
def pageRange (tt : TT) (range : ℤ × ℤ) : ℤ × ℤ :=
  (max (toInt32 (toUsize range.1 / kNPageKey)) 0,
    min (toInt32 (tt.size - 1)) (toInt32 (toUsize range.2 / kNPageKey)))

/-- The value of a slot, read from the node at `addr` into the buffer that the nodes were
read into. -/
def readValue (ram mem : ℕ → Byte) (co : Coroutine A) (addr : ℕ) (idx : Fin kNPageKey) :
    RPCCore A × V :=
  let op : ReadOp := ⟨addr + XNode.valueOffset kNPageKey XKey V idx, co.myBuf,
    (max co.flagsLen (Plain.size V)).toNat⟩
  let mem := op.execute ram mem
  ({ co.core with mem := mem }, Plain.ofBytes (slice mem co.myBuf (Plain.size V)))

def evalPages (ram : ℕ → Byte) (co : Coroutine A) (tt : TT) (ns count : ℕ) (key : XKey) :
    Res (RPCCore A × V) := do
  let readSz := XNode.valueStartOffset kNPageKey XKey
  let reqs : BatchOp kMaxBatch ← pageReads tt.getWoIncar co.myBuf readSz ns count
  let (mem, _) ← reqs.executeAsync ram co.core.mem
  searchPages mem co.myBuf readSz key (fun i idx => do
    let addr ← tt.getWoIncar (ns + i)
    pure (readValue ram mem co addr idx)) (List.range count)

def coreEval (cache : LocalTwoRMI M₁ M₂) (tts : List TT) (ram : ℕ → Byte)
    (co : Coroutine A) (key : XKey) : Res (Eval A V) := do
  let m := cache.selectSecModel key
  let range ← cache.getPredictRange key
  let tt ← need tts[m]? .outOfRange
  let (ns, ne) := pageRange tt range
  if toUsize (ne - ns + 1) > kMaxBatch then do
    let (core, req) ← evalWRpc V co key
    pure (.waits core req)
  else do
    let (core, v) ← evalPages ram co tt ns.toNat (pageCount ns ne) key
    pure (.done core v)

end CoreEval

section CoreEvalV
variable [Usize] [DoubleArith] [MlTrait M₁ XKey] [MlTrait M₂ XKey]

def kValBit : ℕ := 16

/-- A pointer of 48 bits above the size of what it points to. -/
structure FatPointer where
  encodedVal : Fin (2 ^ 64)
  deriving DecidableEq, Repr

namespace FatPointer

def getPtr (p : FatPointer) : ℕ := p.encodedVal.val >>> kValBit
def getSz (p : FatPointer) : ℕ := p.encodedVal.val &&& (2 ^ kValBit - 1)

instance : Plain FatPointer where
  size := 8
  toBytes p := Plain.toBytes (α := XKey) p.encodedVal
  ofBytes bs := ⟨Plain.ofBytes (α := XKey) bs⟩
  length_toBytes p := Plain.length_toBytes (α := XKey) p.encodedVal
  ofBytes_toBytes p := congrArg mk (Plain.ofBytes_toBytes (α := XKey) p.encodedVal)

end FatPointer

def pageRangeV (tt : TT) (range : ℤ × ℤ) : ℤ × ℤ :=
  (max (range.1.tdiv 16) 0, min (range.2.tdiv 16) (toInt32 (tt.size - 1)))

/-- `core_eval_v` up to `execute_async`: the entries of the table are read from as they are. -/
def batchV (cache : LocalTwoRMI M₁ M₂) (tts : List TT) (buf : ℕ) (key : XKey) :
    Res (BatchOp 16 × ℕ) := do
  let readSz := XNode.inplaceValueEndOffset kNPageKey XKey FatPointer
  let m := cache.selectSecModel key
  let range ← cache.getPredictRange key
  let tt ← need tts[m]? .outOfRange
  let (ns, ne) := pageRangeV tt range
  let reqs ← pageReads tt.at? buf readSz ns.toNat (pageCount ns ne)
  pure (reqs, pageCount ns ne)

def coreEvalV (cache : LocalTwoRMI M₁ M₂) (tts : List TT) (ram : ℕ → Byte) (co : Coroutine A)
    (key : XKey) : Res (RPCCore A × V) := do
  let readSz := XNode.inplaceValueEndOffset kNPageKey XKey FatPointer
  let (reqs, count) ← batchV cache tts co.myBuf key
  let (mem, _) ← reqs.executeAsync ram co.core.mem
  searchPages mem co.myBuf readSz key (fun i idx => do
    let valAddr : FatPointer := Plain.ofBytes (slice mem (co.myBuf + readSz * i +
      XNode.valueOffset kNPageKey XKey FatPointer idx) (Plain.size FatPointer))
    ensure (decide ((valAddr.getSz : ℤ) = co.flagsLen)) .valueSize
    let op : ReadOp := ⟨valAddr.getPtr, co.myBuf, valAddr.getSz⟩
    let mem := op.execute ram mem
    pure ({ co.core with mem := mem }, Plain.ofBytes (slice mem co.myBuf (Plain.size V))))
    (List.range count)

end CoreEvalV

section Pages
variable {n buf readSz ns count : ℕ}

theorem pageReads_ok {rbuf : ℕ → Res ℕ} {g : ℕ → ℕ} (hcount : count ≤ n)
    (hr : ∀ i < count, rbuf (ns + i) = .ok (g i)) :
    ∃ reqs : BatchOp n, pageReads rbuf buf readSz ns count = .ok reqs ∧
      reqs.Holds ((List.range count).map (fun i => ⟨g i, buf + readSz * i, readSz⟩)) := by
  have hall := BatchOp.Holds.new.emplaceAll (n := n) (List.range count)
    (f := fun i => do
      let addr ← rbuf (ns + i)
      pure ⟨addr, buf + readSz * i, readSz⟩)
    (g := fun i => ⟨g i, buf + readSz * i, readSz⟩) (by simpa using hcount)
    (fun i hi => by simp only [hr i (List.mem_range.mp hi), ok_bind, pure_eq_ok])
  simpa [pageReads] using hall

theorem page_lt {tt : TT} {ns ne : ℤ} {i : ℕ} (hns : 0 ≤ ns) (hne : ne ≤ toInt32 (tt.size - 1))
    (hi : i < pageCount ns ne) : ns.toNat + i < tt.size ∧ ns.toNat + i < 2 ^ 31 := by
  have hlast : (ns.toNat + i : ℤ) ≤ toInt32 (tt.size - 1) := by
    unfold pageCount at hi
    omega
  have hlt := toInt32_lt ((tt.size : ℤ) - 1)
  have hpos : tt.size ≠ 0 := by
    intro hzero
    rw [hzero, toInt32_eq (by omega) (by omega)] at hlast
    omega
  have hle := toInt32_le (show (0 : ℤ) ≤ (tt.size : ℤ) - 1 by omega)
  omega

end Pages
end XStore.Ycsb
