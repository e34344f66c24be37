import XStore.Lib.Bytes
import XStore.Lib.Runs

/-! The versioned object and its ordered reader (wrapper_type.hh, mod.hh, local_rw_op.hh), and
their steps: every store of the one writer and every load of a reader is a step of its own. -/
namespace XStore.Xcomm
open XStore.Lib
variable {s : ℕ}

def kInvalidSeq : ℕ := 0

/-- The packed object around a payload of `s` bytes. The sequence numbers are u32 values. -/
structure WrappedType (s : ℕ) where
  seq : ℕ
  payload : Fin s → Byte
  seqCheck : ℕ

namespace WrappedType

def init (payload : Fin s → Byte) : WrappedType s where
  seq := kInvalidSeq + 1
  payload := payload
  seqCheck := kInvalidSeq + 1

def consistent (o : WrappedType s) : Bool := o.seq == o.seqCheck && o.seq != kInvalidSeq

def beginWrite (o : WrappedType s) : ℕ × WrappedType s :=
  let ret := o.seqCheck
  let o := { o with seqCheck := kInvalidSeq }
  (ret, { o with seq := kInvalidSeq })

def doneWrite (o : WrappedType s) (seq : ℕ) : WrappedType s :=
  let o := { o with seq := (seq + 1) % 2 ^ 32 }
  { o with seqCheck := o.seq }

/-- `sizeof`: the members without gaps, up to the next multiple of the alignment. -/
def size (s : ℕ) : ℕ := (4 + s + 4 + 63) / 64 * 64

/-- The byte at an offset; nobody looks at the padding behind the members. -/
def byteAt (o : WrappedType s) (b : ℕ) : Byte :=
  if b < 4 then byteOf o.seq b
  else if h : b - 4 < s then o.payload ⟨b - 4, h⟩
  else if b - (4 + s) < 4 then byteOf o.seqCheck (b - (4 + s))
  else 0

def u32At (mem : ℕ → Byte) (off : ℕ) : ℕ := ofBytes ((List.range 4).map (fun i => mem (off + i)))

def ofBuffer (s : ℕ) (mem : ℕ → Byte) : WrappedType s where
  seq := u32At mem 0
  payload i := mem (4 + i)
  seqCheck := u32At mem (4 + s)

end WrappedType

inductive Writer where
  | idle
  | begun (ret : ℕ)
  | writing (ret : ℕ)
  | ending

/-- A reader: the words it has loaded in this attempt, its private copy, and the numbers of
versions that there were at its first and at its latest load. -/
structure Reader where
  pos : ℕ
  copy : ℕ → Byte
  started : ℕ
  latest : ℕ

/-- The object in memory, its writer and its readers. `versions` records the payloads of the
finished writes, the initial one first. -/
structure State (s : ℕ) where
  obj : WrappedType s
  writer : Writer
  versions : List (Fin s → Byte)
  readers : ℕ → Reader

/-- The stores of a write, in the order of the program, and the steps of the readers. A store
into the payload sets some of its bytes. -/
inductive Event (s : ℕ) where
  | invalidateCheck
  | invalidateSeq
  | storePayload (p : Fin s → Option Byte)
  | storeSeq
  | storeCheck
  | load (r : ℕ)
  | restart (r : ℕ)

namespace State

def init (p : Fin s → Byte) : State s where
  obj := .init p
  writer := .idle
  versions := [p]
  readers := fun _ => { pos := 0, copy := fun _ => 0, started := 0, latest := 0 }

def setReader (σ : State s) (r : ℕ) (rd : Reader) : State s :=
  { σ with readers := Function.update σ.readers r rd }

@[simp] theorem setReader_self (σ : State s) (r : ℕ) (rd : Reader) :
    (σ.setReader r rd).readers r = rd := by
  simp [setReader]

@[simp] theorem setReader_other (σ : State s) {r r' : ℕ} (h : r' ≠ r) (rd : Reader) :
    (σ.setReader r rd).readers r' = σ.readers r' := by
  simp [setReader, h]

end State

namespace Reader

def finished (rd : Reader) (s : ℕ) : Prop := rd.pos = WrappedType.size s / 8

instance (rd : Reader) : Decidable (rd.finished s) := inferInstanceAs (Decidable (_ = _))

/-- Load the next 8 bytes at once. -/
def load (rd : Reader) (o : WrappedType s) (versions : ℕ) : Reader where
  pos := rd.pos + 1
  copy := fun b => if b / 8 = rd.pos then o.byteAt b else rd.copy b
  started := if rd.pos = 0 then versions else rd.started
  latest := versions

end Reader

/-- One step. After a whole copy the reader starts over: it retries, or reads anew. -/
def step (σ : State s) : Event s → Option (State s)
  | .invalidateCheck =>
    match σ.writer with
    | .idle => some { σ with
        writer := .begun σ.obj.seqCheck
        obj := { σ.obj with seqCheck := kInvalidSeq } }
    | _ => none
  | .invalidateSeq =>
    match σ.writer with
    | .begun ret => some { σ with writer := .writing ret, obj := { σ.obj with seq := kInvalidSeq } }
    | _ => none
  | .storePayload p =>
    match σ.writer with
    | .writing ret => some { σ with
        writer := .writing ret
        obj := { σ.obj with payload := fun i => (p i).getD (σ.obj.payload i) } }
    | _ => none
  | .storeSeq =>
    match σ.writer with
    | .writing ret => some { σ with
        writer := .ending
        obj := { σ.obj with seq := (ret + 1) % 2 ^ 32 } }
    | _ => none
  | .storeCheck =>
    match σ.writer with
    | .ending => some { σ with
        writer := .idle
        obj := { σ.obj with seqCheck := σ.obj.seq }
        versions := σ.versions ++ [σ.obj.payload] }
    | _ => none
  | .load r =>
    if (σ.readers r).finished s then none
    else some (σ.setReader r ((σ.readers r).load σ.obj σ.versions.length))
  | .restart r =>
    if (σ.readers r).finished s then some (σ.setReader r { σ.readers r with pos := 0 }) else none

theorem run_write (σ : State s) (h : σ.writer = .idle) (p : Fin s → Option Byte) :
    (run step [.invalidateCheck, .invalidateSeq] σ).map State.obj = some σ.obj.beginWrite.2 ∧
    (run step [.invalidateCheck, .invalidateSeq, .storePayload p, .storeSeq, .storeCheck] σ).map
      State.obj = some (WrappedType.doneWrite { σ.obj.beginWrite.2 with
        payload := fun i => (p i).getD (σ.obj.payload i) } σ.obj.beginWrite.1) := by
  constructor <;> simp [run, step, h, WrappedType.beginWrite, WrappedType.doneWrite]

/-- In every run, a whole copy that is consistent holds the payload of one version, if fewer
than 2^32 - 1 writes were finished while it was made. -/
def TornFree (s : ℕ) : Prop :=
  ∀ (p : Fin s → Byte) (es : List (Event s)) (σ : State s), run step es (.init p) = some σ →
    ∀ r, (σ.readers r).finished s →
      (σ.readers r).latest - (σ.readers r).started < 2 ^ 32 - 1 →
      (WrappedType.ofBuffer s (σ.readers r).copy).consistent = true →
      (WrappedType.ofBuffer s (σ.readers r).copy).payload ∈ σ.versions

end XStore.Xcomm
