import YcsbIvs.Extend.Threads
import YcsbIvs.Workloads.DoInsert
import YcsbIvs.Workloads.TransactionInsert

/-!
# A workload and its store

The transactions of `CoreWorkload`, begun by any number of threads over one store. `doTransaction` looks at the name of an operation that it has been
given, chooses a key and makes the values (`begin`); what it then asks of the store is carried out call by call (`Pending.perform`), and calls of other
threads can come between. A read that is followed by a write, of a read-modify-write or of an extend, leaves the write to be done.

An insert takes its key from `transactioninsertkeysequence`, and acknowledges it when `db.insert` has ended, however it has. The other operations take a
key that is not above `lastValue()`. An exception ends the operation.

Before that, the records have been loaded (`load`), each by a `doInsert` that has returned `true`.
-/

namespace YcsbIvs.Workloads

open YcsbIvs.Foundations YcsbIvs.Core YcsbIvs.Generator YcsbIvs.Extend

variable {τ ν σ : Type} [DecidableEq τ] [DecidableEq ν]

/-! ### Settings -/

/-- What `init` makes of the properties that transactions look at. -/
structure CoreWorkload (τ ν : Type) where
  /-- `table`. -/
  table : τ
  /-- `fieldnames` and `dataintegrity`. -/
  fields : Fields ν
  /-- `zeropadding`. -/
  zeropadding : ℤ
  /-- `orderedinserts`. -/
  orderedinserts : Bool
  /-- The name of the key with a number. -/
  keyname : ℤ → ν
  /-- It is what `buildKeyName` gives. -/
  keyname_string : ∀ keynum, fields.string (keyname keynum) = buildKeyName keynum zeropadding orderedinserts
  /-- `recordcount`, `insertstart` and `insertcount`. -/
  keys : KeyNumbers
  /-- Whether `requestdistribution` is `exponential`. -/
  exponential : Bool
  /-- `maxfieldlength`. -/
  maxfieldlength : ℤ
  /-- `readallfields`. -/
  readallfields : Bool
  /-- `readallfieldsbyname`. -/
  readallfieldsbyname : Bool
  /-- `writeallfields`. -/
  writeallfields : Bool
  /-- When an insert is tried again. -/
  retries : Retries

/-- The operations of `doTransaction`. -/
inductive Operation where
  | read | update | extend | insert | scan | readModifyWrite
  deriving DecidableEq, Repr

/-- The `switch` of `doTransaction`. -/
def Operation.ofName : String → Operation
  | "READ" => .read
  | "UPDATE" => .update
  | "EXTEND" => .extend
  | "INSERT" => .insert
  | "SCAN" => .scan
  | _ => .readModifyWrite

/-- What is drawn for one transaction. -/
structure TransactionDraw where
  /-- `keychooser.nextValue()`, in the last round of `nextKeynum`. -/
  key : ℤ
  /-- `fieldchooser.nextValue()`, for the field to read. -/
  readField : ℕ
  /-- The same, for the field to write. -/
  writeField : ℕ
  /-- `scanlength.nextValue()`. -/
  scanlength : ℤ
  /-- For the values. -/
  values : ℕ → Draw

/-! ### Operations -/

/-- What an operation has still to ask of the store. -/
inductive Pending (ν : Type) [DecidableEq ν] where
  /-- `db.read`. -/
  | read (key : ν) (fields : Option (List ν))
  /-- `db.scan`. -/
  | scan (startkey : ν) (recordcount : ℤ) (fields : Option (List ν))
  /-- `db.update`, or the update of an `extend` or a read-modify-write that has read. -/
  | update (key : ν) (values : Values ν)
  /-- `db.read`, and then `db.update`. -/
  | readModifyWrite (key : ν) (fields : Option (List ν)) (values : Values ν)
  /-- `db.extend`. -/
  | extend (key : ν) (values : Values ν)
  /-- `db.insert` of the key with a number. -/
  | insert (keynum : ℤ) (values : Values ν)

namespace CoreWorkload

variable (w : CoreWorkload τ ν)

/-- The fields that a transaction reads: `all`, or the one chosen. -/
def fieldsToRead (all : Option (List ν)) (chosen : ℕ) : Except Throwable (Option (List ν)) :=
  if w.readallfields then .ok all
  else
    match w.fields.fieldnames[chosen]? with
    | some fieldname => .ok (some [fieldname])
    | none => .error .arrayIndexOutOfBounds

/-- The values that a transaction writes. -/
def valuesToWrite (key : ν) (d : TransactionDraw) : Except Throwable (Values ν) :=
  if w.writeallfields then buildValues w.fields key d.values else buildSingleValue w.fields key d.writeField (d.values 0)

/-- The values that a transaction extends a record by. -/
def valuesToExtend (key : ν) (d : TransactionDraw) : Except Throwable (Values ν) :=
  if w.writeallfields then buildValuesExtend w.fields key d.values
  else buildSingleValueExtend w.fields key d.writeField (d.values 0)

/-- What an operation other than an insert asks of the store, when `nextKeynum` has returned the number of a key. -/
def begin (keynum : ℤ) (d : TransactionDraw) : Operation → Except Throwable (Pending ν)
  | .read => do
    let all := if w.fields.dataintegrity || w.readallfieldsbyname then some w.fields.fieldnames else none
    let fields ← w.fieldsToRead all d.readField
    .ok (.read (w.keyname keynum) fields)
  | .scan => do
    let fields ← w.fieldsToRead none d.readField
    .ok (.scan (w.keyname keynum) (asInt d.scanlength) fields)
  | .update => do
    let values ← w.valuesToWrite (w.keyname keynum) d
    .ok (.update (w.keyname keynum) values)
  | .extend => do
    let values ← w.valuesToExtend (w.keyname keynum) d
    .ok (.extend (w.keyname keynum) values)
  | .insert => do
    let values ← buildValues w.fields (w.keyname keynum) d.values
    .ok (.insert keynum values)
  | .readModifyWrite => do
    let fields ← w.fieldsToRead none d.readField
    let values ← w.valuesToWrite (w.keyname keynum) d
    .ok (.readModifyWrite (w.keyname keynum) fields values)

end CoreWorkload

section Store

variable (B : FaithfulStore τ ν σ) (w : CoreWorkload τ ν)

/-- The next call of an operation: the store after it, and what is left to do. A scan leaves the store as it is. -/
def Pending.perform (s : σ) : Pending ν → σ × Option (Pending ν)
  | .read key fields =>
    match B.read s w.table key fields with
    | .ok (_, _, s') => (s', none)
    | .error _ => (s, none)
  | .scan _ _ _ => (s, none)
  | .update key values =>
    match B.update s w.table key values with
    | .ok (_, _, s') => (s', none)
    | .error _ => (s, none)
  | .readModifyWrite key fields values =>
    match B.read s w.table key fields with
    | .ok (_, _, s') => (s', some (.update key values))
    | .error _ => (s, none)
  | .extend key values =>
    match readHalf B.toExtendBinding s w.table key values w.maxfieldlength with
    | .ok (some .ok, _, result, s') => (s', some (.update key result))
    | .ok (_, _, _, s') => (s', none)
    | .error _ => (s, none)
  | .insert keynum values =>
    match B.insert s w.table (w.keyname keynum) values with
    | .ok (_, _, s') => (s', none)
    | .error _ => (s, none)

/-- The number that `acknowledge` is given when the call has ended. -/
def Pending.finishes : Pending ν → Option ℤ
  | .insert keynum _ => some keynum
  | _ => none

/-! ### Sessions -/

/-- The store, the numbers of the keys that are inserted, and the operations under way. -/
structure Session (ν σ : Type) [DecidableEq ν] where
  /-- The store. -/
  store : σ
  /-- `transactioninsertkeysequence`, with what has been inserted. -/
  inserts : Inserts
  /-- The operations under way. -/
  pending : List (Pending ν)

/-- A step of some thread. -/
inductive Act where
  /-- `doTransaction`, up to its first call of the store. -/
  | begin (operation : String) (d : TransactionDraw)
  /-- The next call of the `n`th operation under way. -/
  | perform (n : ℕ)
  /-- A step of `acknowledge`. -/
  | acknowledge (l : AcknowledgedCounterGenerator.Label)

/-- The inserts after the call of an operation. -/
def Inserts.after (c : Inserts) : Option ℤ → Option Inserts
  | some keynum => insertStep c (.finish keynum)
  | none => some c

/-- One step. -/
def Session.step (c : Session ν σ) : Act → Option (Session ν σ)
  | .begin operation d =>
    if Operation.ofName operation = .insert then
      let keynum := c.inserts.gen.toCounterGenerator.nextValue.1
      (insertStep c.inserts (.gen .nextValue)).bind fun inserts =>
        match w.begin keynum d .insert with
        | .ok p => some { c with inserts := inserts, pending := c.pending ++ [p] }
        | .error _ => (inserts.after (some keynum)).map fun inserts => { c with inserts := inserts }
    else
      (nextKeynumRound w.exponential c.inserts.gen.lastValue d.key).map fun keynum =>
        match w.begin keynum d (Operation.ofName operation) with
        | .ok p => { c with pending := c.pending ++ [p] }
        | .error _ => c
  | .perform n =>
    c.pending[n]?.bind fun p =>
      (c.inserts.after p.finishes).map fun inserts =>
        ⟨(p.perform B w c.store).1, inserts, c.pending.eraseIdx n ++ (p.perform B w c.store).2.toList⟩
  | .acknowledge l =>
    if l = .nextValue then none else (insertStep c.inserts (.gen l)).map fun inserts => { c with inserts := inserts }

/-- Before any transaction. -/
def Session.initial (s : σ) : Session ν σ := ⟨s, .initial w.keys.recordcount, []⟩

/-! ### Loading -/

/-- A `doInsert` of the load: the number of its key, what is drawn for its values, and how its sleeps end. -/
structure LoadedRecord where
  /-- The number. -/
  keynum : ℤ
  /-- The draws. -/
  draws : ℕ → Draw
  /-- The sleeps. -/
  wakes : List Wakes

/-- A `doInsert` that returns `true`. -/
def loadRecord (s : σ) (r : LoadedRecord) : Option σ :=
  (buildValues w.fields (w.keyname r.keynum) r.draws).toOption.bind fun values =>
    (exec (attempt B.toInsertBinding w.retries w.table (w.keyname r.keynum)) (Insertion.initial s values) r.wakes).bind fun c =>
      match c.outcome with
      | some (.ok true) => some c.store
      | _ => none

/-- The store that has been loaded: each `doInsert` has returned `true`. -/
def load : σ → List LoadedRecord → Option σ := exec (loadRecord B w)

end Store

end YcsbIvs.Workloads
