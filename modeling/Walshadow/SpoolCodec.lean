import Walshadow.SpillFile
import Walshadow.SpoolFile
import Walshadow.TupleVisibility

/-!
# Bytes of the deferred spool

Records stay in memory up to a bound; past it, and at every checkpoint, they are framed
into one append-only file behind a short header. A file is reopened for appends at a
durable mark, cutting what follows it, or resumed read-only at a record boundary. Chunked
buffered reads and writes move the same bytes and are left out; a failed write of the
disk itself is not modelled.
-/

namespace Walshadow.SpoolCodec

open Records ByteCodec LogCodec SpillCodec SpillFile TupleVisibility SpoolFile

/-- Place of a tuple and its columns. -/
structure Placed where
  sourceLsn : Lsn
  blkno : UInt32
  offnum : UInt16
  /-- Column values, absent where the page has none. -/
  columns : List (Option ColumnValue)
deriving DecidableEq

/-- Tuple as the spool keeps it. -/
abbrev SpoolTuple := BackfillTuple Placed

/-- Why an operation of the spool fails. -/
inductive SpoolError where
  | notFound
  | alreadyExists
  /-- The bytes are not a spool, or not the one expected. -/
  | spill (e : SpillError)
deriving DecidableEq

/-- Fixed parameters of one spool. -/
structure Config where
  path : String
  /-- Bound on the records in memory. -/
  memMax : ℕ
  /-- Bytes of a record without its values. -/
  tupleSize : ℕ

/-- Bytes a record is charged while in memory. -/
def approxBytes (c : Config) (t : SpoolTuple) : ℕ :=
  c.tupleSize+(t.payload.columns.map (fun col => col.elim 0 ColumnValue.approxBytes)).sum

/-- Body of one record. -/
def encodeRecord (t : SpoolTuple) : List UInt8 :=
  putRfn t.rfn++(putU32 t.xid++(putU32 t.xmax++(putU16 t.infomask++(putU64 t.payload.sourceLsn++
    (putU32 t.payload.blkno++(putU16 t.payload.offnum++
      putList (putOption encodeValue) t.payload.columns))))))

/-- Read one record. -/
def decodeRecord : Decoder SpoolTuple := do
  let rfn ←getRfn
  let xid ←getU32
  let xmax ←getU32
  let infomask ←getU16
  let sourceLsn ←getU64
  let blkno ←getU32
  let offnum ←getU16
  let columns ←getList (getOption decodeValue)
  pure ⟨rfn,xid,xmax,infomask,⟨sourceLsn,blkno,offnum,columns⟩⟩

/-- Length written in front of a body: its low 32 bits. -/
def bodyLen (t : SpoolTuple) : ℕ := (UInt32.ofNat (encodeRecord t).length).toNat

/-- Bytes appended for a record. -/
def append (t : SpoolTuple) : List UInt8 :=
  putU32 (UInt32.ofNat (encodeRecord t).length)++encodeRecord t

/-- First bytes of a spool. -/
def spoolMagic : List UInt8 := [87,68]

/-- Format written. -/
def spoolVersion : UInt16 := 1

/-- Header of a spool. -/
def spoolHeader : List UInt8 := spoolMagic++putU16 spoolVersion

/-- What is at the path, buffered bytes included. -/
abbrev Disk := Option (List UInt8)

/-- Where the records are. -/
inductive Store where
  /-- In memory, with the bytes they are charged. -/
  | mem (tuples : List SpoolTuple) (bytes : ℕ)
  | file

/-- An open spool. -/
structure DeferredSpool where
  store : Store
  records : ℕ
  /-- Encoded bytes in the file, its header apart. -/
  spooledBytes : ℕ

/-- A new spool. -/
def DeferredSpool.new : DeferredSpool := ⟨.mem [] 0,0,0⟩

/-- Write to an open file. -/
def landed (d : Disk) (bytes : List UInt8) : Disk := d.map (fun found => found++bytes)

/-- Move to the file, creating it with the records kept in memory. -/
def DeferredSpool.file (s : DeferredSpool) (d : Disk) : Except SpoolError (DeferredSpool×Disk) :=
  match s.store with
  | .file => .ok (s,d)
  | .mem tuples _ =>
    if d.isSome then .error .alreadyExists
    else .ok (⟨.file,s.records,s.spooledBytes+(tuples.map (fun t => 4+bodyLen t)).sum⟩,
      some (spoolHeader++tuples.flatMap append))

/-- Append one record to the file, creating it where needed. -/
def DeferredSpool.spill (s : DeferredSpool) (d : Disk) (t : SpoolTuple) :
    Except SpoolError (DeferredSpool×Disk) :=
  match s.file d with
  | .error e => .error e
  | .ok (s',d') => .ok ({s' with spooledBytes := s'.spooledBytes+(4+bodyLen t)},landed d' (append t))

/-- Append a record, in memory while it fits. -/
def DeferredSpool.push (c : Config) (s : DeferredSpool) (d : Disk) (t : SpoolTuple) :
    Except SpoolError (DeferredSpool×Disk) :=
  match s.store with
  | .mem tuples bytes =>
    if bytes+approxBytes c t ≤ c.memMax then
      .ok (⟨.mem (tuples++[t]) (bytes+approxBytes c t),s.records+1,s.spooledBytes⟩,d)
    else DeferredSpool.spill {s with records := s.records+1} d t
  | .file => DeferredSpool.spill {s with records := s.records+1} d t

/-- Whether there is nothing to make durable. -/
def DeferredSpool.isEmpty (s : DeferredSpool) : Bool :=
  match s.store with
  | .mem tuples _ => tuples.isEmpty
  | .file => false

/-- Force all records out and answer the mark. -/
def DeferredSpool.checkpoint (s : DeferredSpool) (d : Disk) :
    Except SpoolError (DeferredSpool×Disk×SpoolMark) :=
  if s.isEmpty then .ok (s,d,.empty)
  else
    match s.file d with
    | .error e => .error e
    | .ok (s',d') => .ok (s',d',⟨s'.records,s'.spooledBytes⟩)

/-- Bytes behind the checked header and an offset. -/
def openValidated (d : Disk) (offset : ℕ) : Except SpoolError (List UInt8) :=
  match d with
  | none => .error .notFound
  | some bytes =>
    if bytes.length<4 then .error (.spill .unexpectedEof)
    else if bytes.take 2≠spoolMagic then
      .error (.spill (.format 0 ("bad magic "++hexList (bytes.take 2)++", expected "++
        hexList spoolMagic)))
    else if ofLe ((bytes.drop 2).take 2)≠spoolVersion.toNat then
      .error (.spill (.format 2 ("unsupported version "++toString (ofLe ((bytes.drop 2).take 2))++
        ", expected "++toString spoolVersion)))
    else .ok (bytes.drop (4+offset))

/-- Body of the next frame and what follows it, where both its length and its body are
within the bytes that remain. -/
def readFrame (rest : List UInt8) (remaining : ℕ) : Option (List UInt8×List UInt8) :=
  if remaining<4 ∨ rest.length<4 then none
  else
    let len := ofLe (rest.take 4)
    if remaining<4+len ∨ rest.length<4+len then none
    else some ((rest.drop 4).take len,rest.drop (4+len))

/-- Whole frames below a limit: where the last ends and how many there are. A frame takes
four bytes or more, so the bytes left bound the loop. -/
def scanFrames : ℕ→List UInt8→ℕ→ℕ→ℕ→ℕ×ℕ
  | 0,_,_,offset,records => (offset,records)
  | fuel+1,rest,limit,offset,records =>
    match readFrame rest (limit-offset) with
    | none => (offset,records)
    | some (body,rest') => scanFrames fuel rest' limit (offset+(4+body.length)) (records+1)

/-- Where the last whole record below a limit ends and how many there are. -/
def scanRecords (d : Disk) (limit : ℕ) : Except SpoolError (ℕ×ℕ) :=
  match openValidated d 0 with
  | .error e => .error e
  | .ok rest => .ok (scanFrames (rest.length+1) rest limit 4 0)

/-- Reopen for appends at a mark, cutting what follows. -/
def reopenAt (c : Config) (d : Disk) (m : SpoolMark) : Except SpoolError (DeferredSpool×Disk) :=
  if m.bytes=0 ∧ m.records=0 then .ok (.new,none)
  else
    match scanRecords d (4+m.bytes) with
    | .error e => .error e
    | .ok (validLen,complete) =>
      if (validLen,complete)≠(4+m.bytes,m.records) then
        .error (.spill (.format validLen ("spool "++c.path++" holds "++toString complete++
          " records in "++toString validLen++" bytes, checkpoint counted "++toString m.records++
          " in "++toString m.bytes)))
      else .ok (⟨.file,m.records,m.bytes⟩,d.map (fun bytes => bytes.take (4+m.bytes)))

/-- Spool reopened read-only at a record boundary. -/
structure ResumedSpool where
  records : ℕ
  spooledBytes : ℕ
  /-- Bytes already replayed. -/
  readOffset : ℕ

/-- Resume replay of a spool that is no longer written. -/
def resume (d : Disk) (m : SpoolMark) (offset : ℕ) : Except SpoolError ResumedSpool :=
  match d with
  | none => .error .notFound
  | some bytes =>
    if m.bytes<offset ∨ bytes.length≠4+m.bytes then
      .error (.spill (.format 0 "checkpoint spool size changed"))
    else
      match openValidated d 0 with
      | .error e => .error e
      | .ok _ => .ok ⟨m.records,m.bytes,offset⟩

/-- Sequential replay. -/
inductive DeferredReader where
  | mem (tuples : List SpoolTuple)
  /-- Of a file: the bytes from here on and how many of them are records. -/
  | file (rest : List UInt8) (remaining : ℕ)
deriving Inhabited

/-- Bytes of the file not yet replayed. -/
def DeferredReader.remainingFileBytes : DeferredReader→ℕ
  | .mem _ => 0
  | .file _ remaining => remaining

/-- Seal a spool for replay. -/
def DeferredSpool.intoReader (s : DeferredSpool) (d : Disk) : Except SpoolError DeferredReader :=
  match s.store with
  | .mem tuples _ => .ok (.mem tuples)
  | .file =>
    match openValidated d 0 with
    | .error e => .error e
    | .ok rest => .ok (.file rest s.spooledBytes)

/-- Replay past the offset. -/
def ResumedSpool.intoReader (s : ResumedSpool) (d : Disk) : Except SpoolError DeferredReader :=
  match openValidated d s.readOffset with
  | .error e => .error e
  | .ok rest => .ok (.file rest (s.spooledBytes-s.readOffset))

/-- Next record, or nothing at the end. -/
def DeferredReader.next : DeferredReader→Except SpoolError (Option (SpoolTuple×DeferredReader))
  | .mem [] => .ok none
  | .mem (t::ts) => .ok (some (t,.mem ts))
  | .file rest remaining =>
    if remaining=0 then .ok none
    else
      match readFrame rest remaining with
      | none => .error (.spill (.format 0 "spool truncated mid-record"))
      | some (body,rest') =>
        match running decodeRecord body with
        | .error e => .error (.spill e)
        | .ok (t,_) => .ok (some (t,.file rest' (remaining-(4+body.length))))

/-- Records up to the end, or the first error; nothing where the bound is too small. -/
def DeferredReader.drain : ℕ→DeferredReader→Option (Except SpoolError (List SpoolTuple))
  | 0,_ => none
  | bound+1,r =>
    match r.next with
    | .error e => some (.error e)
    | .ok none => some (.ok [])
    | .ok (some (t,r')) =>
      match r'.drain bound with
      | none => none
      | some (.error e) => some (.error e)
      | some (.ok ts) => some (.ok (t::ts))

/-- Read a number of records, or up to the end. -/
def DeferredReader.skip : ℕ→DeferredReader→Except SpoolError DeferredReader
  | 0,r => .ok r
  | n+1,r =>
    match r.next with
    | .error e => .error e
    | .ok none => .ok r
    | .ok (some (_,r')) => r'.skip n

end Walshadow.SpoolCodec
