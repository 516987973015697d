import Mathlib

/-!
# Decoded rows, stashed records and relation descriptors

The data every later stage moves: decoded heap tuples with the descriptor they
were decoded against, TOAST chunks and tombstones, undecoded records stashed
until commit, and the relation shapes read from the shadow catalog. Fixed-width
fields keep their width, floats are their bit patterns, and shared `Arc` bodies
are plain values. Tracing spans and gauges carry no replicated data and are
left out.
-/

namespace Walshadow.Records

/-- PostgreSQL object identifier. -/
abbrev Oid := UInt32

/-- Transaction or subtransaction identifier. -/
abbrev Xid := UInt32

/-- WAL byte position. -/
abbrev Lsn := UInt64

/-- Physical identity of one relation fork. -/
structure RelFileNode where
  spcNode : UInt32
  dbNode : UInt32
  relNode : UInt32
deriving DecidableEq

/-- Schema-qualified relation name. -/
structure RelName where
  namespaceName : String
  name : String
deriving DecidableEq

/-- Replica identity as the catalog states it. -/
inductive ReplIdent where
  | default (pkAttnums : Option (List Int16))
  | nothing
  | full (pkAttnums : Option (List Int16))
  | usingIndex (indexOid : Oid) (keyAttnums : List Int16)
deriving DecidableEq

/-- Fast default of an attribute, as on-disk bytes or as its text form. -/
inductive MissingDefault where
  | raw (bytes : List UInt8)
  | text (value : String)
deriving DecidableEq

/-- One attribute of a relation, dropped ones included. -/
structure RelAttr where
  attnum : Int16
  name : String
  typeOid : Oid
  typmod : Int32
  notNull : Bool
  /-- Dropped columns keep their slot. -/
  dropped : Bool
  typeName : String
  typeByval : Bool
  /-- On-disk width, negative for variable length. -/
  typeLen : Int16
  typeAlign : Char
  typeStorage : Char
  /-- Fast default, when the catalog holds one. -/
  missingDefault : Option MissingDefault
deriving DecidableEq

/-- Relation descriptor without its partition ancestors. -/
structure RelShape where
  rfn : RelFileNode
  /-- Relation identity, stable over rewrites. -/
  oid : Oid
  /-- TOAST table, zero when there is none. -/
  toastOid : Oid
  namespaceOid : Oid
  relName : RelName
  kind : Char
  persistence : Char
  replident : ReplIdent
  /-- Attributes by attribute number. -/
  attributes : List RelAttr
deriving DecidableEq

/-- Relation descriptor. Ancestors are copies that omit their own ancestors, so
they are shapes and a nested ancestor cannot be built. -/
structure RelDescriptor extends RelShape where
  /-- Declarative partition ancestors, parent first. -/
  ancestors : List RelShape
deriving DecidableEq

/-- One-column table whose column is called `column`. -/
def namedTable (column : String) : RelDescriptor where
  rfn := ⟨1663,5,7000⟩
  oid := 42
  toastOid := 0
  namespaceOid := 2200
  relName := ⟨"public","t"⟩
  kind := 'r'
  persistence := 'p'
  replident := .default none
  attributes := [⟨1,column,23,-1,false,false,"int4",true,4,'i','p',none⟩]
  ancestors := []

/-- Numeric column body. -/
inductive NumericKind where
  | nan
  | pInf
  | nInf
  | finite (text : String)
deriving DecidableEq

/-- One decoded column. Floats carry their bit pattern. -/
inductive ColumnValue where
  | null
  | bool (b : Bool)
  | char (i : Int8)
  | int2 (i : Int16)
  | int4 (i : Int32)
  | int8 (i : Int64)
  | float4 (bits : UInt32)
  | float8 (bits : UInt64)
  | oid (i : UInt32)
  | date (days : Int32)
  | time (micros : Int64)
  | timestamp (micros : Int64)
  | timestampTz (micros : Int64)
  | timeTz (micros : Int64) (tzSeconds : Int32)
  | uuid (bytes : Vector UInt8 16)
  | name (s : String)
  | bytea (b : List UInt8)
  | text (s : String)
  | numeric (n : NumericKind)
  | inet (family bits : UInt8) (isCidr : Bool) (addr : List UInt8)
  | interval (months days : Int32) (micros : Int64)
  | json (s : String)
  | pgPending (typeOid : UInt32) (raw : List UInt8)
  | pgPendingText (typeOid : UInt32) (text : String)
  | externalToast (vaRawsize : Int32) (vaExtinfo vaValueid vaToastrelid : UInt32)
  | unsupported (typeOid : UInt32) (raw : List UInt8)
deriving DecidableEq

/-- Approximate in-memory payload of one column. -/
def ColumnValue.approxBytes : ColumnValue→Nat
  | .null => 0
  | .bool _ | .char _ => 1
  | .int2 _ => 2
  | .int4 _ | .float4 _ | .oid _ | .date _ => 4
  | .int8 _ | .float8 _ | .time _ | .timestamp _ | .timestampTz _ => 8
  | .timeTz _ _ => 12
  | .uuid _ => 16
  | .interval _ _ _ => 16
  | .inet _ _ _ addr => 3+addr.length
  | .numeric (.finite s) => s.utf8ByteSize
  | .numeric _ => 0
  | .name s | .text s | .json s => s.utf8ByteSize
  | .bytea b => b.length
  | .pgPending _ raw | .unsupported _ raw => raw.length
  | .pgPendingText _ s => s.utf8ByteSize
  | .externalToast _ _ _ _ => 16

/-- Row change carried by one decoded record. -/
inductive HeapOp where
  | insert
  | update
  | hotUpdate
  | delete
  | truncate
deriving DecidableEq

/-- Decoded tuple image; `none` marks a column absent from the WAL record. -/
structure DecodedTuple where
  columns : List (Option ColumnValue)
  /-- A column was elided by prefix or suffix compression. -/
  partialImage : Bool
deriving DecidableEq

/-- One decoded heap record. -/
structure DecodedHeap where
  rfn : RelFileNode
  xid : Xid
  sourceLsn : Lsn
  op : HeapOp
  new : Option DecodedTuple
  /-- Old image or replica identity key. -/
  old : Option DecodedTuple
deriving DecidableEq

/-- Payload of one optional image. -/
def imageBytes (t : Option DecodedTuple) : Nat :=
  t.elim 0 (fun t => (t.columns.map (fun c => c.elim 0 ColumnValue.approxBytes)).sum)

/-- Sum over both images. -/
def DecodedHeap.approxBytes (h : DecodedHeap) : Nat := imageBytes h.new+imageBytes h.old

/-- Decoded heap frozen to the descriptor it was decoded against. -/
structure DescribedHeap where
  decoded : DecodedHeap
  descriptor : RelDescriptor
  descriptorValidFrom : Lsn
deriving DecidableEq

/-- Payload plus the retained reference and the span key, eight bytes each. -/
def DescribedHeap.approxBytes (h : DescribedHeap) : Nat := h.decoded.approxBytes+8+8

/-- One block reference of a stashed record. -/
structure RawBlock where
  blockId : UInt8
  forkFlags : UInt8
  dataLength : UInt16
  imageLength : UInt16
  holeOffset : UInt16
  holeLength : UInt16
  bimgInfo : UInt8
  spcNode : UInt32
  dbNode : UInt32
  relNode : UInt32
  blockNo : UInt32
  image : List UInt8
  data : List UInt8
deriving DecidableEq

/-- Undecoded record, enough to decode it after commit-time resolution. -/
structure RawRecord where
  /-- Original writer xid, a subxact's own. -/
  xid : Xid
  rm : UInt8
  /-- Operation and flag bits. -/
  info : UInt8
  sourceLsn : Lsn
  /-- WAL page magic, selects image bit semantics. -/
  pageMagic : UInt16
  mainData : List UInt8
  blocks : List RawBlock
deriving DecidableEq

/-- Target filenode of a stashed record: its first block's relation. -/
def RawRecord.rfn (r : RawRecord) : Option RelFileNode :=
  r.blocks.head?.map (fun b => ⟨b.spcNode,b.dbNode,b.relNode⟩)

/-- One TOAST chunk row. -/
structure ToastChunk where
  dbOid : UInt32
  toastRelid : UInt32
  valueId : UInt32
  chunkSeq : UInt32
  sourceLsn : Lsn
  blkno : UInt32
  /-- Line pointer of the chunk row, zero when unknown. -/
  offnum : UInt16
  chunkData : List UInt8
deriving DecidableEq

/-- Deleted TOAST tuple, one tombstone per chunk. -/
structure ToastDelete where
  dbOid : UInt32
  toastRelid : UInt32
  blkno : UInt32
  offnum : UInt16
  sourceLsn : Lsn
deriving DecidableEq

/-- One buffered entry of a transaction. -/
inductive SpillEntry where
  | heap (h : DescribedHeap)
  | chunk (c : ToastChunk)
  | toastDelete (d : ToastDelete)
  | raw (r : RawRecord)
deriving DecidableEq

/-- Position a merge orders an entry by. -/
def entryLsn : SpillEntry→Nat
  | .heap h => h.decoded.sourceLsn.toNat
  | .chunk c => c.sourceLsn.toNat
  | .toastDelete d => d.sourceLsn.toNat
  | .raw r => r.sourceLsn.toNat

/-- Error of the spill file reader. -/
inductive SpillError where
  | unexpectedEof
  | format (offset : Nat) (detail : String)
deriving DecidableEq

/-- What an ambiguity interval fences. -/
inductive AmbiguityScope where
  | rfn (rfn : RelFileNode)
  | oid (oid : Oid)
  | database (db : Oid)
deriving DecidableEq

/-- Why an interval is fenced. -/
inductive AmbiguityReason where
  | unknownMutationPosition
deriving DecidableEq

/-- Interval `[fromLsn,throughLsn)` in which no single descriptor provably
decodes the rows of its scope. -/
structure Ambiguity where
  scope : AmbiguityScope
  fromLsn : Lsn
  /-- First position past the fence. -/
  throughLsn : Lsn
  reason : AmbiguityReason
deriving DecidableEq

/-- Shape a command boundary of an open transaction saw. -/
structure PendingSlot where
  /-- First position this shape answers for. -/
  validFrom : Lsn
  /-- Subxact current at capture. -/
  writerXid : Xid
  desc : RelDescriptor
deriving DecidableEq

end Walshadow.Records
