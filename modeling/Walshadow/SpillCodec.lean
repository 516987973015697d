import Walshadow.LogCodec

/-!
# Entry bodies of the spill file

Decoded rows, TOAST chunks and tombstones, and stashed records as the per-xid
spill file stores them: nested tagged values behind 32-bit lengths. Every body
whose encoding has a 32-bit length is read back as it was.
-/

namespace Walshadow.SpillCodec

open Records ByteCodec LogCodec

/-- A numeric body, its kind first. -/
def encodeNumeric : NumericKind→List UInt8
  | .finite s => putU8 0++putString s
  | .nan => putU8 1
  | .pInf => putU8 2
  | .nInf => putU8 3

/-- One column value behind its tag. -/
def encodeValue : ColumnValue→List UInt8
  | .null => putU8 0
  | .bool b => putU8 1++putBool b
  | .char i => putU8 2++putI8 i
  | .int2 i => putU8 3++putI16 i
  | .int4 i => putU8 4++putI32 i
  | .int8 i => putU8 5++putI64 i
  | .float4 bits => putU8 6++putU32 bits
  | .float8 bits => putU8 7++putU64 bits
  | .oid i => putU8 8++putU32 i
  | .date days => putU8 9++putI32 days
  | .time micros => putU8 10++putI64 micros
  | .timestamp micros => putU8 11++putI64 micros
  | .timestampTz micros => putU8 12++putI64 micros
  | .timeTz micros tzSeconds => putU8 13++(putI64 micros++putI32 tzSeconds)
  | .uuid bytes => putU8 14++bytes.toList
  | .name s => putU8 15++putString s
  | .bytea b => putU8 16++putBlob b
  | .text s => putU8 17++putString s
  | .externalToast vaRawsize vaExtinfo vaValueid vaToastrelid =>
    putU8 18++(putI32 vaRawsize++(putU32 vaExtinfo++(putU32 vaValueid++putU32 vaToastrelid)))
  | .unsupported typeOid raw => putU8 19++(putU32 typeOid++putBlob raw)
  | .numeric n => putU8 20++encodeNumeric n
  | .inet family bits isCidr addr =>
    putU8 21++(putU8 family++(putU8 bits++(putBool isCidr++putBlob addr)))
  | .interval months days micros => putU8 22++(putI32 months++(putI32 days++putI64 micros))
  | .json s => putU8 23++putString s
  | .pgPending typeOid raw => putU8 24++(putU32 typeOid++putBlob raw)
  | .pgPendingText typeOid text => putU8 25++(putU32 typeOid++putString text)

/-- A tuple image after its presence byte. -/
def encodeTuple (t : DecodedTuple) : List UInt8 :=
  putBool t.partialImage++putList (putOption encodeValue) t.columns

/-- An optional tuple image. -/
def encodeOptTuple (t : Option DecodedTuple) : List UInt8 := putOption encodeTuple t

/-- A row change, its wire tag. -/
def putOp : HeapOp→List UInt8
  | .insert => putU8 0
  | .update => putU8 1
  | .hotUpdate => putU8 2
  | .delete => putU8 3
  | .truncate => putU8 4

/-- Body of one decoded row. -/
def encodeHeap (h : DecodedHeap) : List UInt8 :=
  putRfn h.rfn++putU32 h.xid++putU64 h.sourceLsn++putOp h.op++encodeOptTuple h.new++
    encodeOptTuple h.old

/-- Body of a TOAST chunk. -/
def encodeChunk (c : ToastChunk) : List UInt8 :=
  putU32 c.dbOid++putU32 c.toastRelid++putU32 c.valueId++putU32 c.chunkSeq++putU64 c.sourceLsn++
    putU32 c.blkno++putU16 c.offnum++putBlob c.chunkData

/-- Body of a TOAST tombstone. -/
def encodeToastDelete (d : ToastDelete) : List UInt8 :=
  putU32 d.dbOid++putU32 d.toastRelid++putU32 d.blkno++putU16 d.offnum++putU64 d.sourceLsn

/-- One block reference. -/
def encodeBlock (b : RawBlock) : List UInt8 :=
  putU8 b.blockId++putU8 b.forkFlags++putU16 b.dataLength++putU16 b.imageLength++
    putU16 b.holeOffset++putU16 b.holeLength++putU8 b.bimgInfo++putU32 b.spcNode++
    putU32 b.dbNode++putU32 b.relNode++putU32 b.blockNo++putBlob b.image++putBlob b.data

/-- Body of a stashed record. -/
def encodeRaw (r : RawRecord) : List UInt8 :=
  putU32 r.xid++putU8 r.rm++putU8 r.info++putU64 r.sourceLsn++putU16 r.pageMagic++
    putBlob r.mainData++putList encodeBlock r.blocks

/-- Read a numeric body. -/
def decodeNumeric : Decoder NumericKind := do
  let kind ←getU8
  if kind=0 then do
    let s ←getString
    pure (.finite s)
  else if kind=1 then pure .nan
  else if kind=2 then pure .pInf
  else if kind=3 then pure .nInf
  else corrupt ("unknown NumericKind tag "++toString kind)

/-- Sixteen bytes. -/
def getUuid : Decoder (Vector UInt8 16) := do
  let bytes ←need 16
  if h : bytes.length=16 then pure ⟨bytes.toArray,by simpa using h⟩
  else corrupt "uuid"

/-- A field followed by the value built from it. -/
def valued {α : Type} (get : Decoder α) (f : α → ColumnValue) : Decoder ColumnValue := do
  let a ←get
  pure (f a)

/-- A type identifier and a body. -/
def typed {α : Type} (get : Decoder α) (f : UInt32→α → ColumnValue) : Decoder ColumnValue := do
  let typeOid ←getU32
  let a ←get
  pure (f typeOid a)

/-- Read a TOAST pointer. -/
def getExternalToast : Decoder ColumnValue := do
  let vaRawsize ←getI32
  let vaExtinfo ←getU32
  let vaValueid ←getU32
  let vaToastrelid ←getU32
  pure (.externalToast vaRawsize vaExtinfo vaValueid vaToastrelid)

/-- Read a time with its zone. -/
def getTimeTz : Decoder ColumnValue := do
  let micros ←getI64
  let tzSeconds ←getI32
  pure (.timeTz micros tzSeconds)

/-- Read a network address. -/
def getInet : Decoder ColumnValue := do
  let family ←getU8
  let bits ←getU8
  let isCidr ←getBool
  let addr ←getBlob
  pure (.inet family bits isCidr addr)

/-- Read an interval. -/
def getInterval : Decoder ColumnValue := do
  let months ←getI32
  let days ←getI32
  let micros ←getI64
  pure (.interval months days micros)

/-- Body of the value a tag announces. -/
def decodeTagged (tag : UInt8) : Decoder ColumnValue :=
  match tag.toNat with
  | 0 => pure .null
  | 1 => valued getBool .bool
  | 2 => valued getI8 .char
  | 3 => valued getI16 .int2
  | 4 => valued getI32 .int4
  | 5 => valued getI64 .int8
  | 6 => valued getU32 .float4
  | 7 => valued getU64 .float8
  | 8 => valued getU32 .oid
  | 9 => valued getI32 .date
  | 10 => valued getI64 .time
  | 11 => valued getI64 .timestamp
  | 12 => valued getI64 .timestampTz
  | 13 => getTimeTz
  | 14 => valued getUuid .uuid
  | 15 => valued getString .name
  | 16 => valued getBlob .bytea
  | 17 => valued getString .text
  | 18 => getExternalToast
  | 19 => typed getBlob .unsupported
  | 20 => valued decodeNumeric .numeric
  | 21 => getInet
  | 22 => getInterval
  | 23 => valued getString .json
  | 24 => typed getBlob .pgPending
  | 25 => typed getString .pgPendingText
  | _ => corrupt ("unknown ColumnValue tag "++toString tag)

/-- Read one column value. -/
def decodeValue : Decoder ColumnValue := do
  let tag ←getU8
  decodeTagged tag

/-- Read a tuple image after its presence byte. -/
def decodeTuple : Decoder DecodedTuple := do
  let partialImage ←getBool
  let columns ←getList (getOption decodeValue)
  pure ⟨columns,partialImage⟩

/-- Read an optional tuple image. -/
def decodeOptTuple : Decoder (Option DecodedTuple) := getOption decodeTuple

/-- Read a row change. -/
def getOp : Decoder HeapOp := do
  let tag ←getU8
  if tag=0 then pure .insert
  else if tag=1 then pure .update
  else if tag=2 then pure .hotUpdate
  else if tag=3 then pure .delete
  else if tag=4 then pure .truncate
  else corrupt ("unknown HeapOp tag "++toString tag)

/-- Read one decoded row. -/
def decodeHeap : Decoder DecodedHeap := do
  let rfn ←getRfn
  let xid ←getU32
  let sourceLsn ←getU64
  let op ←getOp
  let new ←decodeOptTuple
  let old ←decodeOptTuple
  pure ⟨rfn,xid,sourceLsn,op,new,old⟩

/-- Read a TOAST chunk. -/
def decodeChunk : Decoder ToastChunk := do
  let dbOid ←getU32
  let toastRelid ←getU32
  let valueId ←getU32
  let chunkSeq ←getU32
  let sourceLsn ←getU64
  let blkno ←getU32
  let offnum ←getU16
  let chunkData ←getBlob
  pure ⟨dbOid,toastRelid,valueId,chunkSeq,sourceLsn,blkno,offnum,chunkData⟩

/-- Read a TOAST tombstone. -/
def decodeToastDelete : Decoder ToastDelete := do
  let dbOid ←getU32
  let toastRelid ←getU32
  let blkno ←getU32
  let offnum ←getU16
  let sourceLsn ←getU64
  pure ⟨dbOid,toastRelid,blkno,offnum,sourceLsn⟩

/-- Read one block reference. -/
def decodeBlock : Decoder RawBlock := do
  let blockId ←getU8
  let forkFlags ←getU8
  let dataLength ←getU16
  let imageLength ←getU16
  let holeOffset ←getU16
  let holeLength ←getU16
  let bimgInfo ←getU8
  let spcNode ←getU32
  let dbNode ←getU32
  let relNode ←getU32
  let blockNo ←getU32
  let image ←getBlob
  let data ←getBlob
  pure ⟨blockId,forkFlags,dataLength,imageLength,holeOffset,holeLength,bimgInfo,spcNode,dbNode,
    relNode,blockNo,image,data⟩

/-- Read a stashed record. -/
def decodeRaw : Decoder RawRecord := do
  let xid ←getU32
  let rm ←getU8
  let info ←getU8
  let sourceLsn ←getU64
  let pageMagic ←getU16
  let mainData ←getBlob
  let blocks ←getList decodeBlock
  pure ⟨xid,rm,info,sourceLsn,pageMagic,mainData,blocks⟩

/-- Numerics are read back. -/
theorem reads_numeric {n : NumericKind} (h : (encodeNumeric n).length<2^32) :
    Reads decodeNumeric (encodeNumeric n) n := by
  cases n with
  | finite =>
    rw [encodeNumeric,List.length_append] at h
    exact (reads_u8 0).bind (reads_string (by omega)).last
  | nan => exact (reads_u8 1).finish (Reads.pure NumericKind.nan)
  | pInf => exact (reads_u8 2).finish (Reads.pure NumericKind.pInf)
  | nInf => exact (reads_u8 3).finish (Reads.pure NumericKind.nInf)

theorem reads_uuid (bytes : Vector UInt8 16) : Reads getUuid bytes.toList bytes := by
  have hneed : Reads (need 16) bytes.toList bytes.toList := by
    have hall := reads_need bytes.toList
    rw [Vector.length_toList] at hall
    exact hall
  refine hneed.finish ?_
  rw [dif_pos (Vector.length_toList)]
  exact Reads.pure _

variable {α : Type} {bytes : List UInt8}

/-- A value is read back under its tag. -/
theorem reads_valued {get : Decoder α} {a : α}
    (h : Reads get bytes a) (f : α → ColumnValue) : Reads (valued get f) bytes (f a) := h.last

/-- So is one with its type. -/
theorem reads_typed {get : Decoder α} {a : α}
    (h : Reads get bytes a) (typeOid : UInt32) (f : UInt32→α → ColumnValue) :
    Reads (typed get f) (putU32 typeOid++bytes) (f typeOid a) := (reads_u32 typeOid).bind h.last

/-- Every column value is read back. -/
theorem reads_value {v : ColumnValue} (h : (encodeValue v).length<2^32) :
    Reads decodeValue (encodeValue v) v := by
  cases v with
  | null => exact (reads_u8 0).finish (Reads.pure ColumnValue.null)
  | bool b => exact (reads_u8 1).bind (reads_valued (reads_bool b) .bool)
  | char i => exact (reads_u8 2).bind (reads_valued (reads_i8 i) .char)
  | int2 i => exact (reads_u8 3).bind (reads_valued (reads_i16 i) .int2)
  | int4 i => exact (reads_u8 4).bind (reads_valued (reads_i32 i) .int4)
  | int8 i => exact (reads_u8 5).bind (reads_valued (reads_i64 i) .int8)
  | float4 bits => exact (reads_u8 6).bind (reads_valued (reads_u32 bits) .float4)
  | float8 bits => exact (reads_u8 7).bind (reads_valued (reads_u64 bits) .float8)
  | oid i => exact (reads_u8 8).bind (reads_valued (reads_u32 i) .oid)
  | date days => exact (reads_u8 9).bind (reads_valued (reads_i32 days) .date)
  | time micros => exact (reads_u8 10).bind (reads_valued (reads_i64 micros) .time)
  | timestamp micros => exact (reads_u8 11).bind (reads_valued (reads_i64 micros) .timestamp)
  | timestampTz micros => exact (reads_u8 12).bind (reads_valued (reads_i64 micros) .timestampTz)
  | timeTz micros tzSeconds =>
    exact (reads_u8 13).bind ((reads_i64 micros).bind (reads_i32 tzSeconds).last)
  | uuid bytes => exact (reads_u8 14).bind (reads_valued (reads_uuid bytes) .uuid)
  | name =>
    rw [encodeValue,List.length_append] at h
    exact (reads_u8 15).bind (reads_valued (reads_string (by omega)) .name)
  | bytea =>
    rw [encodeValue,List.length_append] at h
    exact (reads_u8 16).bind (reads_valued (reads_blob (by omega)) .bytea)
  | text =>
    rw [encodeValue,List.length_append] at h
    exact (reads_u8 17).bind (reads_valued (reads_string (by omega)) .text)
  | externalToast vaRawsize vaExtinfo vaValueid vaToastrelid =>
    exact (reads_u8 18).bind ((reads_i32 vaRawsize).bind ((reads_u32 vaExtinfo).bind
      ((reads_u32 vaValueid).bind (reads_u32 vaToastrelid).last)))
  | unsupported typeOid =>
    rw [encodeValue,List.length_append,List.length_append] at h
    exact (reads_u8 19).bind (reads_typed (reads_blob (by omega)) typeOid .unsupported)
  | numeric =>
    rw [encodeValue,List.length_append] at h
    exact (reads_u8 20).bind (reads_valued (reads_numeric (by omega)) .numeric)
  | inet family bits isCidr =>
    simp only [encodeValue,List.length_append] at h
    exact (reads_u8 21).bind ((reads_u8 family).bind ((reads_u8 bits).bind
      ((reads_bool isCidr).bind (reads_blob (by omega)).last)))
  | interval months days micros =>
    exact (reads_u8 22).bind ((reads_i32 months).bind ((reads_i32 days).bind
      (reads_i64 micros).last))
  | json =>
    rw [encodeValue,List.length_append] at h
    exact (reads_u8 23).bind (reads_valued (reads_string (by omega)) .json)
  | pgPending typeOid =>
    rw [encodeValue,List.length_append,List.length_append] at h
    exact (reads_u8 24).bind (reads_typed (reads_blob (by omega)) typeOid .pgPending)
  | pgPendingText typeOid =>
    rw [encodeValue,List.length_append,List.length_append] at h
    exact (reads_u8 25).bind (reads_typed (reads_string (by omega)) typeOid .pgPendingText)

theorem length_putOption_pos (put : α→List UInt8) (o : Option α) :
    0<(putOption put o).length := by
  cases o with
  | none => simp [putOption]
  | some =>
    rw [putOption,List.length_append,length_putU8]
    omega

/-- Tuples are read back. -/
theorem reads_tuple {t : DecodedTuple} (h : (encodeTuple t).length<2^32) :
    Reads decodeTuple (encodeTuple t) t := by
  rw [encodeTuple,List.length_append] at h
  have hcolumns : Reads (getList (getOption decodeValue)) (putList (putOption encodeValue) t.columns)
      t.columns := by
    refine reads_list (by omega) (length_putOption_pos encodeValue) (fun c _ hc => ?_)
    refine reads_option (fun v hv => reads_value ?_)
    rw [hv,putOption,List.length_append] at hc
    omega
  exact (reads_bool _).bind hcolumns.last

theorem reads_optTuple {t : Option DecodedTuple} (h : (encodeOptTuple t).length<2^32) :
    Reads decodeOptTuple (encodeOptTuple t) t := by
  refine reads_option (fun image himage => reads_tuple ?_)
  rw [himage,encodeOptTuple,putOption,List.length_append] at h
  omega

/-- Operations are read back. -/
theorem reads_op (op : HeapOp) : Reads getOp (putOp op) op := by
  cases op with
  | insert => exact (reads_u8 0).finish (Reads.pure HeapOp.insert)
  | update => exact (reads_u8 1).finish (Reads.pure HeapOp.update)
  | hotUpdate => exact (reads_u8 2).finish (Reads.pure HeapOp.hotUpdate)
  | delete => exact (reads_u8 3).finish (Reads.pure HeapOp.delete)
  | truncate => exact (reads_u8 4).finish (Reads.pure HeapOp.truncate)

/-- A decoded row is read back. -/
theorem reads_heap {h : DecodedHeap} (hlen : (encodeHeap h).length<2^32) :
    Reads decodeHeap (encodeHeap h) h := by
  simp only [encodeHeap,List.length_append] at hlen
  simp only [encodeHeap,List.append_assoc]
  exact (reads_rfn _).bind ((reads_u32 _).bind ((reads_u64 _).bind ((reads_op _).bind
    ((reads_optTuple (by omega)).bind (reads_optTuple (by omega)).last))))

/-- Chunks are read back. -/
theorem reads_chunk {c : ToastChunk} (h : (encodeChunk c).length<2^32) :
    Reads decodeChunk (encodeChunk c) c := by
  simp only [encodeChunk,List.length_append] at h
  exact (reads_u32 _).bind ((reads_u32 _).bind ((reads_u32 _).bind ((reads_u32 _).bind
    ((reads_u64 _).bind ((reads_u32 _).bind ((reads_u16 _).bind (reads_blob (by omega)).last))))))

theorem reads_toastDelete (d : ToastDelete) : Reads decodeToastDelete (encodeToastDelete d) d := by
  exact (reads_u32 _).bind ((reads_u32 _).bind ((reads_u32 _).bind ((reads_u16 _).bind
    (reads_u64 _).last)))

/-- Block references are read back. -/
theorem reads_block {b : RawBlock} (h : (encodeBlock b).length<2^32) :
    Reads decodeBlock (encodeBlock b) b := by
  simp only [encodeBlock,List.length_append] at h
  exact (reads_u8 _).bind ((reads_u8 _).bind ((reads_u16 _).bind ((reads_u16 _).bind
    ((reads_u16 _).bind ((reads_u16 _).bind ((reads_u8 _).bind ((reads_u32 _).bind
    ((reads_u32 _).bind ((reads_u32 _).bind ((reads_u32 _).bind ((reads_blob (by omega)).bind
    (reads_blob (by omega)).last)))))))))))

theorem length_encodeBlock_pos (b : RawBlock) : 0<(encodeBlock b).length := by
  simp only [encodeBlock,List.length_append,length_putU8]
  omega

/-- A stashed record is read back. -/
theorem reads_raw {r : RawRecord} (h : (encodeRaw r).length<2^32) :
    Reads decodeRaw (encodeRaw r) r := by
  simp only [encodeRaw,List.length_append] at h
  have hblocks : Reads (getList decodeBlock) (putList encodeBlock r.blocks) r.blocks :=
    reads_list (by omega) length_encodeBlock_pos (fun b _ hb => reads_block hb)
  exact (reads_u32 _).bind ((reads_u8 _).bind ((reads_u8 _).bind ((reads_u64 _).bind
    ((reads_u16 _).bind ((reads_blob (by omega)).bind hblocks.last)))))

end Walshadow.SpillCodec
