import Walshadow.LogFiles
import Walshadow.SpillCodec

/-!
# The spill file of one transaction

Frames behind a short header. A descriptor is written once per filenode and
position, before the first row that refers to it, and rows name it by its place;
the reader rebuilds the table as it goes. Reading gives every row the first
descriptor written under its key, and a file cut short gives the entries that are
complete in it. Buffered chunk reads and writes move the same bytes and are left
out.
-/

namespace Walshadow.SpillFile

open Records ByteCodec LogCodec LogFiles SpillCodec

/-- Log identity of a descriptor. -/
abbrev DictKey := RelFileNode×Lsn

/-- Key a row's descriptor is filed under. -/
def heapKey (h : DescribedHeap) : DictKey := (h.descriptor.rfn,h.descriptorValidFrom)

/-- Keys in first-use order; the id of a key is its place. -/
abbrev WriterDict := List DictKey

/-- One tagged frame. -/
structure Frame where
  tag : UInt8
  body : List UInt8
deriving DecidableEq

/-- Bytes of a frame: its tag, its 32-bit length, its body. -/
def frameInto (f : Frame) : List UInt8 :=
  putU8 f.tag++(putU32 (UInt32.ofNat f.body.length)++f.body)

/-- Id of a key and the dictionary that has it. -/
def internKey (dict : WriterDict) (key : DictKey) : UInt32×WriterDict :=
  match dict.findIdx? (fun k => decide (k=key)) with
  | some i => (UInt32.ofNat i,dict)
  | none => (UInt32.ofNat dict.length,dict++[key])

/-- Frame that defines a descriptor. -/
def descriptorFrame (h : DescribedHeap) : Frame :=
  ⟨4,putU64 h.descriptorValidFrom++encodeDescriptor h.descriptor⟩

/-- Frame of a row that refers to descriptor `id`. -/
def heapFrame (id : UInt32) (h : DescribedHeap) : Frame := ⟨0,putU32 id++encodeHeap h.decoded⟩

/-- Frames of one entry; a row whose id is new defines its descriptor first. -/
def encode (dict : WriterDict) : SpillEntry→List Frame×WriterDict
  | .heap h =>
    let nextId := UInt32.ofNat dict.length
    let interned := internKey dict (heapKey h)
    ((if interned.1=nextId then [descriptorFrame h] else [])++[heapFrame interned.1 h],interned.2)
  | .chunk c => ([⟨1,encodeChunk c⟩],dict)
  | .toastDelete d => ([⟨2,encodeToastDelete d⟩],dict)
  | .raw r => ([⟨3,encodeRaw r⟩],dict)

/-- Bytes of one entry. -/
def entryBytes (dict : WriterDict) (e : SpillEntry) : List UInt8 :=
  (encode dict e).1.flatMap frameInto

/-- Append entries to a file. -/
def writeBatch (dict : WriterDict) : List SpillEntry→List UInt8×WriterDict
  | [] => ([],dict)
  | e::es =>
    let rest := writeBatch (encode dict e).2 es
    (entryBytes dict e++rest.1,rest.2)

/-- First bytes of a spill file. -/
def spillMagic : List UInt8 := [87,83]

/-- Format written. -/
def spillVersion : UInt16 := 7

/-- File header. -/
def spillHeader : List UInt8 := spillMagic++putU16 spillVersion

/-- File holding the entries. -/
def spillFile (entries : List SpillEntry) : List UInt8 := spillHeader++(writeBatch [] entries).1

/-- Descriptors in the order they were defined. -/
abbrev ReaderDict := List (RelDescriptor×Lsn)

/-- Place in a file and the descriptors met so far. -/
structure SpillReader where
  rest : List UInt8
  dict : ReaderDict
deriving DecidableEq

/-- What one frame holds. -/
inductive Decoded where
  | entry (e : SpillEntry)
  | descriptor (d : RelDescriptor) (validFrom : Lsn)
deriving DecidableEq

/-- Run a decoder on a frame body. -/
def running {α : Type} (d : Decoder α) (body : List UInt8) : Except SpillError (α×Cursor) :=
  match d ⟨0,body⟩ with
  | .ok found => .ok found
  | .error fault => .error (.format fault.offset fault.detail)

/-- Body of a row frame. -/
def getHeap : Decoder (UInt32×DecodedHeap) := do
  let dictId ←getU32
  let h ←decodeHeap
  pure (dictId,h)

/-- Decode a row and attach its descriptor. -/
def decodeHeapBody (dict : ReaderDict) (body : List UInt8) : Except SpillError Decoded :=
  match running getHeap body with
  | .error e => .error e
  | .ok ((dictId,h),cur) =>
    match dict[dictId.toNat]? with
    | some (d,validFrom) => .ok (.entry (.heap ⟨h,d,validFrom⟩))
    | none => .error (.format cur.pos ("heap references dict id "++toString dictId++", only "++
        toString dict.length++" defined"))

/-- Decode a descriptor, which must fill its frame. -/
def decodeDescriptorBody (body : List UInt8) : Except SpillError Decoded :=
  match running getU64 body with
  | .error e => .error e
  | .ok (validFrom,cur) =>
    match decodeDescriptor version ⟨0,cur.rest⟩ with
    | .error fault => .error (.format cur.pos
        ("descriptor log corrupt at spill:"++toString fault.offset++": "++fault.detail))
    | .ok (d,used) =>
      if cur.pos+used.pos≠body.length then
        .error (.format (cur.pos+used.pos) "descriptor body length mismatch")
      else .ok (.descriptor d validFrom)

/-- Decode a body that is one entry by itself. -/
def decodeWhole {α : Type} (d : Decoder α) (f : α→SpillEntry) (body : List UInt8) :
    Except SpillError Decoded :=
  match running d body with
  | .error e => .error e
  | .ok (a,_) => .ok (.entry (f a))

/-- Decode one frame. -/
def decodeFrame (dict : ReaderDict) (f : Frame) : Except SpillError Decoded :=
  match f.tag.toNat with
  | 0 => decodeHeapBody dict f.body
  | 1 => decodeWhole decodeChunk .chunk f.body
  | 2 => decodeWhole decodeToastDelete .toastDelete f.body
  | 3 => decodeWhole decodeRaw .raw f.body
  | 4 => decodeDescriptorBody f.body
  | _ => .error (.format 0 ("unknown entry tag "++toString f.tag))

/-- Next entry, or nothing at a clean end. Definitions fold into the table; every
frame takes five bytes or more, so the bytes left bound the loop. -/
def next : ℕ→SpillReader→Except SpillError (Option (SpillEntry×SpillReader))
  | 0,_ => .ok none
  | fuel+1,r =>
    if r.rest.length<5 then
      if r.rest.isEmpty then .ok none else .error .unexpectedEof
    else
      let len := ofLe ((r.rest.drop 1).take 4)
      if r.rest.length<5+len then .error .unexpectedEof
      else
        match decodeFrame r.dict ⟨r.rest.headD 0,(r.rest.drop 5).take len⟩ with
        | .error e => .error e
        | .ok (.entry e) => .ok (some (e,⟨r.rest.drop (5+len),r.dict⟩))
        | .ok (.descriptor d validFrom) => next fuel ⟨r.rest.drop (5+len),r.dict++[(d,validFrom)]⟩

/-- Entries up to the end of the file or its first error. -/
def readEntries : ℕ→SpillReader→List SpillEntry×Option SpillError
  | 0,_ => ([],none)
  | fuel+1,r =>
    match next r.rest.length r with
    | .error e => ([],some e)
    | .ok none => ([],none)
    | .ok (some (e,r')) =>
      let more := readEntries fuel r'
      (e::more.1,more.2)

/-- Bytes as a list of two-digit numbers. -/
def hexList (bytes : List UInt8) : String :=
  "["++String.intercalate ", " (bytes.map (fun b => hexFixed 2 b.toNat))++"]"

/-- Check the header and start reading behind it. -/
def openReader (bytes : List UInt8) : Except SpillError SpillReader :=
  if bytes.length<4 then .error .unexpectedEof
  else if bytes.take 2≠spillMagic then
    .error (.format 0 ("bad magic "++hexList (bytes.take 2)++", expected "++hexList spillMagic))
  else if ofLe ((bytes.drop 2).take 2)≠spillVersion.toNat then
    .error (.format 2 ("unsupported version "++toString (ofLe ((bytes.drop 2).take 2))++
      ", expected "++toString spillVersion))
  else .ok ⟨bytes.drop 4,[]⟩

/-- Read a file to its end or its first error. -/
def readFile (bytes : List UInt8) : List SpillEntry×Option SpillError :=
  match openReader bytes with
  | .error e => ([],some e)
  | .ok r => readEntries (r.rest.length+1) r

end Walshadow.SpillFile
