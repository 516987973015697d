import Mathlib

/-!
# Byte encodings read through a cursor

Little-endian words, length-counted strings and lists, and the decoders that read
them back. `Reads d bytes a` says that `d` consumes exactly `bytes` and answers
`a`, whatever follows; it composes along the sequencing of decoders, so a record's
round trip is the chain of its fields' round trips.
-/

namespace Walshadow.ByteCodec

open List

variable {α β : Type}

/-- Position in a file and the bytes still to read. -/
structure Cursor where
  /-- Offset of the next byte. -/
  pos : ℕ
  /-- Bytes from there on. -/
  rest : List UInt8
deriving DecidableEq

/-- Where and why decoding stopped. -/
structure Fault where
  /-- Offset of the cursor. -/
  offset : ℕ
  /-- What was wrong. -/
  detail : String
deriving DecidableEq

/-- Decoders move a cursor or stop with a fault. -/
abbrev Decoder (α : Type) := StateT Cursor (Except Fault) α

/-- Stop at the cursor. -/
def corrupt (detail : String) : Decoder α := fun cur => .error ⟨cur.pos,detail⟩

/-- Take `n` bytes. -/
def need (n : ℕ) : Decoder (List UInt8) := fun cur =>
  if cur.rest.length<n then
    .error ⟨cur.pos,"short read: need "++toString n++", have "++toString cur.rest.length⟩
  else .ok (cur.rest.take n,⟨cur.pos+n,cur.rest.drop n⟩)

/-- The decoder consumes exactly `bytes` and answers `a`. -/
def Reads (d : Decoder α) (bytes : List UInt8) (a : α) : Prop :=
  ∀ pos rest, d ⟨pos,bytes++rest⟩=.ok (a,⟨pos+bytes.length,rest⟩)

/-- Nothing is read for a constant. -/
theorem Reads.pure (a : α) : Reads (Pure.pure a : Decoder α) [] a := fun _ _ => rfl

variable {d get : Decoder α} {f : α→Decoder β} {bytes : List UInt8} {a : α} {put : α→List UInt8}
  {as : List α}

/-- Sequencing consumes one run of bytes after the other. -/
theorem Reads.bind {bytes' : List UInt8} {b : β} (h : Reads d bytes a) (h' : Reads (f a) bytes' b) :
    Reads (d >>= f) (bytes++bytes') b := by
  intro pos rest
  have hfirst := h pos (bytes'++rest)
  have hsecond := h' (pos+bytes.length) rest
  rw [append_assoc]
  change (d ⟨pos,bytes++(bytes'++rest)⟩ >>= fun p => f p.1 p.2)=_
  rw [hfirst]
  change f a ⟨pos+bytes.length,bytes'++rest⟩=_
  rw [hsecond,length_append,add_assoc]

/-- The last field of a record. -/
theorem Reads.finish {b : β} (h : Reads d bytes a) (h' : Reads (f a) [] b) :
    Reads (d >>= f) bytes b := by
  have hbind := h.bind h'
  rw [append_nil] at hbind
  exact hbind

/-- A field read and wrapped. -/
theorem Reads.last {f : α→β} (h : Reads d bytes a) :
    Reads (d >>= fun x => Pure.pure (f x)) bytes (f a) :=
  Reads.finish (f := fun x => Pure.pure (f x)) h (Reads.pure (f a))

/-- As many bytes as asked for. -/
theorem reads_need (bytes : List UInt8) : Reads (need bytes.length) bytes bytes := by
  intro pos rest
  have hlen : ¬ (bytes++rest).length<bytes.length := by
    rw [length_append]
    omega
  rw [need,if_neg hlen,take_left,drop_left]

/-- A decoder that succeeds does the same when more bytes follow. -/
def Extends (d : Decoder α) : Prop :=
  ∀ pos bytes a pos' rest, d ⟨pos,bytes⟩=.ok (a,⟨pos',rest⟩) →
    ∀ more, d ⟨pos,bytes++more⟩=.ok (a,⟨pos',rest++more⟩)

theorem Extends.pure (a : α) : Extends (Pure.pure a : Decoder α) := by
  intro pos bytes b pos' rest h more
  have heq := Except.ok.inj h
  rw [←(Prod.mk.inj heq).1,←(Cursor.mk.inj (Prod.mk.inj heq).2).1,
    ←(Cursor.mk.inj (Prod.mk.inj heq).2).2]
  rfl

/-- Readers in a row extend. -/
theorem Extends.bind (h : Extends d) (hf : ∀ a, Extends (f a)) : Extends (d >>= f) := by
  intro pos bytes b pos' rest hrun more
  change (d ⟨pos,bytes⟩ >>= fun p => f p.1 p.2)=_ at hrun
  change (d ⟨pos,bytes++more⟩ >>= fun p => f p.1 p.2)=_
  cases hd : d ⟨pos,bytes⟩ with
  | error =>
    rw [hd] at hrun
    cases hrun
  | ok found =>
    obtain ⟨a,⟨mid,left⟩⟩ := found
    rw [hd] at hrun
    rw [h pos bytes a mid left hd more]
    exact hf a mid left b pos' rest hrun more

theorem Extends.corrupt (detail : String) : Extends (corrupt detail : Decoder α) :=
  nofun

/-- Bytes asked for are there with more behind. -/
theorem extends_need (n : ℕ) : Extends (need n) := by
  intro pos bytes a pos' rest h more
  unfold need at h ⊢
  dsimp only at h ⊢
  split at h
  · cases h
  · have henough : ¬ (bytes++more).length<n := by
      rw [length_append]
      omega
    have heq := Prod.mk.inj (Except.ok.inj h)
    have hcur := Cursor.mk.inj heq.2
    rw [if_neg henough,take_append_of_le_length (by omega),
      drop_append_of_le_length (by omega),heq.1,hcur.1,hcur.2]

/-- An encoding cut short is never read. -/
theorem Reads.starves (h : Reads d bytes a) (hd : Extends d) {k : ℕ} (hk : k<bytes.length)
    (pos : ℕ) : ∃ fault, d ⟨pos,bytes.take k⟩=.error fault := by
  cases hrun : d ⟨pos,bytes.take k⟩ with
  | error fault => exact ⟨fault,rfl⟩
  | ok found =>
    obtain ⟨b,⟨pos',rest⟩⟩ := found
    have hmore := hd pos _ b pos' rest hrun (bytes.drop k)
    have hfull := h pos []
    rw [append_nil] at hfull
    rw [take_append_drop,hfull] at hmore
    have hrest := (Cursor.mk.inj (Prod.mk.inj (Except.ok.inj hmore)).2).2
    have hdrop : bytes.drop k=[] := (append_eq_nil_iff.mp hrest.symm).2
    have hlen := congrArg length hdrop
    rw [length_drop,length_nil] at hlen
    omega

/-- The low `w` bytes of a number, least significant first. -/
def leBytes : ℕ→ℕ→List UInt8
  | 0,_ => []
  | w+1,v => UInt8.ofNat (v%256)::leBytes w (v/256)

/-- The number little-endian bytes spell. -/
def ofLe : List UInt8→ℕ
  | [] => 0
  | b::bs => b.toNat+256*ofLe bs

/-- A word has its width. -/
@[simp]
theorem length_leBytes (w v : ℕ) : (leBytes w v).length=w := by
  induction w generalizing v with
  | zero => rfl
  | succ _ ih => rw [leBytes,length_cons,ih]

/-- Bytes wide enough for a number spell it. -/
theorem ofLe_leBytes {w v : ℕ} (h : v<256^w) : ofLe (leBytes w v)=v := by
  induction w generalizing v with
  | zero =>
    rw [leBytes,ofLe]
    omega
  | succ w ih =>
    have hdiv : v/256<256^w := by
      exact Nat.div_lt_of_lt_mul (by rw [Nat.mul_comm]; exact h)
    have hbyte : (UInt8.ofNat (v%256)).toNat=v%256 := by
      rw [UInt8.toNat_ofNat']
      omega
    rw [leBytes,ofLe,ih hdiv]
    omega

/-- Bytes hold less than their width allows. -/
theorem ofLe_lt (xs : List UInt8) : ofLe xs<256^xs.length := by
  induction xs with
  | nil => exact Nat.one_pos
  | cons b =>
    have hb := b.toNat_lt
    rw [ofLe,length_cons]
    omega

/-- Every field of `w` bytes is the form of its value. -/
theorem leBytes_ofLe (xs : List UInt8) : leBytes xs.length (ofLe xs)=xs := by
  induction xs with
  | nil => rfl
  | cons b xs ih =>
    have hb := b.toNat_lt
    have hlow : (b.toNat+256*ofLe xs)%256=b.toNat := by omega
    have hhigh : (b.toNat+256*ofLe xs)/256=ofLe xs := by omega
    rw [length_cons,ofLe,leBytes,hlow,hhigh,ih,UInt8.ofNat_toNat]

/-- A little-endian number of `w` bytes. -/
def uintLe (w : ℕ) : Decoder ℕ := do
  let bytes ←need w
  pure (ofLe bytes)

/-- A value that fits its width is read back. -/
theorem reads_uintLe {w v : ℕ} (h : v<256^w) : Reads (uintLe w) (leBytes w v) v := by
  have hneed := reads_need (leBytes w v)
  rw [length_leBytes] at hneed
  have hlast : Reads (uintLe w) (leBytes w v) (ofLe (leBytes w v)) := hneed.last
  rw [ofLe_leBytes h] at hlast
  exact hlast

/-- One byte. -/
def putU8 (v : UInt8) : List UInt8 := leBytes 1 v.toNat

/-- A signed byte. -/
def putI8 (v : Int8) : List UInt8 := leBytes 1 v.toUInt8.toNat

/-- A 16-bit word. -/
def putU16 (v : UInt16) : List UInt8 := leBytes 2 v.toNat

/-- A signed 16-bit word. -/
def putI16 (v : Int16) : List UInt8 := leBytes 2 v.toUInt16.toNat

/-- A 32-bit word. -/
def putU32 (v : UInt32) : List UInt8 := leBytes 4 v.toNat

/-- A signed 32-bit word. -/
def putI32 (v : Int32) : List UInt8 := leBytes 4 v.toUInt32.toNat

/-- A 64-bit word. -/
def putU64 (v : UInt64) : List UInt8 := leBytes 8 v.toNat

/-- A signed 64-bit word. -/
def putI64 (v : Int64) : List UInt8 := leBytes 8 v.toUInt64.toNat

/-- A flag. -/
def putBool (b : Bool) : List UInt8 := putU8 (if b then 1 else 0)

/-- A character truncated to one byte. -/
def putChar (c : Char) : List UInt8 := putU8 (UInt8.ofNat c.toNat)

/-- Read one byte. -/
def getU8 : Decoder UInt8 := do
  let v ←uintLe 1
  pure (UInt8.ofNat v)

/-- Read a signed byte. -/
def getI8 : Decoder Int8 := do
  let v ←uintLe 1
  pure (UInt8.ofNat v).toInt8

/-- Read a 16-bit word. -/
def getU16 : Decoder UInt16 := do
  let v ←uintLe 2
  pure (UInt16.ofNat v)

/-- Read a signed 16-bit word. -/
def getI16 : Decoder Int16 := do
  let v ←uintLe 2
  pure (UInt16.ofNat v).toInt16

/-- Read a 32-bit word. -/
def getU32 : Decoder UInt32 := do
  let v ←uintLe 4
  pure (UInt32.ofNat v)

/-- Read a signed 32-bit word. -/
def getI32 : Decoder Int32 := do
  let v ←uintLe 4
  pure (UInt32.ofNat v).toInt32

/-- Read a 64-bit word. -/
def getU64 : Decoder UInt64 := do
  let v ←uintLe 8
  pure (UInt64.ofNat v)

/-- Read a signed 64-bit word. -/
def getI64 : Decoder Int64 := do
  let v ←uintLe 8
  pure (UInt64.ofNat v).toInt64

/-- Read a flag; any nonzero byte is set. -/
def getBool : Decoder Bool := do
  let v ←getU8
  pure (v != 0)

/-- Read a byte as a character. -/
def getChar : Decoder Char := do
  let v ←getU8
  pure (Char.ofNat v.toNat)

theorem extends_uintLe (w : ℕ) : Extends (uintLe w) :=
  (extends_need w).bind (fun _ => Extends.pure _)

theorem extends_u16 : Extends getU16 := (extends_uintLe 2).bind (fun _ => Extends.pure _)

theorem extends_u32 : Extends getU32 := (extends_uintLe 4).bind (fun _ => Extends.pure _)

theorem reads_u8 (v : UInt8) : Reads getU8 (putU8 v) v := by
  have hbound : v.toNat<256^1 := v.toNat_lt
  have hread : Reads getU8 (putU8 v) (UInt8.ofNat v.toNat) := (reads_uintLe hbound).last
  rw [UInt8.ofNat_toNat] at hread
  exact hread

theorem reads_u16 (v : UInt16) : Reads getU16 (putU16 v) v := by
  have hbound : v.toNat<256^2 := v.toNat_lt
  have hread : Reads getU16 (putU16 v) (UInt16.ofNat v.toNat) := (reads_uintLe hbound).last
  rw [UInt16.ofNat_toNat] at hread
  exact hread

theorem reads_i16 (v : Int16) : Reads getI16 (putI16 v) v := by
  have hbound : v.toUInt16.toNat<256^2 := v.toUInt16.toNat_lt
  have hread : Reads getI16 (putI16 v) (UInt16.ofNat v.toUInt16.toNat).toInt16 :=
    (reads_uintLe hbound).last
  rw [UInt16.ofNat_toNat] at hread
  exact hread

theorem reads_u32 (v : UInt32) : Reads getU32 (putU32 v) v := by
  have hbound : v.toNat<256^4 := v.toNat_lt
  have hread : Reads getU32 (putU32 v) (UInt32.ofNat v.toNat) := (reads_uintLe hbound).last
  rw [UInt32.ofNat_toNat] at hread
  exact hread

theorem reads_i32 (v : Int32) : Reads getI32 (putI32 v) v := by
  have hbound : v.toUInt32.toNat<256^4 := v.toUInt32.toNat_lt
  have hread : Reads getI32 (putI32 v) (UInt32.ofNat v.toUInt32.toNat).toInt32 :=
    (reads_uintLe hbound).last
  rw [UInt32.ofNat_toNat] at hread
  exact hread

theorem reads_u64 (v : UInt64) : Reads getU64 (putU64 v) v := by
  have hbound : v.toNat<256^8 := v.toNat_lt
  have hread : Reads getU64 (putU64 v) (UInt64.ofNat v.toNat) := (reads_uintLe hbound).last
  rw [UInt64.ofNat_toNat] at hread
  exact hread

theorem reads_i8 (v : Int8) : Reads getI8 (putI8 v) v := by
  have hbound : v.toUInt8.toNat<256^1 := v.toUInt8.toNat_lt
  have hread : Reads getI8 (putI8 v) (UInt8.ofNat v.toUInt8.toNat).toInt8 :=
    (reads_uintLe hbound).last
  rw [UInt8.ofNat_toNat] at hread
  exact hread

theorem reads_i64 (v : Int64) : Reads getI64 (putI64 v) v := by
  have hbound : v.toUInt64.toNat<256^8 := v.toUInt64.toNat_lt
  have hread : Reads getI64 (putI64 v) (UInt64.ofNat v.toUInt64.toNat).toInt64 :=
    (reads_uintLe hbound).last
  rw [UInt64.ofNat_toNat] at hread
  exact hread

theorem reads_bool (b : Bool) : Reads getBool (putBool b) b := by
  have hread : Reads getBool (putBool b) ((if b then 1 else 0 : UInt8) != 0) := (reads_u8 _).last
  cases b
  · exact hread
  · exact hread

/-- A code of a byte is read back. -/
theorem reads_char {c : Char} (h : c.toNat<256) : Reads getChar (putChar c) c := by
  have hread : Reads getChar (putChar c) (Char.ofNat (UInt8.ofNat c.toNat).toNat) :=
    (reads_u8 _).last
  have hbyte : (UInt8.ofNat c.toNat).toNat=c.toNat := by
    rw [UInt8.toNat_ofNat']
    omega
  rw [hbyte,Char.ofNat_toNat] at hread
  exact hread

/-- A byte string behind its length. -/
def putBlob (bytes : List UInt8) : List UInt8 := putU32 (UInt32.ofNat bytes.length)++bytes

/-- Read a byte string. -/
def getBlob : Decoder (List UInt8) := do
  let n ←getU32
  need n.toNat

/-- A length below the cap survives its field. -/
theorem toNat_ofNat_length {n : ℕ} (h : n<2^32) : (UInt32.ofNat n).toNat=n := by
  rw [UInt32.toNat_ofNat']
  omega

@[simp]
theorem length_putU8 (v : UInt8) : (putU8 v).length=1 := length_leBytes ..

@[simp]
theorem length_putU16 (v : UInt16) : (putU16 v).length=2 := length_leBytes ..

@[simp]
theorem length_putI16 (v : Int16) : (putI16 v).length=2 := length_leBytes ..

@[simp]
theorem length_putU32 (v : UInt32) : (putU32 v).length=4 := length_leBytes ..

@[simp]
theorem length_putI32 (v : Int32) : (putI32 v).length=4 := length_leBytes ..

@[simp]
theorem length_putU64 (v : UInt64) : (putU64 v).length=8 := length_leBytes ..

@[simp]
theorem length_putBool (b : Bool) : (putBool b).length=1 := length_leBytes ..

@[simp]
theorem length_putChar (c : Char) : (putChar c).length=1 := length_leBytes ..

/-- A byte string whose encoding has a 32-bit length is read back. -/
theorem reads_blob (hlen : (putBlob bytes).length<2^32) :
    Reads getBlob (putBlob bytes) bytes := by
  have h : bytes.length<2^32 := by
    rw [putBlob,length_append] at hlen
    omega
  have hneed : Reads (need (UInt32.ofNat bytes.length).toNat) bytes bytes := by
    rw [toNat_ofNat_length h]
    exact reads_need bytes
  exact (reads_u32 _).bind hneed

/-- UTF-8 bytes of a string. -/
def utf8 (s : String) : List UInt8 := s.toUTF8.data.toList

/-- A string behind its byte length. -/
def putString (s : String) : List UInt8 := putBlob (utf8 s)

/-- The string UTF-8 bytes spell. -/
def ofUtf8 (bytes : List UInt8) : Decoder String :=
  match String.fromUTF8? ⟨bytes.toArray⟩ with
  | some s => pure s
  | none => corrupt "utf8"

/-- Read a string. -/
def getString : Decoder String := do
  let bytes ←getBlob
  ofUtf8 bytes

theorem extends_blob : Extends getBlob := extends_u32.bind (fun n => extends_need n.toNat)

theorem extends_string : Extends getString := by
  refine extends_blob.bind (fun bytes => ?_)
  unfold ofUtf8
  split
  · exact Extends.pure _
  · exact Extends.corrupt _

/-- Text is its own encoding read back. -/
theorem fromUTF8?_utf8 (s : String) : String.fromUTF8? ⟨(utf8 s).toArray⟩=some s := by
  have hbytes : (⟨(utf8 s).toArray⟩ : ByteArray)=s.toUTF8 := by
    rw [utf8]
  have hvalid : s.toUTF8.IsValidUTF8 := s.isValidUTF8
  rw [hbytes,String.fromUTF8?,dif_pos hvalid]
  rfl

/-- Text is read back. -/
theorem reads_string {s : String} (h : (putString s).length<2^32) :
    Reads getString (putString s) s := by
  have htail : Reads (ofUtf8 (utf8 s)) [] s := by
    rw [ofUtf8,fromUTF8?_utf8]
    exact Reads.pure s
  exact Reads.finish (f := ofUtf8) (reads_blob h) htail

/-- An optional value behind a presence byte. -/
def putOption (put : α→List UInt8) : Option α→List UInt8
  | none => putU8 0
  | some a => putU8 1++put a

/-- Read an optional value; any nonzero byte announces one. -/
def getOption (get : Decoder α) : Decoder (Option α) := do
  let tag ←getU8
  if tag=0 then pure none
  else do
    let a ←get
    pure (some a)

/-- An absent value and a present one. -/
theorem reads_option {o : Option α} (h : ∀ a, o=some a→Reads get (put a) a) :
    Reads (getOption get) (putOption put o) o := by
  cases o with
  | none =>
    exact Reads.finish (f := fun tag => if tag=0 then Pure.pure none
      else get >>= fun a => Pure.pure (some a)) (reads_u8 0) (Reads.pure (none : Option α))
  | some a =>
    have hsome : Reads (get >>= fun a => Pure.pure (some a)) (put a) (some a) := (h a rfl).last
    exact Reads.bind (f := fun tag => if tag=0 then Pure.pure none
      else get >>= fun a => Pure.pure (some a)) (reads_u8 1) hsome

/-- Run a decoder `n` times. -/
def repeated (get : Decoder α) : ℕ→Decoder (List α)
  | 0 => pure []
  | n+1 => do
    let a ←get
    let as ←repeated get n
    pure (a::as)

/-- As many values as counted. -/
theorem reads_repeated (h : ∀ a∈as,Reads get (put a) a) :
    Reads (repeated get as.length) (as.flatMap put) as := by
  induction as with
  | nil => exact Reads.pure []
  | cons a as ih =>
    have hrest : Reads (repeated get as.length) (as.flatMap put) as :=
      ih (fun b hb => h b (mem_cons_of_mem _ hb))
    exact (h a (mem_cons_self ..)).bind hrest.last

/-- A list behind its length. -/
def putList (put : α→List UInt8) (as : List α) : List UInt8 :=
  putU32 (UInt32.ofNat as.length)++as.flatMap put

/-- Read a list. -/
def getList (get : Decoder α) : Decoder (List α) := do
  let n ←getU32
  repeated get n.toNat

/-- An element's encoding is part of the list's. -/
theorem length_put_le (ha : a∈as) : (put a).length≤(as.flatMap put).length := by
  induction as with
  | nil => cases ha
  | cons _ _ ih =>
    rw [flatMap_cons,length_append]
    rcases mem_cons.mp ha with heq|hin
    · rw [heq]
      omega
    · have := ih hin
      omega

/-- Elements that take at least a byte bound the length of their list. -/
theorem length_le_flatMap (hpos : ∀ a, 0<(put a).length) (as : List α) :
    as.length≤(as.flatMap put).length := by
  induction as with
  | nil => exact Nat.zero_le _
  | cons a =>
    have := hpos a
    rw [flatMap_cons,length_append,length_cons]
    omega

/-- A list whose encoding has a 32-bit length is read back. -/
theorem reads_list (hlen : (putList put as).length<2^32) (hpos : ∀ a, 0<(put a).length)
    (helem : ∀ a∈as,(put a).length<2^32→Reads get (put a) a) :
    Reads (getList get) (putList put as) as := by
  rw [putList,length_append] at hlen
  have hcount := length_le_flatMap hpos as
  have hbound : as.length<2^32 := by omega
  have h : ∀ a∈as,Reads get (put a) a := by
    intro a ha
    have hle : (put a).length≤(as.flatMap put).length := length_put_le ha
    exact helem a ha (by omega)
  have hbody : Reads (repeated get (UInt32.ofNat as.length).toNat) (as.flatMap put) as := by
    rw [toNat_ofNat_length hbound]
    exact reads_repeated h
  exact (reads_u32 _).bind hbody

end Walshadow.ByteCodec
