import Walshadow.SpillRoundTrip
import Walshadow.SpoolCodec

/-!
# Replay of the deferred spool over crashes

A session pushes records, takes durable marks and is cut by crashes, after which the spool
is reopened at one of the marks whatever bytes follow it in the file. Replay then gives
the records pushed before that mark and those pushed since, and a replay resumed at a
saved offset gives the records after it.
-/

namespace Walshadow.SpoolReplay

open List

open Records ByteCodec LogCodec SpillCodec SpillFile SpillRoundTrip SpoolCodec
open SpoolFile (SpoolMark)

/-- The encoded body has a 32-bit length. -/
def Fits (t : SpoolTuple) : Prop := (encodeRecord t).length<2^32

/-- Bytes of framed records. -/
def framed (ts : List SpoolTuple) : List UInt8 := ts.flatMap append

@[simp]
theorem framed_nil : framed []=[] := rfl

theorem framed_cons (t : SpoolTuple) (ts : List SpoolTuple) :
    framed (t::ts)=append t++framed ts := flatMap_cons ..

theorem framed_append (ts us : List SpoolTuple) : framed (ts++us)=framed ts++framed us :=
  flatMap_append

variable {t : SpoolTuple} {ts contents : List SpoolTuple} {rest bytes : List UInt8} {remaining : ℕ}
  {r : DeferredReader} {d : Disk} {marks : List (SpoolMark×List SpoolTuple)}
  {spool : DeferredSpool}

theorem bodyLen_fits (h : Fits t) : bodyLen t=(encodeRecord t).length :=
  toNat_ofNat_length h

theorem length_append_fits (h : Fits t) : (append t).length=4+bodyLen t := by
  rw [append,length_append,length_putU32,bodyLen_fits h]

/-- The bytes counted for records are those written for them. -/
theorem length_framed (h : ∀ t∈ts,Fits t) :
    (framed ts).length=(ts.map (fun t => 4+bodyLen t)).sum := by
  induction ts with
  | nil => rfl
  | cons t _ ih =>
    have hrest := ih (fun u hu => h u (mem_cons_of_mem t hu))
    rw [framed_cons,length_append,map_cons,sum_cons,hrest,length_append_fits (h t mem_cons_self)]

theorem four_le_append (t : SpoolTuple) : 4≤(append t).length := by
  rw [append,length_append,length_putU32]
  omega

/-- Records take bytes. -/
theorem framed_eq_nil (h : (framed ts).length=0) : ts=[] := by
  cases ts with
  | nil => rfl
  | cons t =>
    have hfour := four_le_append t
    rw [framed_cons,length_append] at h
    omega

theorem length_le_framed (ts : List SpoolTuple) : ts.length≤(framed ts).length := by
  induction ts with
  | nil => exact Nat.zero_le _
  | cons t =>
    have hfour := four_le_append t
    rw [framed_cons,length_append,length_cons]
    omega

/-- A record is read back. -/
theorem reads_record (h : Fits t) : Reads decodeRecord (encodeRecord t) t := by
  have hlen : (putList (putOption encodeValue) t.payload.columns).length<2^32 := by
    have hbody : (encodeRecord t).length<2^32 := h
    simp only [encodeRecord,length_append] at hbody
    omega
  have hcolumns : Reads (getList (getOption decodeValue))
      (putList (putOption encodeValue) t.payload.columns) t.payload.columns := by
    refine reads_list hlen (length_putOption_pos encodeValue) (fun col _ hcol => ?_)
    refine reads_option (fun v hv => reads_value ?_)
    rw [hv,putOption,length_append] at hcol
    omega
  exact (reads_rfn _).bind ((reads_u32 _).bind ((reads_u32 _).bind ((reads_u16 _).bind
    ((reads_u64 _).bind ((reads_u32 _).bind ((reads_u16 _).bind hcolumns.last))))))

/-- A frame that lies within the limit is read whole, under the length written in front of
it. -/
theorem readFrame_len {len : UInt32} {body : List UInt8} (hbody : body.length=len.toNat)
    (hremaining : 4+len.toNat ≤ remaining) :
    readFrame (putU32 len++(body++rest)) remaining=some (body,rest) := by
  have htake : (putU32 len++(body++rest)).take 4=putU32 len := take_left' (length_putU32 len)
  have hdrop : (putU32 len++(body++rest)).drop 4=body++rest := drop_left' (length_putU32 len)
  have hlen : ofLe (putU32 len)=len.toNat := ofLe_leBytes len.toNat_lt
  have htotal : (putU32 len++(body++rest)).length=4+(len.toNat+rest.length) := by
    rw [length_append,length_append,length_putU32,hbody]
  unfold readFrame
  rw [if_neg (by omega)]
  rw [htake,hlen,if_neg (by omega),←drop_drop,hdrop,←hbody,take_left,drop_left]

theorem readFrame_append (h : Fits t) (rest : List UInt8)
    (hremaining : (append t).length ≤ remaining) :
    readFrame (append t++rest) remaining=some (encodeRecord t,rest) := by
  have hlen := bodyLen_fits h
  rw [length_append_fits h] at hremaining
  exact readFrame_len hlen.symm hremaining

/-- What is read was there. -/
theorem readFrame_length {body rest' : List UInt8}
    (h : readFrame rest remaining=some (body,rest')) :
    rest.length=4+body.length+rest'.length := by
  unfold readFrame at h
  dsimp only at h
  split at h
  · cases h
  · split at h
    · cases h
    · obtain ⟨rfl,rfl⟩ := Prod.mk.inj (Option.some.inj h)
      rw [length_take,length_drop,length_drop]
      omega

/-- A frame past the limit is not read. -/
theorem readFrame_short (h : Fits t) (rest : List UInt8) (hshort : remaining<(append t).length) :
    readFrame (append t++rest) remaining=none := by
  have htake : (append t++rest).take 4=putU32 (UInt32.ofNat (encodeRecord t).length) := by
    rw [append,append_assoc]
    exact take_left' (length_putU32 _)
  have hlen : ofLe (putU32 (UInt32.ofNat (encodeRecord t).length))=bodyLen t :=
    ofLe_leBytes (UInt32.toNat_lt _)
  rw [length_append_fits h] at hshort
  unfold readFrame
  dsimp only
  rw [htake,hlen,if_pos (.inl hshort : remaining<4+bodyLen t ∨ _),ite_self]

/-- Sizes the spool counts its records with. -/
def recordSize (c : Config) : SpoolFile.RecordSize SpoolTuple := ⟨bodyLen,approxBytes c,c.memMax⟩

/-- The scan of a file of whole records, with nothing readable behind them, counts what
the scan of the records counts. -/
theorem scanFrames_records (c : Config) (h : ∀ t∈ts,Fits t) (junk : List UInt8)
    {fuel limit offset records : ℕ} (hjunk : readFrame junk (limit-(framed ts).length)=none)
    (hfuel : ts.length<fuel) :
    scanFrames fuel (framed ts++junk) (offset+limit) offset records =
      (offset+(SpoolFile.scanRecords (recordSize c) ts limit).1,
        records+(SpoolFile.scanRecords (recordSize c) ts limit).2) := by
  induction ts generalizing fuel limit offset records with
  | nil =>
    cases fuel with
    | zero => exact absurd hfuel (Nat.not_lt_zero _)
    | succ =>
      rw [framed_nil,length_nil,Nat.sub_zero] at hjunk
      rw [framed_nil,nil_append,scanFrames,Nat.add_sub_cancel_left,hjunk]
      rfl
  | cons t ts ih =>
    cases fuel with
    | zero => exact absurd hfuel (Nat.not_lt_zero _)
    | succ =>
      have ht := h t mem_cons_self
      have hbytes := length_append_fits ht
      rw [framed_cons,length_append,hbytes,Nat.sub_add_eq] at hjunk
      rw [framed_cons,append_assoc,scanFrames,Nat.add_sub_cancel_left,SpoolFile.scanRecords]
      by_cases hle : 4+bodyLen t≤limit
      · have hlimit : offset+limit=offset+(4+bodyLen t)+(limit-(4+bodyLen t)) := by omega
        rw [readFrame_append ht _ (hbytes ▸ hle),if_pos (by exact hle)]
        dsimp only
        rw [←bodyLen_fits ht,hlimit,ih (fun u hu => h u (mem_cons_of_mem t hu)) hjunk
          (Nat.lt_of_succ_lt_succ hfuel),add_assoc,add_assoc records,add_comm 1]
        rfl
      · rw [readFrame_short ht _ (hbytes ▸ Nat.lt_of_not_le hle),if_neg (by exact hle)]
        rfl

/-- A scan never passes the end of the file. -/
theorem scanFrames_le (fuel : ℕ) (rest : List UInt8) (limit offset records : ℕ) :
    (scanFrames fuel rest limit offset records).1≤offset+rest.length := by
  induction fuel generalizing rest offset records with
  | zero => exact Nat.le_add_right _ _
  | succ _ ih =>
    unfold scanFrames
    cases hframe : readFrame rest (limit-offset) with
    | none => exact Nat.le_add_right _ _
    | some found =>
      obtain ⟨body,rest'⟩ := found
      have hlen := readFrame_length hframe
      have hle := ih rest' (offset+(4+body.length)) (records+1)
      dsimp only
      omega

/-- A file with the header opens behind it. -/
theorem openValidated_header (bytes : List UInt8) (offset : ℕ) :
    openValidated (some (spoolHeader++bytes)) offset=.ok (bytes.drop offset) := by
  have hlen : spoolHeader.length=4 := rfl
  have hmagic : (spoolHeader++bytes).take 2=spoolMagic := rfl
  have hversion : ofLe (((spoolHeader++bytes).drop 2).take 2)=spoolVersion.toNat := rfl
  unfold openValidated
  dsimp only
  rw [if_neg (by rw [length_append]; omega),hmagic,if_neg (fun hne => hne rfl),hversion,
    if_neg (fun hne => hne rfl),←drop_drop]
  rfl

/-- A header is read from at least four bytes. -/
theorem openValidated_length (h : openValidated (some bytes) 0=.ok rest) :
    bytes.length=4+rest.length := by
  unfold openValidated at h
  dsimp only at h
  split at h
  · cases h
  · split at h
    · cases h
    · split at h
      · cases h
      · obtain rfl := Except.ok.inj h
        rw [length_drop]
        omega

/-- A replay with just these records ahead. -/
inductive Holds : List SpoolTuple→DeferredReader→Prop
  | mem (ts : List SpoolTuple) : Holds ts (.mem ts)
  /-- In the file, whatever follows them. -/
  | file (ts : List SpoolTuple) (junk : List UInt8) :
    Holds ts (.file (framed ts++junk) (framed ts).length)

theorem next_nil (h : Holds [] r) : r.next=.ok none := by
  cases h with
  | mem | file => rfl

/-- The next record of a file. -/
theorem next_file (ht : Fits t) (ts : List SpoolTuple) (junk : List UInt8) :
    (DeferredReader.file (framed (t::ts)++junk) (framed (t::ts)).length).next =
      .ok (some (t,.file (framed ts++junk) (framed ts).length)) := by
  have hbytes := length_append_fits ht
  rw [bodyLen_fits ht] at hbytes
  have htotal : (framed (t::ts)).length=(append t).length+(framed ts).length := by
    rw [framed_cons,length_append]
  have hframe : readFrame (framed (t::ts)++junk) (framed (t::ts)).length =
      some (encodeRecord t,framed ts++junk) := by
    rw [framed_cons,append_assoc]
    exact readFrame_append ht _ (by rw [length_append]; omega)
  have hleft : (framed (t::ts)).length-(4+(encodeRecord t).length)=(framed ts).length := by omega
  unfold DeferredReader.next
  dsimp only
  rw [if_neg (by omega),hframe]
  dsimp only
  rw [running_reads (reads_record ht)]
  rw [hleft]

theorem next_cons (h : Holds (t::ts) r) (ht : Fits t) :
    ∃ r', r.next=.ok (some (t,r')) ∧ Holds ts r' := by
  cases h with
  | mem => exact ⟨.mem ts,rfl,.mem ts⟩
  | file junk => exact ⟨_,next_file ht ts junk,.file ts junk⟩

/-- Replay gives the records ahead. -/
theorem drain_holds (h : Holds ts r) (hfits : ∀ t∈ts,Fits t) {bound : ℕ}
    (hbound : ts.length<bound) : r.drain bound=some (.ok ts) := by
  induction ts generalizing r bound with
  | nil =>
    cases bound with
    | zero => exact absurd hbound (Nat.not_lt_zero _)
    | succ => rw [DeferredReader.drain,next_nil h]
  | cons t _ ih =>
    cases bound with
    | zero => exact absurd hbound (Nat.not_lt_zero _)
    | succ =>
      obtain ⟨_,hnext,hrest⟩ := next_cons h (hfits t mem_cons_self)
      have htail := ih hrest (fun u hu => hfits u (mem_cons_of_mem t hu))
        (Nat.lt_of_succ_lt_succ hbound)
      rw [DeferredReader.drain,hnext]
      dsimp only
      rw [htail]

/-- Reading some records of a file leaves the others. -/
theorem skip_file (hfits : ∀ t∈ts,Fits t) (junk : List UInt8) (n : ℕ) :
    (DeferredReader.file (framed ts++junk) (framed ts).length).skip n =
      .ok (.file (framed (ts.drop n)++junk) (framed (ts.drop n)).length) := by
  induction n generalizing ts with
  | zero => rw [DeferredReader.skip,drop_zero]
  | succ _ ih =>
    cases ts with
    | nil =>
      rw [DeferredReader.skip,next_nil (.file [] junk),drop_nil]
    | cons t =>
      rw [DeferredReader.skip,next_file (hfits t mem_cons_self)]
      exact ih (fun u hu => hfits u (mem_cons_of_mem t hu))

variable (c : Config)

/-- A spool and the file at its path hold what a spool of records does. -/
inductive Refines (c : Config) : SpoolFile.DeferredSpool SpoolTuple→DeferredSpool→Disk→Prop
  | mem (ts : List SpoolTuple) :
    Refines c (.mem ts) ⟨.mem ts (ts.map (approxBytes c)).sum,ts.length,0⟩ none
  | file (ts : List SpoolTuple) (synced : ℕ) : Refines c (.file ts synced)
      ⟨.file,ts.length,(framed ts).length⟩ (some (spoolHeader++framed ts))

/-- Reopening a file of whole records answers what reopening the records does. -/
theorem Refines.reopenAt {m : SpoolMark} (hfits : ∀ t∈ts,Fits t) (junk : List UInt8)
    (hjunk : readFrame junk (m.bytes-(framed ts).length)=none) :
    (∀ a, SpoolFile.reopenAt (recordSize c) (some ts) m=some a →
      ∃ s d, reopenAt c (some (spoolHeader++framed ts++junk)) m=.ok (s,d) ∧ Refines c a s d) ∧
    (SpoolFile.reopenAt (recordSize c) (some ts) m=none →
      ∃ e, SpoolCodec.reopenAt c (some (spoolHeader++framed ts++junk)) m=.error e) := by
  have hopen : openValidated (some (spoolHeader++framed ts++junk)) 0=.ok (framed ts++junk) :=
    openValidated_header _ 0
  have hcount := length_le_framed ts
  have hscan := @scanFrames_records ts c hfits junk _ _ 4 0 hjunk
    (by rw [length_append]; omega : ts.length<(framed ts++junk).length+1)
  unfold SpoolFile.reopenAt SpoolCodec.reopenAt
  by_cases hempty : m=.empty
  · rw [if_pos hempty,hempty]
    refine ⟨fun a ha => ?_,nofun⟩
    cases ha
    exact ⟨_,_,rfl,.mem []⟩
  · have hsome : ¬(m.bytes=0 ∧ m.records=0) :=
      fun hzero => hempty (by cases m; cases hzero.1; cases hzero.2; rfl)
    rw [if_neg hempty,if_neg hsome,scanRecords,hopen]
    dsimp only
    rw [hscan]
    obtain ⟨hle,hbytes⟩ := SpoolFile.scanRecords_spec (recordSize c) ts m.bytes
    by_cases hsame : SpoolFile.scanRecords (recordSize c) ts m.bytes=(m.bytes,m.records)
    · rw [hsame] at hle hbytes ⊢
      rw [if_pos rfl,if_neg (by simp)]
      refine ⟨fun a ha => ?_,nofun⟩
      cases ha
      have hlen : m.bytes=(framed (ts.take m.records)).length :=
        hbytes.trans (length_framed fun t ht => hfits t (mem_of_mem_take ht)).symm
      have hcut : (spoolHeader++framed ts++junk).take (4+m.bytes) =
          spoolHeader++framed (ts.take m.records) := by
        conv_lhs => rw [←take_append_drop m.records ts,framed_append,←append_assoc,append_assoc]
        exact take_left' (by rw [length_append,hlen]; rfl)
      have hrecords : m.records=(ts.take m.records).length := by
        rw [length_take,min_eq_left hle]
      refine ⟨_,_,rfl,?_⟩
      have hfile := Refines.file (c := c) (ts.take m.records) m.records
      rw [←hrecords,←hlen] at hfile
      rw [Option.map_some,hcut]
      exact hfile
    · rw [if_neg hsame,if_pos]
      · exact ⟨nofun,fun _ => ⟨_,rfl⟩⟩
      · intro heq
        obtain ⟨h1,h2⟩ := Prod.mk.inj heq
        exact hsame (Prod.ext (by omega) (by omega))

/-- A file reopened at a mark of its first records keeps just these. -/
theorem reopenAt_framed (hfits : ∀ t∈ts,Fits t) (hne : ts≠[]) (junk : List UInt8) :
    reopenAt c (some (spoolHeader++framed ts++junk)) ⟨ts.length,(framed ts).length⟩ =
      .ok (⟨.file,ts.length,(framed ts).length⟩,some (spoolHeader++framed ts)) := by
  have hscan := SpoolFile.scanRecords_take (recordSize c) ts ts.length le_rfl
  have hframed : (framed ts).length=SpoolFile.spooledBytes (recordSize c) ts := length_framed hfits
  rw [take_length,←hframed] at hscan
  have hsome : (⟨ts.length,(framed ts).length⟩ : SpoolMark)≠.empty :=
    fun hzero => hne (length_eq_zero_iff.mp (congrArg SpoolMark.records hzero))
  have hjunk : readFrame junk ((framed ts).length-(framed ts).length)=none := by
    rw [Nat.sub_self]
    rfl
  have hrecords : SpoolFile.reopenAt (recordSize c) (some ts) ⟨ts.length,(framed ts).length⟩ =
      some (.file ts ts.length) := by
    unfold SpoolFile.reopenAt
    dsimp only
    rw [if_neg hsome,if_pos hscan,take_length]
  obtain ⟨_,_,hok,hrefines⟩ := (Refines.reopenAt c hfits junk hjunk).1 _ hrecords
  cases hrefines
  exact hok

/-- A file shorter than the mark is refused. -/
theorem reopenAt_short {m : SpoolMark} (hm : m.bytes≠0)
    (hshort : ∀ bytes, d=some bytes→bytes.length<4+m.bytes) :
    ∃ e, reopenAt c d m=.error e := by
  unfold reopenAt
  rw [if_neg (fun hzero => hm hzero.1),scanRecords]
  cases d with
  | none => exact ⟨_,rfl⟩
  | some bytes =>
    have hlen := hshort bytes rfl
    cases hopen : openValidated (some bytes) 0 with
    | error e => exact ⟨e,rfl⟩
    | ok rest =>
      have hbytes := openValidated_length hopen
      have hle := scanFrames_le (rest.length+1) rest (4+m.bytes) 4 0
      have hdiff : scanFrames (rest.length+1) rest (4+m.bytes) 4 0≠(4+m.bytes,m.records) := by
        intro heq
        rw [heq] at hle
        omega
      dsimp only
      rw [if_pos hdiff]
      exact ⟨_,rfl⟩

/-- A sealed file resumed at a boundary has the later records ahead. -/
theorem resume_framed {us : List SpoolTuple} :
    ∃ resumed, resume (some (spoolHeader++framed (ts++us)))
        ⟨(ts++us).length,(framed (ts++us)).length⟩ (framed ts).length=.ok resumed ∧
      resumed.intoReader (some (spoolHeader++framed (ts++us))) =
        .ok (.file (framed us++[]) (framed us).length) := by
  have hlen : (spoolHeader++framed (ts++us)).length=4+(framed (ts++us)).length :=
    length_append
  have hsum : (framed (ts++us)).length=(framed ts).length+(framed us).length := by
    rw [framed_append,length_append]
  refine ⟨⟨(ts++us).length,(framed (ts++us)).length,(framed ts).length⟩,?_,?_⟩
  · unfold resume
    dsimp only
    rw [if_neg (by omega),openValidated_header]
  · unfold ResumedSpool.intoReader
    dsimp only
    rw [openValidated_header,framed_append,drop_left,length_append,Nat.add_sub_cancel_left,
      append_nil]

/-- A spool in use: what is open, what is at its path, and what it owes. -/
structure Session where
  spool : DeferredSpool
  /-- File at its path. -/
  disk : Disk
  /-- Records pushed and not given up by a reopening. -/
  contents : List SpoolTuple
  /-- Durable marks, newest first, each with the records pushed before it. -/
  marks : List (SpoolMark×List SpoolTuple)

/-- A spool before its first record. -/
def Session.start : Session := ⟨.new,none,[],[]⟩

/-- What happens to a spool. -/
inductive Event where
  | push (t : SpoolTuple)
  /-- A mark is taken and made durable. -/
  | checkpoint
  /-- A crash leaves the file with other bytes after a mark, counted back from the newest,
  and the spool is reopened there. -/
  | crash (back : ℕ) (left : Disk)

/-- Mark a restart has, counted back from the newest; it is empty where none was saved. -/
def Session.savedMark (s : Session) (back : ℕ) : SpoolMark×List SpoolTuple :=
  s.marks[back]?.getD (.empty,[])

/-- File a crash leaves: durable up to the mark and anything behind it. Under an empty mark
nothing in it is durable. -/
def crashed (d : Disk) (m : SpoolMark) (left : Disk) : Disk :=
  if m=.empty then left
  else d.map (fun bytes => bytes.take (4+m.bytes)++left.getD [])

/-- One event. -/
def Session.step (c : Config) (s : Session) : Event→Except SpoolError Session
  | .push t =>
    match s.spool.push c s.disk t with
    | .error e => .error e
    | .ok (spool,disk) => .ok ⟨spool,disk,s.contents++[t],s.marks⟩
  | .checkpoint =>
    match s.spool.checkpoint s.disk with
    | .error e => .error e
    | .ok (spool,disk,m) => .ok ⟨spool,disk,s.contents,(m,s.contents)::s.marks⟩
  | .crash back left =>
    let saved := s.savedMark back
    match reopenAt c (crashed s.disk saved.1 left) saved.1 with
    | .error e => .error e
    | .ok (spool,disk) => .ok ⟨spool,disk,saved.2,s.marks.drop back⟩

/-- A run of events. -/
def Session.run (c : Config) (s : Session) : List Event→Except SpoolError Session
  | [] => .ok s
  | e::es =>
    match s.step c e with
    | .error err => .error err
    | .ok s' => s'.run c es

/-- Everything a replay of the spool gives. -/
def Session.replay (s : Session) : Option (Except SpoolError (List SpoolTuple)) :=
  match s.spool.intoReader s.disk with
  | .error e => some (.error e)
  | .ok r => r.drain (s.spool.records+1)

/-- What holds between events. -/
structure Kept (c : Config) (s : Session) : Prop where
  /-- Every record has a 32-bit length. -/
  fits : ∀ t∈s.contents,Fits t
  /-- The spool is one of the records, which has forced out what a mark counts. -/
  refines : ∃ a, Refines c a s.spool s.disk ∧ a.contents=s.contents ∧
    ∀ saved∈s.marks,saved.2.length≤a.synced
  /-- A mark counts the records pushed before it, which are still there. -/
  marks : ∀ saved∈s.marks,saved.1=⟨saved.2.length,(framed saved.2).length⟩ ∧
    saved.2 <+: s.contents
  /-- Older marks count fewer records. -/
  order : s.marks.Pairwise (fun newer older => older.2 <+: newer.2)

theorem Kept.start (c : Config) : Kept c .start where
  fits := nofun
  refines := ⟨_,.mem [],rfl,nofun⟩
  marks := nofun
  order := .nil

variable {c}

section

variable {a : SpoolFile.DeferredSpool SpoolTuple} (hfits : ∀ u∈a.contents,Fits u)

include hfits

theorem mark_framed :
    (a.checkpoint (recordSize c)).2=⟨a.contents.length,(framed a.contents).length⟩ := by
  rw [SpoolFile.mark_checkpoint,length_framed hfits]
  rfl

variable (h : Refines c a spool d)

include h

/-- Moving to the file writes the records kept in memory. -/
theorem Refines.file_eq (records : ℕ) :
    DeferredSpool.file {spool with records := records} d =
      .ok (⟨.file,records,(framed a.contents).length⟩,some (spoolHeader++framed a.contents)) := by
  cases h with
  | mem =>
    unfold DeferredSpool.file
    dsimp only
    rw [zero_add,length_framed hfits]
    rfl
  | file => rfl

/-- Appending a record to the file. -/
theorem Refines.spill_eq (ht : Fits t) :
    DeferredSpool.spill {spool with records := a.contents.length+1} d t =
      .ok (⟨.file,(a.contents++[t]).length,(framed (a.contents++[t])).length⟩,
        some (spoolHeader++framed (a.contents++[t]))) := by
  have hframed : framed (a.contents++[t])=framed a.contents++append t := by
    rw [framed_append,framed_cons,framed_nil,append_nil]
  unfold DeferredSpool.spill
  rw [h.file_eq hfits]
  dsimp only
  rw [landed,Option.map_some,hframed,length_append,length_append,length_append_fits ht,
    append_assoc]
  rfl

/-- A push into the file's spool is one into the spool of records. -/
theorem Refines.push (ht : Fits t) :
    ∃ s' d', spool.push c d t=.ok (s',d') ∧ Refines c (a.push (recordSize c) t) s' d' := by
  have hspill := h.spill_eq hfits ht
  cases h with
  | mem ts =>
    unfold DeferredSpool.push SpoolFile.DeferredSpool.push recordSize
    dsimp only
    split_ifs
    · have hmem := Refines.mem (c := c) (ts++[t])
      rw [map_append,sum_append,length_append] at hmem
      exact ⟨_,_,rfl,hmem⟩
    · exact ⟨_,_,hspill,.file _ _⟩
  | file => exact ⟨_,_,hspill,.file _ _⟩

/-- A checkpoint answers the mark of the records. -/
theorem Refines.checkpoint :
    ∃ s' d', spool.checkpoint d=.ok (s',d',(a.checkpoint (recordSize c)).2) ∧
      Refines c (a.checkpoint (recordSize c)).1 s' d' := by
  have hfile : spool.file d=.ok (⟨.file,spool.records,_⟩,_) := h.file_eq hfits spool.records
  rw [mark_framed hfits]
  cases h with
  | mem ts =>
    cases ts with
    | nil => exact ⟨_,_,rfl,.mem []⟩
    | cons =>
      refine ⟨_,_,?_,.file _ _⟩
      unfold DeferredSpool.checkpoint
      rw [hfile]
      rfl
  | file => exact ⟨_,_,rfl,.file _ _⟩

end

variable {s : Session}

section

variable (h : Kept c s)

include h

/-- A saved mark counts the records pushed before it. -/
theorem Kept.saved (back : ℕ) :
    (s.savedMark back).1=⟨(s.savedMark back).2.length,(framed (s.savedMark back).2).length⟩ ∧
      (s.savedMark back).2 <+: s.contents := by
  unfold Session.savedMark
  cases hmark : s.marks[back]? with
  | none => exact ⟨rfl, nil_prefix⟩
  | some saved => exact h.marks saved (mem_of_getElem? hmark)

/-- Marks at or before a saved one count records it counts. -/
theorem Kept.older {back : ℕ} {saved : SpoolMark×List SpoolTuple}
    (hsaved : saved∈s.marks.drop back) : saved.2 <+: (s.savedMark back).2 := by
  have horder := h.order.sublist (drop_sublist back s.marks)
  unfold Session.savedMark
  cases hdrop : s.marks.drop back with
  | nil => exact absurd (hdrop ▸ hsaved) not_mem_nil
  | cons first =>
    have hfirst : s.marks[back]?=some first := by
      rw [←head?_drop,hdrop,head?_cons]
    rw [hdrop] at hsaved horder
    rw [hfirst]
    obtain rfl | hrest := mem_cons.mp hsaved
    · exact prefix_rfl
    · exact (pairwise_cons.mp horder).1 saved hrest

/-- Records a mark counts are in the file. -/
theorem Kept.onDisk {back : ℕ} (hne : (s.savedMark back).2≠[]) :
    s.disk=some (spoolHeader++framed s.contents) := by
  have hmem : s.savedMark back∈s.marks := by
    unfold Session.savedMark at hne ⊢
    cases hmark : s.marks[back]? with
    | none =>
      rw [hmark] at hne
      exact absurd rfl hne
    | some => exact mem_of_getElem? hmark
  obtain ⟨_,hrefines,hcontents,hsynced⟩ := h.refines
  rw [←hcontents]
  have hcount := hsynced _ hmem
  generalize s.spool=spool at hrefines
  generalize s.disk=d at hrefines ⊢
  cases hrefines with
  | mem => exact absurd (length_eq_zero_iff.mp (Nat.le_zero.mp hcount)) hne
  | file => rfl

/-- Reopening at a saved mark gives a spool of the records it counts. -/
theorem Kept.reopenAt (back : ℕ) (left : Disk) :
    ∃ spool d, reopenAt c (crashed s.disk (s.savedMark back).1 left) (s.savedMark back).1 =
        .ok (spool,d) ∧ ∃ a, Refines c a spool d ∧ a.contents=(s.savedMark back).2 ∧
      ∀ saved∈s.marks.drop back,saved.2.length≤a.synced := by
  obtain ⟨hmark,more,hmore⟩ := h.saved back
  have hdisk := @Kept.onDisk c s h back
  have holder := fun saved (hsaved : saved∈s.marks.drop back) => h.older hsaved
  generalize (s.savedMark back).1=m at hmark ⊢
  generalize (s.savedMark back).2=ts at hmark hmore hdisk holder ⊢
  subst hmark
  by_cases hnil : ts=[]
  · subst hnil
    exact ⟨_,_,rfl,_,.mem [],rfl,fun saved hsaved => (holder saved hsaved).length_le⟩
  · have hnonempty : (⟨ts.length,(framed ts).length⟩ : SpoolMark)≠.empty := by
      intro heq
      exact hnil (length_eq_zero_iff.mp (congrArg SpoolMark.records heq))
    have hfits : ∀ t∈ts,Fits t :=
      fun t ht => h.fits t (hmore ▸ mem_append_left more ht)
    have hcrashed : crashed s.disk ⟨ts.length,(framed ts).length⟩ left =
        some (spoolHeader++framed ts++left.getD []) := by
      have hbytes : spoolHeader++framed s.contents=spoolHeader++framed ts++framed more := by
        rw [←hmore,framed_append,append_assoc]
      have hcut : (spoolHeader++framed ts++framed more).take (4+(framed ts).length) =
          spoolHeader++framed ts := take_left' (by rw [length_append]; rfl)
      rw [crashed,if_neg hnonempty,hdisk hnil,Option.map_some,hbytes,hcut]
    rw [hcrashed]
    exact ⟨_,_,reopenAt_framed c hfits hnil _,_,.file ts ts.length,rfl,
      fun saved hsaved => (holder saved hsaved).length_le⟩

/-- Every event succeeds and keeps the invariant. -/
theorem Kept.step {e : Event} (hfit : ∀ t, e=.push t→Fits t) :
    ∃ s', s.step c e=.ok s' ∧ Kept c s' := by
  obtain ⟨a,hrefines,hcontents,hsynced⟩ := h.refines
  have hfits : ∀ u∈a.contents,Fits u := hcontents ▸ h.fits
  cases e with
  | push t =>
    have ht := hfit t rfl
    obtain ⟨spool,d,hpush,hrefines'⟩ := hrefines.push hfits ht
    refine ⟨⟨spool,d,s.contents++[t],s.marks⟩,?_,?_,⟨_,hrefines',?_,?_⟩,?_,h.order⟩
    · rw [Session.step,hpush]
    · intro u hu
      obtain hold | hnew := mem_append.mp hu
      · exact h.fits u hold
      · exact mem_singleton.mp hnew ▸ ht
    · rw [SpoolFile.contents_push,hcontents]
    · rw [SpoolFile.synced_push]
      exact hsynced
    · intro saved hsaved
      obtain ⟨hmark,hinitial⟩ := h.marks saved hsaved
      exact ⟨hmark,hinitial.trans (prefix_append _ _)⟩
  | checkpoint =>
    obtain ⟨spool,d,hcheck,hrefines'⟩ := hrefines.checkpoint hfits
    refine ⟨⟨spool,d,s.contents,((a.checkpoint (recordSize c)).2,s.contents)::s.marks⟩,?_,h.fits,
      ⟨_,hrefines',?_,?_⟩,?_,?_⟩
    · rw [Session.step,hcheck]
    · rw [SpoolFile.contents_checkpoint,hcontents]
    · rw [SpoolFile.synced_checkpoint,hcontents]
      intro saved hsaved
      obtain rfl | hold := mem_cons.mp hsaved
      · exact le_rfl
      · exact (h.marks saved hold).2.length_le
    · rw [mark_framed hfits,hcontents]
      intro saved hsaved
      obtain rfl | hold := mem_cons.mp hsaved
      · exact ⟨rfl,prefix_rfl⟩
      · exact h.marks saved hold
    · exact pairwise_cons.mpr ⟨fun saved hsaved => (h.marks saved hsaved).2,h.order⟩
  | crash back left =>
    obtain ⟨spool,d,hreopen,hstored⟩ := h.reopenAt back left
    refine ⟨⟨spool,d,(s.savedMark back).2,s.marks.drop back⟩,?_,?_,hstored,?_,?_⟩
    · unfold Session.step
      dsimp only
      rw [hreopen]
    · exact fun t ht => h.fits t ((h.saved back).2.subset ht)
    · intro saved hsaved
      exact ⟨(h.marks saved (mem_of_mem_drop hsaved)).1,h.older hsaved⟩
    · exact h.order.sublist (drop_sublist back s.marks)

/-- Every run succeeds and keeps the invariant. -/
theorem Kept.run (es : List Event)
    (hfit : ∀ t, Event.push t∈es→Fits t) : ∃ s', s.run c es=.ok s' ∧ Kept c s' := by
  induction es generalizing s with
  | nil => exact ⟨s,rfl,h⟩
  | cons e _ ih =>
    obtain ⟨_,hstep,hkept⟩ := h.step (fun t ht => hfit t (ht ▸ mem_cons_self))
    obtain ⟨s'',hrun,hlast⟩ := ih hkept (fun t ht => hfit t (mem_cons_of_mem e ht))
    refine ⟨s'',?_,hlast⟩
    rw [Session.run,hstep]
    exact hrun

/-- The spool's replay has its records ahead. -/
theorem Kept.reader :
    s.spool.records=s.contents.length ∧
      ∃ r, s.spool.intoReader s.disk=.ok r ∧ Holds s.contents r := by
  obtain ⟨_,hrefines,hcontents,-⟩ := h.refines
  rw [←hcontents]
  generalize s.spool=spool at hrefines ⊢
  generalize s.disk=d at hrefines ⊢
  cases hrefines with
  | mem => exact ⟨rfl,_,rfl,.mem _⟩
  | file ts =>
    refine ⟨rfl,.file (framed ts++[]) (framed ts).length,?_,.file _ []⟩
    unfold DeferredSpool.intoReader
    rw [openValidated_header,drop_zero,append_nil]

theorem Kept.replay : s.replay=some (.ok s.contents) := by
  obtain ⟨_,_,hreader,hholds⟩ := h.reader
  unfold Session.replay
  rw [hreader]
  exact drain_holds hholds h.fits (by omega)

end

/-- Replay of the sealed spool from a saved offset. -/
def Session.resumeAt (s : Session) (offset : ℕ) : Except SpoolError DeferredReader :=
  match resume s.disk (s.savedMark 0).1 offset with
  | .error e => .error e
  | .ok resumed => resumed.intoReader s.disk

/-- Offset a replay saves after a number of records: the bytes it has behind it. -/
def Session.offsetAfter (s : Session) (n : ℕ) (r : DeferredReader) : Except SpoolError ℕ :=
  match r.skip n with
  | .error e => .error e
  | .ok r' => .ok ((s.savedMark 0).1.bytes-r'.remainingFileBytes)

/-- Offset saved after replays that are each cut short after a number of records, every one
resumed at the offset of the one before. -/
def Session.resumedOffset (s : Session) (offset : ℕ) : List ℕ→Except SpoolError ℕ
  | [] => .ok offset
  | n::ns =>
    match s.resumeAt offset with
    | .error e => .error e
    | .ok r =>
      match s.offsetAfter n r with
      | .error e => .error e
      | .ok offset' => s.resumedOffset offset' ns

/-- Offset saved where the first replay is the open spool's own. -/
def Session.savedOffset (s : Session) : List ℕ→Except SpoolError ℕ
  | [] => .ok 0
  | n::ns =>
    match s.spool.intoReader s.disk with
    | .error e => .error e
    | .ok r =>
      match s.offsetAfter n r with
      | .error e => .error e
      | .ok offset => s.resumedOffset offset ns

/-- A spool sealed by a checkpoint of all its records, in the file. -/
structure Sealed (s : Session) (ts : List SpoolTuple) : Prop where
  /-- The newest mark counts them all. -/
  mark : (s.savedMark 0).1=⟨ts.length,(framed ts).length⟩
  /-- They are the file. -/
  disk : s.disk=some (spoolHeader++framed ts)

/-- Resuming after some records has the others ahead. -/
theorem Sealed.resumeAt (h : Sealed s ts) (n : ℕ) :
    s.resumeAt (framed (ts.take n)).length =
      .ok (.file (framed (ts.drop n)++[]) (framed (ts.drop n)).length) := by
  obtain ⟨_,hresume,hreader⟩ := @resume_framed (ts.take n) (ts.drop n)
  rw [take_append_drop] at hresume hreader
  unfold Session.resumeAt
  rw [h.mark,h.disk,hresume]
  exact hreader

section

variable (h : Sealed s ts) (hfits : ∀ t∈ts,Fits t)

include h hfits

/-- A replay started after some records saves the offset after those it reads. -/
theorem Sealed.offsetAfter (n k : ℕ) :
    s.offsetAfter k (.file (framed (ts.drop n)++[]) (framed (ts.drop n)).length) =
      .ok (framed (ts.take (n+k))).length := by
  have hskip := @skip_file (ts.drop n) (fun t ht => hfits t (mem_of_mem_drop ht)) [] k
  have hsplit : (framed ts).length =
      (framed (ts.take (n+k))).length+(framed (ts.drop (n+k))).length := by
    rw [←length_append,←framed_append,take_append_drop]
  rw [drop_drop] at hskip
  unfold Session.offsetAfter
  rw [hskip,h.mark]
  dsimp only [DeferredReader.remainingFileBytes]
  rw [hsplit,Nat.add_sub_cancel]

theorem Sealed.resumedOffset (n : ℕ) (stops : List ℕ) :
    s.resumedOffset (framed (ts.take n)).length stops =
      .ok (framed (ts.take (n+stops.sum))).length := by
  induction stops generalizing n with
  | nil => rw [Session.resumedOffset,sum_nil,add_zero]
  | cons k _ ih =>
    rw [Session.resumedOffset,h.resumeAt n]
    dsimp only
    rw [h.offsetAfter hfits n k]
    dsimp only
    rw [ih,sum_cons,add_assoc]

/-- However often replay is cut short, the saved offset is the end of the records read. -/
theorem Sealed.savedOffset
    (hreader : s.spool.intoReader s.disk=.ok (.file (framed ts++[]) (framed ts).length))
    (stops : List ℕ) : s.savedOffset stops=.ok (framed (ts.take stops.sum)).length := by
  cases stops with
  | nil => rfl
  | cons k =>
    have hoffset := h.offsetAfter hfits 0 k
    rw [drop_zero] at hoffset
    rw [Session.savedOffset,hreader]
    dsimp only
    rw [hoffset]
    dsimp only
    rw [h.resumedOffset hfits,zero_add,sum_cons]

end

/-- A checkpoint seals a spool that has records. -/
theorem Kept.sealed (h : Kept c s) : ∃ s', s.step c .checkpoint=.ok s' ∧
      (s.contents≠[]→Sealed s' s.contents ∧
        s'.spool.intoReader s'.disk =
          .ok (.file (framed s.contents++[]) (framed s.contents).length)) := by
  obtain ⟨a,hrefines,hcontents,-⟩ := h.refines
  rw [←hcontents]
  have hfits : ∀ u∈a.contents,Fits u := hcontents ▸ h.fits
  obtain ⟨spool,d,hcheck,hrefines'⟩ := hrefines.checkpoint hfits
  refine ⟨⟨spool,d,s.contents,(_,s.contents)::s.marks⟩,by rw [Session.step,hcheck],fun hne => ?_⟩
  have hfile : (a.checkpoint (recordSize c)).1=.file a.contents a.contents.length := by
    cases a with
    | mem ts =>
      cases ts with
      | nil => exact absurd rfl hne
      | cons => rfl
    | file => rfl
  rw [hfile] at hrefines'
  cases hrefines'
  refine ⟨⟨mark_framed hfits,rfl⟩,?_⟩
  unfold DeferredSpool.intoReader
  rw [openValidated_header,drop_zero,append_nil]

/-- For every run of pushes, checkpoints and crashes, each followed by a reopening at a
saved mark with any bytes behind it in the file, every reopening succeeds and replay gives
the records pushed before that mark and since; a file shorter than a mark is refused; and
once the spool is sealed, replay resumed at the offset saved by replays cut short anywhere
gives the records after it. -/
theorem replay_over_crashes (c : Config) (es : List Event)
    (hfit : ∀ t, Event.push t∈es→(encodeRecord t).length<2^32) :
    ∃ s, Session.start.run c es=.ok s ∧ s.replay=some (.ok s.contents) ∧
      (∀ saved∈s.marks,saved.1≠.empty→∀ d : Disk,
        (∀ bytes, d=some bytes→bytes.length<4+saved.1.bytes) →
          ∃ e, reopenAt c d saved.1=.error e) ∧
      ∃ s', s.step c .checkpoint=.ok s' ∧ (s.contents≠[]→∀ stops : List ℕ,
        ∃ offset r, s'.savedOffset stops=.ok offset ∧ s'.resumeAt offset=.ok r ∧
          r.drain (s.contents.length+1)=some (.ok (s.contents.drop stops.sum))) := by
  obtain ⟨s,hrun,hkept⟩ := (Kept.start c).run es hfit
  obtain ⟨s',hstep,hsealed⟩ := hkept.sealed
  refine ⟨s,hrun,hkept.replay,?_,s',hstep,?_⟩
  · intro saved hsaved hne d hshort
    refine reopenAt_short c (fun hzero => hne ?_) hshort
    have hmark := (hkept.marks saved hsaved).1
    rw [hmark] at hzero
    have hnil : saved.2=[] := framed_eq_nil hzero
    rw [hmark,hnil]
    rfl
  · intro hne stops
    obtain ⟨hseal,hreader⟩ := hsealed hne
    refine ⟨_,_,hseal.savedOffset hkept.fits hreader stops,hseal.resumeAt stops.sum,?_⟩
    refine drain_holds (.file _ []) (fun t ht => hkept.fits t (mem_of_mem_drop ht)) ?_
    rw [length_drop]
    omega

/-- A spool that keeps nothing in memory. -/
def unbuffered : Config := ⟨"spool.bin",0,1⟩

/-- A tuple of one column. -/
def single (bytes : List UInt8) : SpoolTuple := ⟨⟨0,0,0⟩,0,0,0,⟨0,0,0,[some (.bytea bytes)]⟩⟩

theorem replay_over_crashes_torn :
    ∃ s, Session.start.run unbuffered [.push (single [1]),.checkpoint,.push (single [2]),
        .crash 0 (some [9,0,0]),.push (single [3])]=.ok s ∧
      s.replay=some (.ok [single [1],single [3]]) := by
  obtain ⟨s,hrun,hreplay,_⟩ := replay_over_crashes unbuffered [.push (single [1]),.checkpoint,
    .push (single [2]),.crash 0 (some [9,0,0]),.push (single [3])] (by
      intro t ht
      simp only [mem_cons,Event.push.injEq,not_mem_nil,or_false,reduceCtorEq,false_or] at ht
      rcases ht with rfl | rfl | rfl
      · decide
      · decide
      · decide)
  refine ⟨s,hrun,?_⟩
  have hcontents : s.contents=[single [1],single [3]] := by
    have heq := congrArg (fun found => found.toOption.map Session.contents) hrun
    exact (Option.some.inj heq).symm
  rw [hreplay,hcontents]

/-- A column of just 2^32 bytes leaves the lengths in front of it as those of an empty
one. -/
theorem encodeRecord_wrapped (h : bytes.length=2^32) :
    encodeRecord (single bytes)=encodeRecord (single [])++bytes := by
  have hlen : UInt32.ofNat bytes.length=0 := by rw [h]; rfl
  have hblob : putBlob bytes=putBlob []++bytes := by
    rw [putBlob,hlen]
    rfl
  simp only [encodeRecord,single,putList,flatMap_cons,flatMap_nil,putOption,encodeValue,
    hblob,append_assoc,append_nil]
  rfl

/-- The length in front of such a record is that of the empty one. -/
theorem encodedLength_wrapped (h : bytes.length=2^32) :
    UInt32.ofNat (encodeRecord (single bytes)).length=46 := by
  rw [encodeRecord_wrapped h,length_append,h]
  decide

/-- What is behind the header is one record of an empty column and the bytes that were
lost. -/
theorem replay_wrapped (h : bytes.length=2^32) :
    (DeferredReader.file (append (single bytes)) 50).drain 2=some (.ok [single []]) := by
  have hempty : (encodeRecord (single [])).length=46 := by decide
  have hframe : readFrame (append (single bytes)) 50=some (encodeRecord (single []),bytes) := by
    rw [append,encodedLength_wrapped h,encodeRecord_wrapped h]
    exact readFrame_len hempty (by decide)
  have hread : running decodeRecord (encodeRecord (single [])) =
      .ok (single [],⟨(encodeRecord (single [])).length,[]⟩) :=
    running_reads (reads_record (by unfold Fits; rw [hempty]; decide))
  have hnext : (DeferredReader.file (append (single bytes)) 50).next =
      .ok (some (single [],.file bytes 0)) := by
    unfold DeferredReader.next
    dsimp only
    rw [if_neg (by decide),hframe]
    dsimp only
    rw [hread,hempty]
  rw [DeferredReader.drain,hnext]
  rfl

/-- A session that spools such a record replays the empty one. -/
theorem run_wrapped (hlen : bytes.length=2^32) :
    ∃ s, Session.start.run unbuffered [.push (single bytes)]=.ok s ∧
      s.contents=[single bytes] ∧ s.replay=some (.ok [single []]) ∧
      single []≠single bytes := by
  have hbody : bodyLen (single bytes)=46 := by
    rw [bodyLen,encodedLength_wrapped hlen]
    rfl
  have hpush : DeferredSpool.push unbuffered .new none (single bytes) =
      .ok (⟨.file,1,50⟩,some (spoolHeader++append (single bytes))) := by
    unfold DeferredSpool.push
    dsimp only [DeferredSpool.new]
    rw [if_neg (by
      have hsize : unbuffered.tupleSize=1 := rfl
      have hmax : unbuffered.memMax=0 := rfl
      rw [approxBytes]
      omega)]
    unfold DeferredSpool.spill
    rw [hbody]
    rfl
  refine ⟨⟨⟨.file,1,50⟩,some (spoolHeader++append (single bytes)),[single bytes],[]⟩,?_,rfl,?_,?_⟩
  · rw [Session.run,Session.step,Session.start]
    rw [hpush]
    rfl
  · exact replay_wrapped hlen
  · intro heq
    have hcols := congrArg (fun t : SpoolTuple => t.payload.columns) heq
    have hnil : []=bytes := by
      simpa only [single,cons.injEq,Option.some.injEq,ColumnValue.bytea.injEq,and_true] using hcols
    rw [←hnil] at hlen
    exact absurd hlen (by decide)

/-- A record of 2^32 bytes and more is replayed as another one. -/
theorem oversized_record_replayed_cut :
    ∃ s, Session.start.run unbuffered [.push (single (List.replicate (2^32) 0))]=.ok s ∧
      s.contents=[single (List.replicate (2^32) 0)] ∧ s.replay=some (.ok [single []]) ∧
      single []≠single (List.replicate (2^32) 0) := run_wrapped length_replicate

end Walshadow.SpoolReplay
