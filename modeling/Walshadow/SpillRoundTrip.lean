import Walshadow.SpillFile

/-!
# What a spill file gives back

A row comes back with the first descriptor written under its filenode and
position. Where rows that share both also share their descriptor, the file gives
back what was written, and a cut file the entries that are complete in it.
-/

namespace Walshadow.SpillRoundTrip

open Records ByteCodec LogCodec LogFiles SpillCodec SpillFile
open List hiding next

/-- Key of a defined descriptor. -/
def dictKey (p : RelDescriptor×Lsn) : DictKey := (p.1.rfn,p.2)

/-- A row with the descriptor its key finds, and the table afterwards. -/
def attached (dict : ReaderDict) (h : DescribedHeap) : DescribedHeap×ReaderDict :=
  match dict.find? (fun p => decide (dictKey p=heapKey h)) with
  | some p => ({ h with descriptor := p.1 },dict)
  | none => (h,dict++[(h.descriptor,h.descriptorValidFrom)])

/-- An entry as it is read back, and the table afterwards. -/
def rehydrateOne (dict : ReaderDict) : SpillEntry→SpillEntry×ReaderDict
  | .heap h => (.heap (attached dict h).1,(attached dict h).2)
  | .chunk c => (.chunk c,dict)
  | .toastDelete d => (.toastDelete d,dict)
  | .raw r => (.raw r,dict)

/-- Entries as they are read back. -/
def rehydrate (dict : ReaderDict) : List SpillEntry→List SpillEntry
  | [] => []
  | e::es => (rehydrateOne dict e).1::rehydrate (rehydrateOne dict e).2 es

/-- The frames of an entry have 32-bit lengths and its descriptor byte-sized codes. -/
def Fits : SpillEntry→Prop
  | .heap h => DescriptorCoded h.descriptor ∧ (descriptorFrame h).body.length<2^32 ∧
      ∀ id, (heapFrame id h).body.length<2^32
  | .chunk c => (encodeChunk c).length<2^32
  | .toastDelete _ => True
  | .raw r => (encodeRaw r).length<2^32

theorem putU8_eq (v : UInt8) : putU8 v=[v] := by
  have hbyte : UInt8.ofNat (v.toNat%256)=v := by
    rw [Nat.mod_eq_of_lt v.toNat_lt,UInt8.ofNat_toNat]
  rw [putU8,leBytes,leBytes,hbyte]

section Frames

variable {f : Frame} (hlen : f.body.length<2^32)

theorem length_frameInto (f : Frame) : (frameInto f).length=5+f.body.length := by
  rw [frameInto,length_append,length_append,length_putU8,length_putU32]
  omega

theorem frameInto_eq (f : Frame) :
    frameInto f=f.tag::(putU32 (UInt32.ofNat f.body.length)++f.body) := by
  rw [frameInto,putU8_eq]
  rfl

include hlen

theorem ofLe_length : ofLe (putU32 (UInt32.ofNat f.body.length))=f.body.length := by
  have hbound : (UInt32.ofNat f.body.length).toNat<256^4 := UInt32.toNat_lt _
  rw [putU32,ofLe_leBytes hbound,toNat_ofNat_length hlen]

/-- The length in front of a body, also when the body is cut. -/
theorem announced (k : ℕ) (hk : 5≤k) (rest : List UInt8) :
    ofLe ((((frameInto f++rest).take k).drop 1).take 4)=f.body.length := by
  have hfour : (putU32 (UInt32.ofNat f.body.length)).length=4 := length_putU32 _
  rw [frameInto_eq,cons_append,drop_take,drop_one,tail_cons,take_take,
    Nat.min_eq_left (by omega),append_assoc,take_left' hfour,ofLe_length hlen]

/-- A whole frame is decoded by its tag. -/
theorem next_frame (fuel : ℕ) (rest : List UInt8) (dict : ReaderDict) :
    next (fuel+1) ⟨frameInto f++rest,dict⟩ =
      match decodeFrame dict f with
      | .error e => .error e
      | .ok (.entry e) => .ok (some (e,⟨rest,dict⟩))
      | .ok (.descriptor d validFrom) => next fuel ⟨rest,dict++[(d,validFrom)]⟩ := by
  have hsize : (frameInto f++rest).length=5+f.body.length+rest.length := by
    rw [length_append,length_frameInto]
  have hannounced := announced hlen (frameInto f++rest).length (by omega) rest
  rw [take_length] at hannounced
  have hdrop : (frameInto f++rest).drop (5+f.body.length)=rest := by
    rw [←length_frameInto f,drop_left]
  have hbody : ((frameInto f++rest).drop 5).take f.body.length=f.body := by
    have hhead : (putU8 f.tag++putU32 (UInt32.ofNat f.body.length)).length=5 := by simp
    rw [frameInto,←append_assoc,append_assoc,drop_left' hhead,take_left]
  have hhead : (frameInto f++rest).headD 0=f.tag := by
    rw [frameInto_eq]
    rfl
  have hwhole : (⟨(frameInto f++rest).headD 0,((frameInto f++rest).drop 5).take f.body.length⟩ :
      Frame)=f := by
    rw [hbody,hhead]
  rw [next]
  dsimp only
  rewrite [if_neg (by omega),hannounced,if_neg (by omega),hwhole,hdrop]
  rfl

/-- A cut frame ends the file: cleanly when nothing of it is there. -/
theorem next_cut {k fuel : ℕ} (hk : k<(frameInto f).length) (hfuel : k≤fuel)
    (dict : ReaderDict) :
    next fuel ⟨(frameInto f).take k,dict⟩=.ok none ∨
      next fuel ⟨(frameInto f).take k,dict⟩=.error .unexpectedEof := by
  have hsize : ((frameInto f).take k).length=k := by
    rw [length_take]
    omega
  have hwhole := length_frameInto f
  cases fuel with
  | zero => exact .inl rfl
  | succ =>
    rw [next]
    dsimp only
    by_cases hshort : k<5
    · rw [if_pos (by omega)]
      split
      · exact .inl rfl
      · exact .inr rfl
    · have hannounced := announced hlen k (by omega) []
      rw [append_nil] at hannounced
      rw [if_neg (by omega),if_pos (by omega)]
      exact .inr rfl

end Frames

variable {α : Type} {body : List UInt8}

theorem running_reads {d : Decoder α} {a : α} (h : Reads d body a) :
    running d body=.ok (a,⟨body.length,[]⟩) := by
  have hrun := h 0 []
  rw [append_nil,zero_add] at hrun
  rw [running,hrun]

theorem decodeWhole_reads {d : Decoder α} {a : α}
    (h : Reads d body a) (f : α→SpillEntry) : decodeWhole d f body=.ok (.entry (f a)) := by
  rw [decodeWhole,running_reads h]

/-- A row frame gives the row its descriptor. -/
theorem decodeFrame_heap {h : DescribedHeap} {id : UInt32} {dict : ReaderDict}
    {p : RelDescriptor×Lsn} (hlen : (heapFrame id h).body.length<2^32)
    (hdict : dict[id.toNat]?=some p) :
    decodeFrame dict (heapFrame id h)=.ok (.entry (.heap ⟨h.decoded,p.1,p.2⟩)) := by
  have hheap : (encodeHeap h.decoded).length<2^32 := by
    rw [heapFrame,length_append] at hlen
    omega
  have hread : Reads getHeap (heapFrame id h).body (id,h.decoded) :=
    (reads_u32 id).bind (reads_heap hheap).last
  change decodeHeapBody dict (heapFrame id h).body=_
  rw [decodeHeapBody,running_reads hread]
  dsimp only
  rw [hdict]

/-- A descriptor frame gives the descriptor. -/
theorem decodeFrame_descriptor {h : DescribedHeap} (hcoded : DescriptorCoded h.descriptor)
    (hlen : (descriptorFrame h).body.length<2^32) (dict : ReaderDict) :
    decodeFrame dict (descriptorFrame h) =
      .ok (.descriptor h.descriptor h.descriptorValidFrom) := by
  have hsize : (descriptorFrame h).body.length=8+(encodeDescriptor h.descriptor).length := by
    rw [descriptorFrame,length_append,length_putU64]
  have hfirst : running getU64 (descriptorFrame h).body =
      .ok (h.descriptorValidFrom,⟨8,encodeDescriptor h.descriptor⟩) := by
    have hrun := reads_u64 h.descriptorValidFrom 0 (encodeDescriptor h.descriptor)
    rw [length_putU64] at hrun
    rw [running,descriptorFrame,hrun]
  have hsecond := reads_descriptor hcoded (by omega) 0 []
  rw [append_nil] at hsecond
  change decodeDescriptorBody (descriptorFrame h).body=_
  rw [decodeDescriptorBody,hfirst]
  dsimp only
  rw [show version=4 from rfl,hsecond]
  dsimp only
  rw [if_neg (by omega)]

theorem find?_of_findIdx? {p : α→Bool} {xs : List α} {i : ℕ}
    (h : xs.findIdx? p=some i) : xs.find? p=xs[i]? := by
  obtain ⟨hi,hp,hbefore⟩ := findIdx?_eq_some_iff_getElem.mp h
  rw [getElem?_eq_getElem hi]
  exact find?_eq_some_iff_getElem.mpr ⟨hp,i,hi,rfl,fun j hj => by simpa using hbefore j hj⟩

/-- How an entry is written when the writer's keys are those of the reader's
table, and what reading its frames gives. -/
inductive Written (dict : ReaderDict) (e : SpillEntry) : Prop where
  /-- One frame; the table is not touched. -/
  | single (f : Frame) (hlen : f.body.length<2^32)
      (hencode : encode (dict.map dictKey) e=([f],dict.map dictKey))
      (hframe : decodeFrame dict f=.ok (.entry (rehydrateOne dict e).1))
      (hdict : (rehydrateOne dict e).2=dict)
  /-- A definition in front of the row that needs it. -/
  | defined (d f : Frame) (p : RelDescriptor×Lsn) (hdefinition : d.body.length<2^32)
      (hlen : f.body.length<2^32)
      (hencode : encode (dict.map dictKey) e=([d,f],(dict++[p]).map dictKey))
      (hdefined : decodeFrame dict d=.ok (.descriptor p.1 p.2))
      (hframe : decodeFrame (dict++[p]) f=.ok (.entry (rehydrateOne dict e).1))
      (hdict : (rehydrateOne dict e).2=dict++[p])

theorem written_heap {dict : ReaderDict} (hroom : dict.length<2^32) {h : DescribedHeap}
    (hfits : Fits (.heap h)) : Written dict (.heap h) := by
  obtain ⟨hcoded,hdesc,hheap⟩ := hfits
  have hidx : (dict.map dictKey).findIdx? (fun k => decide (k=heapKey h)) =
      dict.findIdx? (fun p => decide (dictKey p=heapKey h)) := findIdx?_map
  have hnext : (UInt32.ofNat dict.length).toNat=dict.length := toNat_ofNat_length hroom
  cases hi : dict.findIdx? (fun p => decide (dictKey p=heapKey h)) with
  | some i =>
    have hfind := find?_of_findIdx? hi
    obtain ⟨hlt,hkey,-⟩ := findIdx?_eq_some_iff_getElem.mp hi
    have hid : (UInt32.ofNat i).toNat=i := toNat_ofNat_length (by omega)
    have hget := getElem?_eq_getElem hlt
    have hfound : dict[(UInt32.ofNat i).toNat]?=some dict[i] := by
      rw [hid]
      exact hget
    have hattached : attached dict h=({ h with descriptor := dict[i].1 },dict) := by
      rw [attached,hfind,hget]
    have hvalid : dict[i].2=h.descriptorValidFrom :=
      congrArg Prod.snd (of_decide_eq_true hkey)
    have hne : UInt32.ofNat i≠UInt32.ofNat dict.length := by
      intro heq
      have hnat := congrArg UInt32.toNat heq
      omega
    refine .single (heapFrame (UInt32.ofNat i) h) (hheap _) ?_ ?_ ?_
    · rw [encode,internKey,hidx,hi]
      rw [length_map,if_neg hne,nil_append]
    · rw [rehydrateOne,hattached,decodeFrame_heap (hheap _) hfound,hvalid]
    · rw [rehydrateOne,hattached]
  | none =>
    have hattached : attached dict h=(h,dict++[(h.descriptor,h.descriptorValidFrom)]) := by
      rw [attached,find?_eq_none.mpr (fun p hp => by
        rw [findIdx?_eq_none_iff.mp hi p hp]
        exact Bool.false_ne_true)]
    have hfound : (dict++[(h.descriptor,h.descriptorValidFrom)])[(UInt32.ofNat dict.length).toNat]? =
        some (h.descriptor,h.descriptorValidFrom) := by
      rw [hnext,getElem?_concat_length]
    refine .defined (descriptorFrame h) (heapFrame (UInt32.ofNat dict.length) h)
      (h.descriptor,h.descriptorValidFrom) hdesc (hheap _) ?_
      (decodeFrame_descriptor hcoded hdesc dict) ?_ ?_
    · rw [encode,internKey,hidx,hi]
      rw [length_map,if_pos rfl,map_append]
      rfl
    · rw [rehydrateOne,hattached,decodeFrame_heap (hheap _) hfound]
    · rw [rehydrateOne,hattached]

theorem written {dict : ReaderDict} (hroom : dict.length<2^32) {e : SpillEntry} (hfits : Fits e) :
    Written dict e := by
  cases e with
  | heap => exact written_heap hroom hfits
  | chunk c =>
    exact .single ⟨1,encodeChunk c⟩ hfits rfl (decodeWhole_reads (reads_chunk hfits) .chunk) rfl
  | toastDelete d =>
    exact .single ⟨2,encodeToastDelete d⟩ (by simp [encodeToastDelete]) rfl
      (decodeWhole_reads (reads_toastDelete d) .toastDelete) rfl
  | raw r => exact .single ⟨3,encodeRaw r⟩ hfits rfl (decodeWhole_reads (reads_raw hfits) .raw) rfl

section Entries

variable {dict : ReaderDict} {e : SpillEntry} (h : Written dict e)

include h

/-- Writer and reader tables stay in step. -/
theorem Written.dict_eq : (encode (dict.map dictKey) e).2=(rehydrateOne dict e).2.map dictKey := by
  cases h with
  | single f _ hencode _ hdict | defined d f p _ _ hencode _ _ hdict => rw [hencode,hdict]

/-- An entry takes at least a frame head. -/
theorem Written.five_le : 5≤(entryBytes (dict.map dictKey) e).length := by
  unfold entryBytes
  cases h with
  | single _ _ hencode =>
    rw [hencode,flatMap_singleton,length_frameInto]
    omega
  | defined _ _ _ _ _ hencode =>
    rw [hencode,flatMap_cons,length_append,length_frameInto]
    omega

/-- A whole entry is read back. -/
theorem Written.next_whole {fuel : ℕ} (hfuel : 2≤fuel) (rest : List UInt8) :
    next fuel ⟨entryBytes (dict.map dictKey) e++rest,dict⟩ =
      .ok (some ((rehydrateOne dict e).1,⟨rest,(rehydrateOne dict e).2⟩)) := by
  obtain ⟨_,rfl⟩ := Nat.exists_eq_add_of_le' hfuel
  unfold entryBytes
  cases h with
  | single _ hlen hencode hframe hdict =>
    rw [hencode,flatMap_singleton,next_frame hlen,hframe,hdict]
  | defined _ _ _ hdefinition hlen hencode hdefined hframe hdict =>
    rw [hencode,flatMap_cons,flatMap_singleton,append_assoc,next_frame hdefinition,hdefined]
    dsimp only
    rw [next_frame hlen,hframe,hdict]

/-- A cut entry is not read. -/
theorem Written.next_cut {k fuel : ℕ} (hk : k<(entryBytes (dict.map dictKey) e).length)
    (hfuel : k≤fuel) :
    next fuel ⟨(entryBytes (dict.map dictKey) e).take k,dict⟩=.ok none ∨
      next fuel ⟨(entryBytes (dict.map dictKey) e).take k,dict⟩=.error .unexpectedEof := by
  unfold entryBytes at hk ⊢
  cases h with
  | single _ hlen hencode =>
    rw [hencode,flatMap_singleton] at hk ⊢
    exact SpillRoundTrip.next_cut hlen hk hfuel dict
  | defined d _ p hdefinition hlen hencode hdefined =>
    rw [hencode,flatMap_cons,flatMap_singleton] at hk ⊢
    have hhead := length_frameInto d
    rw [length_append] at hk
    by_cases hfirst : k<(frameInto d).length
    · rw [take_append_of_le_length (by omega)]
      exact SpillRoundTrip.next_cut hdefinition hfirst hfuel dict
    · obtain ⟨fuel,rfl⟩ : ∃ n, fuel=n+1 := ⟨fuel-1,by omega⟩
      rw [take_append,take_of_length_le (by omega),next_frame hdefinition,hdefined]
      exact SpillRoundTrip.next_cut hlen (by omega) (by omega) (dict++[p])

end Entries

theorem length_rehydrateOne (dict : ReaderDict) (e : SpillEntry) :
    (rehydrateOne dict e).2.length≤dict.length+1 := by
  cases e with
  | heap =>
    rw [rehydrateOne,attached]
    split
    · exact Nat.le_succ _
    · rw [length_append,length_singleton]
  | chunk c | toastDelete d | raw r => exact Nat.le_succ _

/-- What reading the first `k` bytes of written entries gives: the `n` entries
complete in them, then a clean end or a short read. -/
structure CutRead (dict : ReaderDict) (es : List SpillEntry) (k n : ℕ) : Prop where
  /-- No more entries than were written. -/
  le : n≤es.length
  /-- They are complete in the cut. -/
  complete : (writeBatch (dict.map dictKey) (es.take n)).1.length≤k
  /-- The next one is not. -/
  next : n<es.length→k<(writeBatch (dict.map dictKey) (es.take (n+1))).1.length
  /-- So the cut is a proper one. -/
  cut : n<es.length→k<(writeBatch (dict.map dictKey) es).1.length

variable {es : List SpillEntry}

theorem readEntries_cut (hfits : ∀ e∈es,Fits e) {dict : ReaderDict}
    (hroom : dict.length+es.length≤2^32) {k fuel : ℕ} (hfuel : k<fuel) :
    ∃ n ending, readEntries fuel ⟨(writeBatch (dict.map dictKey) es).1.take k,dict⟩ =
        ((rehydrate dict es).take n,ending) ∧ CutRead dict es k n ∧
      (n=es.length→ending=none) := by
  induction es generalizing dict k fuel with
  | nil =>
    obtain ⟨fuel,rfl⟩ : ∃ m, fuel=m+1 := ⟨fuel-1,by omega⟩
    refine ⟨0,none,?_,⟨le_rfl,Nat.zero_le _,fun h => absurd h (lt_irrefl _),
      fun h => absurd h (lt_irrefl _)⟩,fun _ => rfl⟩
    rw [writeBatch,take_nil]
    rfl
  | cons e es ih =>
    obtain ⟨fuel,rfl⟩ : ∃ m, fuel=m+1 := ⟨fuel-1,by omega⟩
    rw [length_cons] at hroom
    have hwritten : Written dict e := written (by omega) (hfits e (mem_cons_self ..))
    have hfive := hwritten.five_le
    have hbytes : ∀ es', (writeBatch (dict.map dictKey) (e::es')).1 =
        entryBytes (dict.map dictKey) e++
          (writeBatch ((rehydrateOne dict e).2.map dictKey) es').1 := by
      intro es'
      rw [writeBatch,hwritten.dict_eq]
    by_cases hcut : k<(entryBytes (dict.map dictKey) e).length
    · have htake : (writeBatch (dict.map dictKey) (e::es)).1.take k =
          (entryBytes (dict.map dictKey) e).take k := by
        rw [hbytes,take_append_of_le_length (by omega)]
      have hsize : ((entryBytes (dict.map dictKey) e).take k).length=k := by
        rw [length_take]
        omega
      have hcutread : CutRead dict (e::es) k 0 := by
        refine ⟨Nat.zero_le _,Nat.zero_le _,fun _ => ?_,fun _ => ?_⟩
        · rw [take_succ_cons,hbytes,length_append]
          omega
        · rw [hbytes,length_append]
          omega
      rw [readEntries]
      rw [htake]
      rcases hwritten.next_cut hcut (le_of_eq hsize.symm) with hend|hend
      · exact ⟨0,none,by rw [hend]; rfl,hcutread,nofun⟩
      · exact ⟨0,some .unexpectedEof,by rw [hend]; rfl,hcutread,nofun⟩
    · have htake : (writeBatch (dict.map dictKey) (e::es)).1.take k =
          entryBytes (dict.map dictKey) e++(writeBatch ((rehydrateOne dict e).2.map dictKey) es).1.take
            (k-(entryBytes (dict.map dictKey) e).length) := by
        rw [hbytes,take_append,take_of_length_le (by omega)]
      have hgrow := length_rehydrateOne dict e
      obtain ⟨n,ending,hread,hcutread,hend⟩ :=
        @ih (fun x hx => hfits x (mem_cons_of_mem _ hx)) (rehydrateOne dict e).2 (by omega)
          (k-(entryBytes (dict.map dictKey) e).length) fuel (by omega)
      refine ⟨n+1,ending,?_,⟨?_,?_,fun hn => ?_,fun hn => ?_⟩,fun hn => hend (by simpa using hn)⟩
      · rw [readEntries]
        rw [htake,hwritten.next_whole (by rw [length_append]; omega)]
        dsimp only
        rw [hread]
        rfl
      · exact Nat.succ_le_succ hcutread.le
      · have hcomplete := hcutread.complete
        rw [take_succ_cons,hbytes,length_append]
        omega
      · have hnext := hcutread.next (by simpa using hn)
        rw [take_succ_cons,hbytes,length_append]
        omega
      · have hmore := hcutread.cut (by simpa using hn)
        rw [hbytes,length_append]
        omega

/-- Reading a file cut anywhere: a cut header is an error, and behind a whole one the
entries complete in the cut are read. -/
theorem readFile_cut (hfits : ∀ e∈es,Fits e) (hcount : es.length≤2^32)
    (k : ℕ) : ∃ n ending, readFile ((spillFile es).take k)=((rehydrate [] es).take n,ending) ∧
      (k<4→n=0 ∧ ending≠none) ∧
      (4≤k→n≤es.length ∧ (spillFile (es.take n)).length≤k ∧
        (n<es.length→k<(spillFile (es.take (n+1))).length)) ∧
      ((spillFile es).length≤k→n=es.length ∧ ending=none) := by
  have hfour : spillHeader.length=4 := rfl
  have hsize : ∀ xs, (spillFile xs).length=4+(writeBatch [] xs).1.length := by
    intro xs
    rw [spillFile,length_append,hfour]
  by_cases hheader : k<4
  · refine ⟨0,some .unexpectedEof,?_,fun _ => ⟨rfl,nofun⟩,fun h => ?_,fun h => ?_⟩
    · have hshort : ((spillFile es).take k).length<4 := by
        rw [length_take]
        omega
      rw [readFile,openReader,if_pos hshort]
      rfl
    · omega
    · rw [hsize] at h
      omega
  · have htake : (spillFile es).take k=spillHeader++(writeBatch [] es).1.take (k-4) := by
      rw [spillFile,take_append,hfour,take_of_length_le (by omega)]
    rw [htake]
    by_cases hlong : (writeBatch [] es).1.length≤k-4
    · obtain ⟨n,ending,hread,hcut,hend⟩ := @readEntries_cut es hfits []
        (by simpa using hcount) (writeBatch [] es).1.length _ (Nat.lt_succ_self _)
      have hall : n=es.length := by
        rcases Nat.lt_or_ge n es.length with hlt|hge
        · exact absurd (hcut.cut hlt) (lt_irrefl _)
        · exact le_antisymm hcut.le hge
      have hcomplete := hcut.complete
      rw [map_nil,take_length] at hread
      rw [map_nil] at hcomplete
      refine ⟨n,ending,?_,fun h => absurd h hheader,fun _ => ⟨hcut.le,?_,fun h => ?_⟩,
        fun _ => ⟨hall,hend hall⟩⟩
      · rw [take_of_length_le hlong]
        exact hread
      · rw [hsize]
        omega
      · omega
    · have hlen : ((writeBatch [] es).1.take (k-4)).length=k-4 := by
        rw [length_take]
        omega
      obtain ⟨n,ending,hread,hcut,_⟩ := @readEntries_cut es hfits []
        (by simpa using hcount) (k-4) (((writeBatch [] es).1.take (k-4)).length+1) (by omega)
      have hcomplete := hcut.complete
      have hnext := hcut.next
      rw [map_nil] at hcomplete hnext
      refine ⟨n,ending,hread,fun h => absurd h hheader,fun _ => ⟨hcut.le,?_,fun h => ?_⟩,fun h => ?_⟩
      · rw [hsize]
        omega
      · have hpast := hnext h
        rw [hsize]
        omega
      · rw [hsize] at h
        omega

/-- Rows that share filenode and position share their descriptor. -/
def SameDescriptors (es : List SpillEntry) : Prop :=
  ∀ h h', SpillEntry.heap h∈es→SpillEntry.heap h'∈es→heapKey h=heapKey h' →
    h.descriptor=h'.descriptor

/-- Where keys determine descriptors, rows keep their own. -/
theorem rehydrate_eq (hsame : SameDescriptors es) {dict : ReaderDict}
    (hdict : ∀ p∈dict,∀ h, SpillEntry.heap h∈es→dictKey p=heapKey h→p.1=h.descriptor) :
    rehydrate dict es=es := by
  induction es generalizing dict with
  | nil => rfl
  | cons e es ih =>
    have hsame' : SameDescriptors es := fun h h' hh hh' =>
      hsame h h' (mem_cons_of_mem _ hh) (mem_cons_of_mem _ hh')
    have hdict' : ∀ p∈dict,∀ h, SpillEntry.heap h∈es→dictKey p=heapKey h →
        p.1=h.descriptor := fun p hp h hh => hdict p hp h (mem_cons_of_mem _ hh)
    cases e with
    | heap h =>
      rw [rehydrate,rehydrateOne,attached]
      split
      · rename_i p hfound
        have hkey := find?_some hfound
        have hown := hdict p (mem_of_find?_eq_some hfound) h (mem_cons_self ..)
          (of_decide_eq_true hkey)
        rw [ih hsame' hdict',hown]
      · refine congrArg _ (ih hsame' (fun p hp h' hh' hkey => ?_))
        rcases mem_append.mp hp with hold|hnew
        · exact hdict' p hold h' hh' hkey
        · rw [mem_singleton.mp hnew] at hkey ⊢
          exact hsame h h' (mem_cons_self ..) (mem_cons_of_mem _ hh') hkey
    | chunk c | toastDelete d | raw r => exact congrArg _ (ih hsame' hdict')

/-- A whole file is read to its end, every row with its own descriptor. -/
theorem readFile_whole (hfits : ∀ e∈es,Fits e) (hcount : es.length≤2^32)
    (hsame : SameDescriptors es) : readFile (spillFile es)=(es,none) := by
  obtain ⟨_,_,hread,-,-,hwhole⟩ := readFile_cut hfits hcount (spillFile es).length
  obtain ⟨hn,hend⟩ := hwhole le_rfl
  have hown : rehydrate [] es=es := rehydrate_eq hsame nofun
  rw [take_length,hown,hn,hend,take_length] at hread
  exact hread

/-- A spill file gives back the entries it was written for, every row with its own
descriptor and position. Cut within its header it gives an error and no entry; cut
behind it, it gives all entries complete in the cut, and one is missing. -/
theorem spill_round_trip {es : List SpillEntry} (hfits : ∀ e∈es,Fits e)
    (hcount : es.length≤2^32) (hsame : SameDescriptors es) :
    readFile (spillFile es)=(es,none) ∧
      ∀ k<(spillFile es).length, ∃ n ending,
        readFile ((spillFile es).take k)=(es.take n,ending) ∧ (k<4→n=0 ∧ ending≠none) ∧
          (4≤k→n<es.length ∧ (spillFile (es.take n)).length≤k ∧
            k<(spillFile (es.take (n+1))).length) := by
  have hown : rehydrate [] es=es := rehydrate_eq hsame nofun
  constructor
  · exact readFile_whole hfits hcount hsame
  · intro k hk
    obtain ⟨n,ending,hread,hheader,hbehind,-⟩ := readFile_cut hfits hcount k
    rw [hown] at hread
    refine ⟨n,ending,hread,hheader,fun hfour => ?_⟩
    obtain ⟨-,hcomplete,hnext⟩ := hbehind hfour
    have hmissing : n<es.length := by
      by_contra hall
      rw [take_of_length_le (by omega)] at hcomplete
      omega
    exact ⟨hmissing,hcomplete,hnext hmissing⟩

/-- Row of the table decoded against a descriptor of position 10. -/
def spilledRow (lsn : Lsn) (descriptor : RelDescriptor) : SpillEntry :=
  .heap ⟨⟨⟨1663,5,7000⟩,7,lsn,.update,some ⟨[some (.text "x"),none],true⟩,none⟩,descriptor,10⟩

/-- Two descriptors under one filenode and position: the second row comes back with
the first row's. A relation kind above 255 comes back as another one. -/
theorem shared_key_and_wide_code_not_read_back :
    readFile (spillFile [spilledRow 20 (namedTable "a"),spilledRow 30 (namedTable "b")]) =
      ([spilledRow 20 (namedTable "a"),spilledRow 30 (namedTable "a")],none) ∧
    readFile (spillFile [spilledRow 20 { namedTable "a" with kind := Char.ofNat 370 }]) =
      ([spilledRow 20 (namedTable "a")],none) := by
  constructor <;> decide +kernel

theorem fits_spilledRow (lsn : Lsn) : Fits (spilledRow lsn (namedTable "a")) := by
  have hcoded : DescriptorCoded (namedTable "a") := by
    refine ⟨⟨by decide,by decide,fun a ha => ?_⟩,nofun⟩
    rw [mem_singleton.mp ha]
    exact ⟨by decide,by decide⟩
  refine ⟨hcoded,?_,fun id => ?_⟩
  · have hdesc : (encodeDescriptor (namedTable "a")).length<1000 := by decide +kernel
    simp only [descriptorFrame,length_append,length_putU64]
    omega
  · simp only [heapFrame,encodeHeap,length_append,length_putU32,length_putRfn,length_putU64]
    have hrest : (putOp .update).length+(encodeOptTuple (some ⟨[some (.text "x"),none],true⟩)).length+
        (encodeOptTuple none).length<1000 := by decide +kernel
    omega

/-- Rows that share a descriptor, around a tombstone. -/
theorem spill_round_trip_shared :
    readFile (spillFile [spilledRow 20 (namedTable "a"),.toastDelete ⟨5,16400,3,1,25⟩,
      spilledRow 30 (namedTable "a")]) =
        ([spilledRow 20 (namedTable "a"),.toastDelete ⟨5,16400,3,1,25⟩,
          spilledRow 30 (namedTable "a")],none) := by
  refine (spill_round_trip (fun e he => ?_) (by decide) (fun h h' hh hh' _ => ?_)).1
  · simp only [mem_cons,not_mem_nil,or_false] at he
    rcases he with rfl|rfl|rfl
    · exact fits_spilledRow 20
    · exact trivial
    · exact fits_spilledRow 30
  · have hall : ∀ x, SpillEntry.heap x∈[spilledRow 20 (namedTable "a"),
        .toastDelete ⟨5,16400,3,1,25⟩,spilledRow 30 (namedTable "a")] →
          x.descriptor=namedTable "a" := by
      intro x hx
      simp only [mem_cons,not_mem_nil,or_false,spilledRow,SpillEntry.heap.injEq,
        reduceCtorEq,false_or] at hx
      rcases hx with rfl|rfl <;> rfl
    rw [hall h hh,hall h' hh']

end Walshadow.SpillRoundTrip
