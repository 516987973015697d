import Walshadow.Records
import Walshadow.RowVersions

/-!
# Rows emitted for live changes

A logged change becomes one row stamped with its record's position, behind a delete
marker one below it where an update left its key. The destination keeps for each key the
row with the greatest stamp. It agrees with the source just where a row that entered a
key was logged after the record that freed the key. Source and destination key floats as
numbers, with one NaN; the emitter compares them as numbers too, but no NaN equals itself,
so an update may send a marker for a key it stays under. Encoding of the single values is
left out: a row holds the values its table maps.
-/

namespace Walshadow.LiveRows

open Records RowVersions List

/-- Attribute numbers of the replica identity, or of the primary key under a full one. -/
def replidentKeyAttnums (rel : RelDescriptor) : List Int16 :=
  match rel.replident with
  | .default (some keys) => keys
  | .full (some keys) => keys
  | .usingIndex _ keys => keys
  | _ => []

/-- Place of an attribute in a tuple. -/
def attIndex (attnum : Int16) : ℕ := attnum.toNatClampNeg-1

/-- Number of a float by its bits, sign bit and bits of infinity: both zeros are one, and a
NaN is none. -/
def floatNumber (sign infinity bits : ℕ) : Option ℕ :=
  if infinity<bits%sign then none else if bits%sign=0 then some 0 else some bits

/-- Number of a single. -/
def float4Number (bits : UInt32) : Option ℕ := floatNumber (2^31) 0x7F800000 bits.toNat

/-- Number of a double. -/
def float8Number (bits : UInt64) : Option ℕ := floatNumber (2^63) 0x7FF0000000000000 bits.toNat

/-- Equality of values: floats are compared as numbers. -/
def valueEq : ColumnValue → ColumnValue→Bool
  | .float4 a,.float4 b => (float4Number a).isSome && decide (float4Number a=float4Number b)
  | .float8 a,.float8 b => (float8Number a).isSome && decide (float8Number a=float8Number b)
  | a,b => decide (a=b)

/-- Value as a key orders it: a number, or the one NaN. -/
def keyValue : ColumnValue → ColumnValue
  | .float4 a => .float4 (UInt32.ofNat ((float4Number a).getD 0x7FC00000))
  | .float8 a => .float8 (UInt64.ofNat ((float8Number a).getD 0x7FF8000000000000))
  | v => v

/-- Equal values are one key. -/
theorem keyValue_eq_of_valueEq {a b : ColumnValue} (h : valueEq a b=true) :
    keyValue a=keyValue b := by
  unfold valueEq at h
  split at h
  · rw [Bool.and_eq_true,decide_eq_true_eq] at h
    rw [keyValue,keyValue,h.2]
  · rw [Bool.and_eq_true,decide_eq_true_eq] at h
    rw [keyValue,keyValue,h.2]
  · rw [of_decide_eq_true h]

/-- The zeros are equal, and a NaN differs from itself. -/
example : valueEq (.float8 0) (.float8 0x8000000000000000)=true ∧
    valueEq (.float8 0x7FF8000000000000) (.float8 0x7FF8000000000000)=false := by decide

/-- Both images have the column, with other values. -/
def differs (old new : DecodedTuple) (a : ℕ) : Bool :=
  match old.columns[a]?,new.columns[a]? with
  | some (some o),some (some n) => !valueEq o n
  | _,_ => false

/-- Whether an update left its key: any key column of a relation with keys, unless the
update kept all indexed columns; any column under a full identity without a key. -/
def moved (rel : RelDescriptor) (hot : Bool) (old new : DecodedTuple) : Bool :=
  if (replidentKeyAttnums rel).isEmpty then
    decide (rel.replident=.full none) && (List.range new.columns.length).any (differs old new)
  else !hot && (replidentKeyAttnums rel).any (fun a => differs old new (attIndex a))

/-- Split the delete marker of a key change off an update, stamped one below it. -/
def takeKeyChangeTombstone (heap : DecodedHeap) (rel : RelDescriptor) :
    Option DecodedHeap×DecodedHeap :=
  let split (hot : Bool) : Option DecodedHeap×DecodedHeap :=
    match heap.old,heap.new with
    | some old,some new =>
      if moved rel hot old new then
        (some ⟨heap.rfn,heap.xid,heap.sourceLsn-1,.delete,none,heap.old⟩,{heap with old := none})
      else (none,heap)
    | _,_ => (none,heap)
  match heap.op with
  | .update => split false
  | .hotUpdate => split true
  | _ => (none,heap)

/-- Heaps placed for one change; a destination without a delete marker gets no deletes. -/
def placeHeap (dropsDeletes : Bool) (rel : RelDescriptor) (heap : DecodedHeap) : List DecodedHeap :=
  if dropsDeletes then if heap.op=.delete then [] else [heap]
  else
    match takeKeyChangeTombstone heap rel with
    | (some tomb,rest) => [tomb,rest]
    | (none,rest) => [rest]

/-- Columns of a destination table by source attribute, and those of its sort key by
place. -/
structure TableMapping where
  /-- Source attributes of the columns. -/
  columns : List Int16
  orderBy : List ℕ

/-- Row in the destination. -/
structure EmittedRow where
  values : List (Option ColumnValue)
  lsn : UInt64
  xid : UInt32
  isDeleted : Bool
deriving DecidableEq

/-- Value of a mapped column in an image; an absent one is stored as a default. -/
def valueOf (side : Option DecodedTuple) (attnum : Int16) : Option ColumnValue :=
  side.bind (fun t => (t.columns[attIndex attnum]?).join)

/-- Row appended for a heap: a delete sends the old image, all else the new one. -/
def appendRouted (m : TableMapping) (heap : DecodedHeap) : EmittedRow where
  values := m.columns.map (valueOf (if heap.op=.delete then heap.old else heap.new))
  lsn := heap.sourceLsn
  xid := heap.xid
  isDeleted := decide (heap.op=.delete)

/-- Rows emitted for one change. -/
def rowsOf (rel : RelDescriptor) (m : TableMapping) (heap : DecodedHeap) : List EmittedRow :=
  (placeHeap false rel heap).map (appendRouted m)

/-- Values a row sorts by. -/
def EmittedRow.key (m : TableMapping) (r : EmittedRow) : List (Option ColumnValue) :=
  m.orderBy.map (fun i => (r.values[i]?).join.map keyValue)

/-- Values as the destination keys and stores them. -/
abbrev Values := List (Option ColumnValue)

/-- A row as a version of its key. -/
def EmittedRow.version (m : TableMapping) (r : EmittedRow) : Version Values Values :=
  ⟨r.key m,r.lsn.toNat,if r.isDeleted then none else some r.values⟩

/-- Row of the source, by attribute. -/
abbrev SourceRow := List ColumnValue

/-- Value of an attribute. -/
def SourceRow.at (row : SourceRow) (attnum : Int16) : Option ColumnValue := row[attIndex attnum]?

/-- Key of a source row. -/
def keyOf (rel : RelDescriptor) (row : SourceRow) : Values :=
  (replidentKeyAttnums rel).map (fun a => (row.at a).map keyValue)

/-- Mapped values of a source row. -/
def valuesOf (m : TableMapping) (row : SourceRow) : Values := m.columns.map row.at

/-- Change of the source table. -/
inductive RowChange where
  | insert (row : SourceRow)
  | update (old new : SourceRow)
  | delete (old : SourceRow)

/-- The change by key. -/
def RowChange.keyed (rel : RelDescriptor) (m : TableMapping) : RowChange→Change Values Values
  | .insert row => .put (keyOf rel row) (valuesOf m row)
  | .update old new => .replace (keyOf rel old) (keyOf rel new) (valuesOf m new)
  | .delete old => .remove (keyOf rel old)

/-- Destination table of a relation with a replica identity, sorted by the identity. -/
structure Destination (rel : RelDescriptor) extends TableMapping where
  /-- The sort key is the identity. -/
  keyed : orderBy.map (fun i => columns[i]?)=(replidentKeyAttnums rel).map some
  /-- The identity has columns. -/
  identified : replidentKeyAttnums rel≠[]

/-- An image has a row's values in some columns. -/
def ImageOf (attnums : List Int16) (t : DecodedTuple) (row : SourceRow) : Prop :=
  ∀ a∈attnums,∃ v, t.columns[attIndex a]?=some (some v) ∧ row.at a=some v

/-- Heap record of a change as the source logs it, values resolved: all mapped columns of a
new row; the identity of the old row of a delete, and of an update that changes it. An
update that keeps all indexed columns may be logged as such. -/
def Logs (rel : RelDescriptor) (m : TableMapping) : RowChange→DecodedHeap→Prop
  | .insert row,heap => heap.op=.insert ∧ ∃ t, heap.new=some t ∧ ImageOf m.columns t row
  | .update old new,heap =>
    (heap.op=.update ∨ heap.op=.hotUpdate ∧ keyOf rel old=keyOf rel new) ∧
      (∃ t, heap.new=some t ∧ ImageOf m.columns t new) ∧
      (heap.old=none→keyOf rel old=keyOf rel new) ∧
      ∀ t, heap.old=some t→ImageOf (replidentKeyAttnums rel) t old
  | .delete old,heap =>
    heap.op=.delete ∧ ∃ t, heap.old=some t ∧ ImageOf (replidentKeyAttnums rel) t old

/-- The change by key, at its record. -/
def logged (rel : RelDescriptor) (m : TableMapping) (x : RowChange×DecodedHeap) :
    Logged Values Values :=
  ⟨x.2.sourceLsn.toNat,x.1.keyed rel m⟩

section Destination

variable {rel : RelDescriptor} (m : Destination rel)

theorem Destination.key_mem {a : Int16} (ha : a∈replidentKeyAttnums rel) : a∈m.columns := by
  have hmem : some a∈m.orderBy.map (fun i => m.columns[i]?) :=
    m.keyed ▸ mem_map_of_mem ha
  obtain ⟨_,_,hi⟩ := mem_map.mp hmem
  exact mem_of_getElem? hi

variable {t : DecodedTuple} {row old new : SourceRow} {heap : DecodedHeap}

theorem ImageOf.valueOf {attnums : List Int16} (h : ImageOf attnums t row) {a : Int16}
    (ha : a∈attnums) : LiveRows.valueOf (some t) a=row.at a := by
  obtain ⟨_,hcol,hrow⟩ := h a ha
  rw [LiveRows.valueOf,Option.bind_some,hcol,hrow]
  rfl

theorem ImageOf.keys (h : ImageOf m.columns t row) :
    ImageOf (replidentKeyAttnums rel) t row := fun a ha => h a (m.key_mem ha)

/-- A stored row is found under the key of the source row. -/
theorem key_appendRouted (hside : (if heap.op=.delete then heap.old else heap.new)=some t)
    (himage : ImageOf (replidentKeyAttnums rel) t row) :
    (appendRouted m.toTableMapping heap).key m.toTableMapping=keyOf rel row := by
  have hplaces : (appendRouted m.toTableMapping heap).key m.toTableMapping =
      (m.orderBy.map (fun i => m.columns[i]?)).map
        (fun a => (a.map (LiveRows.valueOf (some t))).join.map keyValue) := by
    rw [appendRouted,hside,map_map]
    refine map_congr_left (fun i _ => ?_)
    rw [getElem?_map]
    rfl
  rw [hplaces,m.keyed,map_map]
  exact map_congr_left (fun a ha => congrArg (Option.map keyValue) (himage.valueOf ha))

section

variable (hop : heap.op≠.delete) (hnew : heap.new=some t) (himage : ImageOf m.columns t row)

include hop hnew himage

theorem values_appendRouted :
    (appendRouted m.toTableMapping heap).values=valuesOf m.toTableMapping row := by
  rw [appendRouted,if_neg hop,hnew]
  exact map_congr_left (fun a ha => himage.valueOf ha)

/-- Version of a new row. -/
theorem version_new :
    (appendRouted m.toTableMapping heap).version m.toTableMapping =
      ⟨keyOf rel row,heap.sourceLsn.toNat,some (valuesOf m.toTableMapping row)⟩ := by
  have hkey := key_appendRouted m (by rw [if_neg hop]; exact hnew) (himage.keys m)
  have hvalues := values_appendRouted m hop hnew himage
  have hdeleted : (appendRouted m.toTableMapping heap).isDeleted=false := decide_eq_false hop
  rw [EmittedRow.version,hkey,hvalues,hdeleted]
  rfl

end

/-- Version of a removed row. -/
theorem version_delete (hop : heap.op=.delete) (hold : heap.old=some t)
    (himage : ImageOf (replidentKeyAttnums rel) t row) :
    (appendRouted m.toTableMapping heap).version m.toTableMapping =
      ⟨keyOf rel row,heap.sourceLsn.toNat,none⟩ := by
  have hkey := key_appendRouted m (by rw [if_pos hop]; exact hold) himage
  have hdeleted : (appendRouted m.toTableMapping heap).isDeleted=true := decide_eq_true hop
  rw [EmittedRow.version,hkey,hdeleted]
  rfl

/-- Under another key the images differ in an identity column. -/
theorem moved_of_ne {o n : DecodedTuple} (hold : ImageOf (replidentKeyAttnums rel) o old)
    (hnew : ImageOf (replidentKeyAttnums rel) n new) (hkey : keyOf rel old≠keyOf rel new) :
    moved rel false o n=true := by
  rw [keyOf,keyOf,ne_eq,map_inj_left] at hkey
  push Not at hkey
  obtain ⟨a,ha,hne⟩ := hkey
  have hdiffers : differs o n (attIndex a)=true := by
    obtain ⟨v,hcol,hrow⟩ := hold a ha
    obtain ⟨v',hcol',hrow'⟩ := hnew a ha
    rw [hrow,hrow'] at hne
    rw [differs,hcol,hcol']
    cases heq : valueEq v v' with
    | false => exact congrArg not heq
    | true => exact absurd (congrArg some (keyValue_eq_of_valueEq heq)) hne
  have hempty : ¬(replidentKeyAttnums rel).isEmpty=true :=
    fun h => ne_nil_of_mem ha (List.isEmpty_iff.mp h)
  rw [moved,if_neg hempty,Bool.not_false,Bool.true_and,any_eq_true]
  exact ⟨a,ha,hdiffers⟩

/-- An update is one row under its old key, or a delete marker and a row. -/
theorem placeHeap_update (hlogs : Logs rel m.toTableMapping (.update old new) heap) :
    (placeHeap false rel heap=[heap] ∧ keyOf rel old=keyOf rel new) ∨
      heap.op=.update ∧ ∃ o, heap.old=some o ∧ placeHeap false rel heap =
        [⟨heap.rfn,heap.xid,heap.sourceLsn-1,.delete,none,some o⟩,{heap with old := none}] := by
  obtain ⟨hop,⟨n,hn,hnew⟩,hlogged,hold⟩ := hlogs
  have hone (hsplit : takeKeyChangeTombstone heap rel=(none,heap)) :
      placeHeap false rel heap=[heap] := by
    rw [placeHeap,if_neg Bool.false_ne_true,hsplit]
  cases ho : heap.old with
  | none =>
    refine .inl ⟨hone ?_,hlogged ho⟩
    unfold takeKeyChangeTombstone
    obtain hop | ⟨hop,_⟩ := hop
    · rw [hop,ho]
    · rw [hop,ho]
  | some o =>
    obtain hop | ⟨hop,hkey⟩ := hop
    · cases hmoved : moved rel false o n with
      | false =>
        refine .inl ⟨hone ?_,?_⟩
        · unfold takeKeyChangeTombstone
          rw [hop,ho,hn]
          dsimp only
          rw [hmoved]
          rfl
        · by_contra hkey
          rw [moved_of_ne (hold o ho) (hnew.keys m) hkey] at hmoved
          cases hmoved
      | true =>
        have hsplit : takeKeyChangeTombstone heap rel =
            (some ⟨heap.rfn,heap.xid,heap.sourceLsn-1,.delete,none,some o⟩,
              {heap with old := none}) := by
          unfold takeKeyChangeTombstone
          rw [hop,ho,hn]
          dsimp only
          rw [hmoved]
          rfl
        refine .inr ⟨hop,o,rfl,?_⟩
        rw [placeHeap,if_neg Bool.false_ne_true,hsplit]
    · refine .inl ⟨hone ?_,hkey⟩
      have hempty : ¬(replidentKeyAttnums rel).isEmpty=true :=
        fun h => m.identified (List.isEmpty_iff.mp h)
      unfold takeKeyChangeTombstone
      rw [hop,ho,hn]
      dsimp only
      rw [moved,if_neg hempty]
      rfl

/-- The rows emitted for a change are the versions it writes, perhaps with a marker its row
replaces. -/
theorem writes_rowsOf {c : RowChange} (hlogs : Logs rel m.toTableMapping c heap)
    (hpos : 0<heap.sourceLsn.toNat) :
    Writes (fun w => ∃ r∈rowsOf rel m.toTableMapping heap,r.version m.toTableMapping=w)
      (·∈(logged rel m.toTableMapping (c,heap)).versions) := by
  have hplace : heap.op=.insert ∨ heap.op=.delete→placeHeap false rel heap=[heap] := by
    intro hop
    rw [placeHeap,if_neg Bool.false_ne_true,takeKeyChangeTombstone]
    obtain hop | hop := hop <;> rw [hop]
  cases c with
  | insert =>
    obtain ⟨hop,_,hnew,himage⟩ := hlogs
    refine writes_of_map ?_
    rw [rowsOf,hplace (.inl hop),map_singleton,map_singleton,
      version_new m (by rw [hop]; decide) hnew himage]
    rfl
  | update old new =>
    have hplace := placeHeap_update m hlogs
    obtain ⟨hop,⟨t,hnew,himage⟩,_,hold⟩ := hlogs
    have hlive : heap.op≠.delete := by
      obtain hop | ⟨hop,_⟩ := hop <;> rw [hop] <;> decide
    obtain ⟨hplace,hkey⟩ | ⟨hop,o,ho,hplace⟩ := hplace
    · refine writes_of_map ?_
      rw [rowsOf,hplace,map_singleton,map_singleton,version_new m hlive hnew himage]
      dsimp only [logged,Logged.versions,RowChange.keyed]
      rw [if_pos hkey,nil_append]
    · have hbelow : (heap.sourceLsn-1).toNat=heap.sourceLsn.toNat-1 :=
        UInt64.toNat_sub_of_le _ _ (UInt64.le_iff_toNat_le.mpr hpos)
      have htomb := @version_delete rel m o old
        ⟨heap.rfn,heap.xid,heap.sourceLsn-1,.delete,none,some o⟩ rfl rfl (hold o ho)
      have hrow := @version_new rel m t new {heap with old := none} hlive hnew himage
      have hrows : (rowsOf rel m.toTableMapping heap).map (EmittedRow.version m.toTableMapping) =
          [⟨keyOf rel old,heap.sourceLsn.toNat-1,none⟩,
            ⟨keyOf rel new,heap.sourceLsn.toNat,some (valuesOf m.toTableMapping new)⟩] := by
        rw [rowsOf,hplace,map_cons,map_cons,map_singleton,map_singleton,htomb,hrow,hbelow]
      by_cases hkey : keyOf rel old=keyOf rel new
      · have hversions : (logged rel m.toTableMapping (.update old new,heap)).versions =
            [⟨keyOf rel new,heap.sourceLsn.toNat,some (valuesOf m.toTableMapping new)⟩] := by
          dsimp only [logged,Logged.versions,RowChange.keyed]
          rw [if_pos hkey,nil_append]
        rw [hversions]
        refine ⟨fun w hw => mem_map.mp (hrows ▸ mem_cons_of_mem _ hw),fun w hw => ?_⟩
        obtain rfl | hw := mem_cons.mp (hrows ▸ mem_map.mpr hw)
        · exact .inr ⟨_,mem_singleton_self _,hkey.symm,Nat.sub_lt hpos Nat.one_pos⟩
        · exact .inl hw
      · refine writes_of_map (hrows.trans ?_)
        dsimp only [logged,Logged.versions,RowChange.keyed]
        rw [if_neg hkey]
        rfl
  | delete =>
    obtain ⟨hop,_,hold,himage⟩ := hlogs
    refine writes_of_map ?_
    rw [rowsOf,hplace (.inr hop),map_singleton,map_singleton,version_delete m hop hold himage]
    rfl

/-- Rows emitted for changes, whatever they are kept with. -/
theorem writes_rows {ι : Type} {xs : List ι} {changeOf : ι→RowChange}
    {heapOf : ι→DecodedHeap}
    (h : ∀ x∈xs,Logs rel m.toTableMapping (changeOf x) (heapOf x) ∧ 0<(heapOf x).sourceLsn.toNat) :
    Writes (fun w => ∃ r∈xs.flatMap (fun x => rowsOf rel m.toTableMapping (heapOf x)),
        r.version m.toTableMapping=w)
      (·∈versionsOf (xs.map (fun x => logged rel m.toTableMapping (changeOf x,heapOf x)))) where
  all := by
    intro w hw
    obtain ⟨_,hc,hw⟩ := mem_versionsOf.mp hw
    obtain ⟨x,hx,rfl⟩ := mem_map.mp hc
    obtain ⟨r,hr,hversion⟩ := (writes_rowsOf m (h x hx).1 (h x hx).2).all w hw
    exact ⟨r,mem_flatMap.mpr ⟨x,hx,hr⟩,hversion⟩
  only := by
    rintro w ⟨r,hr,hversion⟩
    obtain ⟨x,hx,hr⟩ := mem_flatMap.mp hr
    have hin : ∀ w'∈(logged rel m.toTableMapping (changeOf x,heapOf x)).versions,
        w'∈versionsOf (xs.map (fun x => logged rel m.toTableMapping (changeOf x,heapOf x))) :=
      fun w' hw' => mem_versionsOf.mpr ⟨_,mem_map_of_mem hx,hw'⟩
    obtain hw | ⟨w',hw',hless⟩ := (writes_rowsOf m (h x hx).1 (h x hx).2).only w ⟨r,hr,hversion⟩
    · exact .inl (hin w hw)
    · exact .inr ⟨w',hin w' hw',hless⟩

/-- Rows of another kind beside them. -/
theorem writes_beside {sent rows : List EmittedRow} {Other : EmittedRow→Prop}
    {meant : Version Values Values→Prop} (hsent : ∀ r, r∈sent ↔ Other r ∨ r∈rows)
    (h : Writes (fun w => ∃ r∈rows,r.version m.toTableMapping=w) meant) :
    Writes (fun w => ∃ r∈sent,r.version m.toTableMapping=w)
      (fun w => (∃ r, Other r ∧ r.version m.toTableMapping=w) ∨ meant w) where
  all := by
    rintro w (⟨r,hr,hw⟩ | hw)
    · exact ⟨r,(hsent r).mpr (.inl hr),hw⟩
    · obtain ⟨r,hr,hw⟩ := h.all w hw
      exact ⟨r,(hsent r).mpr (.inr hr),hw⟩
  only := by
    rintro w ⟨r,hr,hw⟩
    obtain hother | hr := (hsent r).mp hr
    · exact .inl (.inl ⟨r,hother,hw⟩)
    · obtain hin | ⟨w',hin,hless⟩ := h.only w ⟨r,hr,hw⟩
      · exact .inl (.inr hin)
      · exact .inr ⟨w',.inr hin,hless⟩

/-- A row is stamped with its record or one below. -/
theorem lsn_rowsOf {r : EmittedRow} (hpos : 0<heap.sourceLsn.toNat)
    (hr : r∈rowsOf rel m.toTableMapping heap) : heap.sourceLsn.toNat≤r.lsn.toNat+1 := by
  have hbelow : (heap.sourceLsn-1).toNat=heap.sourceLsn.toNat-1 :=
    UInt64.toNat_sub_of_le _ _ (UInt64.le_iff_toNat_le.mpr hpos)
  have hplaced : ∀ p∈placeHeap false rel heap,heap.sourceLsn.toNat≤p.sourceLsn.toNat+1 := by
    rw [placeHeap,if_neg Bool.false_ne_true]
    unfold takeKeyChangeTombstone
    grind
  obtain ⟨p,hp,rfl⟩ := mem_map.mp hr
  exact hplaced p hp

end Destination

/-- Committed changes of a relation in the order of their commits, with their records. -/
structure History (rel : RelDescriptor) (m : Destination rel) where
  changes : List (RowChange×DecodedHeap)
  /-- Each record is the change's. -/
  logs : ∀ x∈changes,Logs rel m.toTableMapping x.1 x.2
  /-- The identity stays unique. -/
  possible : Possible (fun _ => none) (changes.map (logged rel m.toTableMapping))
  /-- Rows are locked while they are changed. -/
  locked : Locked (changes.map (logged rel m.toTableMapping))

namespace History

variable {rel : RelDescriptor} {m : Destination rel}

/-- The changes by key. -/
def keyed (h : History rel m) : List (Logged Values Values) :=
  h.changes.map (logged rel m.toTableMapping)

/-- Rows emitted for a history. -/
def emitted (h : History rel m) : List EmittedRow :=
  h.changes.flatMap (fun x => rowsOf rel m.toTableMapping x.2)

/-- The source table after the last commit. -/
def table (h : History rel m) : Values→Option Values := tableAfter (fun _ => none) h.keyed

/-- The rows emitted write the versions of the changes. -/
theorem writes (h : History rel m) :
    Writes (fun w => ∃ r∈h.emitted,r.version m.toTableMapping=w) (·∈versionsOf h.keyed) :=
  writes_rows m (fun x hx => ⟨h.logs x hx,(h.locked.aligned _ (mem_map_of_mem hx)).2⟩)

end History

/-- Rows in a destination leave every key with the value of a table. -/
def Converged {rel : RelDescriptor} (m : Destination rel) (sent : List EmittedRow)
    (table : Values→Option Values) : Prop :=
  ∀ k, Settles (fun w => ∃ r∈sent,r.version m.toTableMapping=w) k (table k)

/-- The rows emitted for a history, inserted in any order and any of them repeatedly,
converge to the source table just where every row that stays under a key it entered was
logged after the records that were about the key before. -/
theorem live_rows_converge_iff {rel : RelDescriptor} {m : Destination rel} (h : History rel m) :
    (∀ sent : List EmittedRow, (∀ r, r∈sent ↔ r∈h.emitted) → Converged m sent h.table) ↔
      EntersLast h.keyed := by
  have hsame : ∀ sent : List EmittedRow, (∀ r, r∈sent ↔ r∈h.emitted) →
      (Converged m sent h.table ↔ ∀ k, Settles (·∈versionsOf h.keyed) k (h.table k)) := by
    intro sent hsent
    have hwritten : (fun w => ∃ r∈sent,r.version m.toTableMapping=w) =
        fun w => ∃ r∈h.emitted,r.version m.toTableMapping=w :=
      funext fun w => propext (exists_congr fun r => and_congr_left' (hsent r))
    rw [Converged,hwritten]
    exact forall_congr' fun k => h.writes.settles_iff
  constructor
  · intro hconverge
    exact entersLast_of_settles h.possible h.locked
      ((hsame h.emitted (fun _ => Iff.rfl)).mp (hconverge h.emitted (fun _ => Iff.rfl)))
  · intro hlast sent hsent
    exact (hsame sent hsent).mpr (settles_of_entersLast h.locked hlast)

/-- Table with its one column as primary key. -/
def keyTable : RelDescriptor := {namedTable "id" with replident := .default (some [1])}

/-- Its destination. -/
def keyDestination : Destination keyTable where
  columns := [1]
  orderBy := [0]
  keyed := by decide
  identified := by decide

/-- Row with key 7. -/
def seven : SourceRow := [.int4 7]

/-- Image of the row. -/
def sevenImage : DecodedTuple := ⟨[some (.int4 7)],false⟩

/-- Record that adds the row. -/
def sevenInserted (lsn : UInt64) : DecodedHeap :=
  ⟨keyTable.rfn,1,lsn,.insert,some sevenImage,none⟩

/-- Record that removes the row. -/
def sevenDeleted (lsn : UInt64) : DecodedHeap :=
  ⟨keyTable.rfn,2,lsn,.delete,none,some sevenImage⟩

theorem sevenImage_of : ImageOf [1] sevenImage seven := by
  intro a ha
  obtain rfl := mem_singleton.mp ha
  exact ⟨.int4 7,rfl,rfl⟩

/-- A row is added; while one transaction logs its own row under that key at 16, another
removes the first at 24 and commits; the key is free then, and the new row commits. -/
def overtaken : History keyTable keyDestination where
  changes := [(.insert seven,sevenInserted 8),(.delete seven,sevenDeleted 24),
    (.insert seven,sevenInserted 16)]
  logs := by
    intro x hx
    simp only [List.mem_cons,List.not_mem_nil,or_false] at hx
    obtain rfl | rfl | rfl := hx
    · exact ⟨rfl,_,rfl,sevenImage_of⟩
    · exact ⟨rfl,_,rfl,sevenImage_of⟩
    · exact ⟨rfl,_,rfl,sevenImage_of⟩
  possible := ⟨rfl,fun hfree => Option.some_ne_none (valuesOf keyDestination.toTableMapping seven) hfree,
    rfl,trivial⟩
  locked := by
    refine ⟨by decide,?_,?_⟩
    · refine List.pairwise_cons.mpr ⟨?_,List.pairwise_cons.mpr ⟨?_,List.pairwise_singleton _ _⟩⟩
      · intro c hc k hacts _
        simp only [List.map_cons,List.map_nil,List.mem_cons,List.not_mem_nil,or_false] at hc
        obtain rfl | rfl := hc
        · decide
        · exact hacts.elim
      · intro c hc k hacts _
        obtain rfl := List.mem_singleton.mp hc
        exact hacts.elim
    · refine List.pairwise_cons.mpr ⟨?_,List.pairwise_cons.mpr ⟨?_,List.pairwise_singleton _ _⟩⟩
      · intro c hc k _ _
        simp only [List.map_cons,List.map_nil,List.mem_cons,List.not_mem_nil,or_false] at hc
        obtain rfl | rfl := hc
        · decide
        · decide
      · intro c hc k _ _
        obtain rfl := List.mem_singleton.mp hc
        decide

/-- The row is in the source and is lost in the destination: the delete of its predecessor
has the greater stamp. -/
theorem reused_key_lost :
    overtaken.table [some (.int4 7)]=some [some (.int4 7)] ∧
      ¬Converged keyDestination overtaken.emitted overtaken.table := by
  have htable : overtaken.table [some (.int4 7)]=some [some (.int4 7)] := by decide
  refine ⟨htable,fun hconverged => ?_⟩
  have hkey := hconverged [some (.int4 7)]
  have hgreatest : ∀ r∈overtaken.emitted,
      (r.version keyDestination.toTableMapping).stamp≤24 := by decide
  have hvalue := hkey.value_eq (w := ⟨[some (.int4 7)],24,none⟩)
    ⟨appendRouted keyDestination.toTableMapping (sevenDeleted 24),by decide,by decide⟩ rfl
    (fun w' hw' _ => by
      obtain ⟨r,hr,rfl⟩ := hw'
      exact hgreatest r hr)
  cases hvalue

end Walshadow.LiveRows
