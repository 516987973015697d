import Walshadow.TupleVisibility

/-!
# Walking a relation segment

A segment's bytes arrive in chunks. Whole pages are walked slab by slab, with at most one
walk in flight, and the rest of a page is carried into the next slab. The decoder of a
tuple is a parameter.
-/

namespace Walshadow.SegmentWalk

open Records TupleVisibility ByteCodec List

def pageBytes : ℕ := 8192
def relsegBlocks : ℕ := 131072
def slabBytes : ℕ := 64*pageBytes
def sizeOfPageHeader : ℕ := 24
def sizeOfItemId : ℕ := 4
def lpNormal : ℕ := 1

/-- Saturating sum of block numbers. -/
def saturatingAdd (a b : ℕ) : ℕ := min (a+b) (2^32-1)

variable {C : Type}

/-- Where a tuple was, and its columns. -/
structure Place (C : Type) where
  sourceLsn : Lsn
  blkno : ℕ
  /-- Counted from one. -/
  offnum : ℕ
  columns : C

/-- What slabs are walked against. -/
structure WalkTarget (C : Type) where
  rfn : RelFileNode
  lsn : Lsn
  decodeOnPageTuple : List UInt8→Option (Xid×Xid×UInt16×C)

/-- What became of a line pointer. -/
inductive Slot (C : Type) where
  | skippedLpFlag
  | skippedTruncated
  | emitted (t : BackfillTuple (Place C))

/-- Read one line pointer. -/
def walkSlot (t : WalkTarget C) (page : List UInt8) (block i : ℕ) : Slot C :=
  let raw := ofLe ((page.drop (sizeOfPageHeader+i*sizeOfItemId)).take 4)
  let lpOff := raw%2^15
  let lpFlags := raw/2^15%4
  let lpLen := raw/2^17%2^15
  if lpFlags≠lpNormal then .skippedLpFlag
  else if pageBytes<lpOff+lpLen ∨ lpLen=0 then .skippedTruncated
  else
    match t.decodeOnPageTuple ((page.drop lpOff).take lpLen) with
    | some (xid,xmax,infomask,columns) =>
      .emitted ⟨t.rfn,xid,xmax,infomask,t.lsn,block,i+1,columns⟩
    | none => .skippedTruncated

/-- Slots of one page, `none` for a page that is rejected. -/
def walkPage (t : WalkTarget C) (page : List UInt8) (block : ℕ) : Option (List (Slot C)) :=
  let pdLower := ofLe ((page.drop 12).take 2)
  let pdUpper := ofLe ((page.drop 14).take 2)
  if page.length<sizeOfPageHeader then none
  else if pdUpper=0 ∧ page.all (· == 0) then some []
  else if pdLower=sizeOfPageHeader ∧ pdUpper=pageBytes then some []
  else if pdLower<sizeOfPageHeader ∨ pageBytes<pdUpper ∨ pdUpper<pdLower then none
  else some ((range ((pdLower-sizeOfPageHeader)/sizeOfItemId)).map (walkSlot t page block))

/-- Walked pages by block number. -/
abbrev Walked (C : Type) := List (ℕ×Option (List (Slot C)))

/-- Walk the first pages of a slab. -/
def walkSlab (t : WalkTarget C) (first full : ℕ) (slab : List UInt8) : Walked C :=
  (range full).map (fun i => (saturatingAdd first i,
    walkPage t ((slab.drop (i*pageBytes)).take pageBytes) (saturatingAdd first i)))

/-- Walk of one segment. -/
structure PageWalkEntry (C : Type) where
  /-- Block of the slab's first page. -/
  blockNo : ℕ
  slab : List UInt8
  /-- Absent where pages are only counted. -/
  walk : Option (WalkTarget C)
  /-- Walk in flight. -/
  pending : Option (Walked C)
  /-- Pages whose tuples were handed on. -/
  shipped : Walked C
  /-- Pages counted without a walk. -/
  counted : ℕ
  tailBytesDropped : ℕ

/-- Open a segment. -/
def begin (walk : Option (WalkTarget C)) (segno : ℕ) : PageWalkEntry C :=
  ⟨min (segno*relsegBlocks) (2^32-1),[],walk,none,[],0,0⟩

namespace PageWalkEntry

/-- Hand on the walk in flight. -/
def joinPending (e : PageWalkEntry C) : PageWalkEntry C :=
  {e with pending := none, shipped := e.shipped++e.pending.getD []}

/-- Walk the whole pages of the slab. -/
def drainSlab (e : PageWalkEntry C) : PageWalkEntry C :=
  let full := e.slab.length/pageBytes
  if full=0 then e
  else
    let rest := e.slab.drop (full*pageBytes)
    match e.walk with
    | none => {e with
        blockNo := saturatingAdd e.blockNo full
        counted := e.counted+full
        slab := rest}
    | some t => {e.joinPending with
        blockNo := saturatingAdd e.blockNo full
        slab := rest
        pending := some (walkSlab t e.blockNo full (e.slab.take (full*pageBytes)))}

/-- Take in bytes, walking once a slab is full. -/
def chunk (e : PageWalkEntry C) (bytes : List UInt8) : PageWalkEntry C :=
  let e := {e with slab := e.slab++bytes}
  if slabBytes≤e.slab.length then e.drainSlab else e

/-- Close the segment. -/
def finish (e : PageWalkEntry C) : PageWalkEntry C :=
  let e := e.drainSlab.joinPending
  {e with tailBytesDropped := e.slab.length}

end PageWalkEntry

/-- Blocks counted in parts. -/
theorem saturatingAdd_add (a b c : ℕ) :
    saturatingAdd (saturatingAdd a b) c=saturatingAdd a (b+c) := by
  unfold saturatingAdd
  omega

/-- A slab walked in parts. -/
theorem walkSlab_add (t : WalkTarget C) (first n m : ℕ) (b : List UInt8) :
    walkSlab t first (n+m) b =
      walkSlab t first n b++walkSlab t (saturatingAdd first n) m (b.drop (n*pageBytes)) := by
  simp only [walkSlab,range_add,map_append,map_map,Function.comp_def,drop_drop,add_mul,
    saturatingAdd_add]

/-- Whole pages do not depend on the bytes behind them. -/
theorem walkSlab_append (t : WalkTarget C) (first n : ℕ) (b c : List UInt8)
    (h : n*pageBytes≤b.length) : walkSlab t first n (b++c)=walkSlab t first n b := by
  refine map_congr_left (fun i hi => ?_)
  have hpage : i*pageBytes+pageBytes≤b.length := by
    have hle := Nat.mul_le_mul_right pageBytes (mem_range.mp hi)
    rw [Nat.succ_mul] at hle
    omega
  rw [drop_append_of_le_length (by omega),take_append_of_le_length (by rw [length_drop]; omega)]

/-- After some bytes, their first `n` pages are walked or in flight, or counted. -/
structure Fed (walk : Option (WalkTarget C)) (first : ℕ) (bytes : List UInt8) (n : ℕ)
    (e : PageWalkEntry C) : Prop where
  walk_eq : e.walk=walk
  blockNo_eq : e.blockNo=saturatingAdd first n
  covers : n*pageBytes≤bytes.length
  slab_eq : e.slab=bytes.drop (n*pageBytes)
  walked : e.shipped++e.pending.getD []=walk.elim [] (fun t => walkSlab t first n bytes)
  counted_eq : e.counted=walk.elim n (fun _ => 0)

variable {walk : Option (WalkTarget C)} {first n : ℕ} {bytes : List UInt8} {e : PageWalkEntry C}

/-- Draining the slab walks every whole page so far. -/
theorem Fed.drainSlab (h : Fed walk first bytes n e) :
    Fed walk first bytes (bytes.length/pageBytes) e.drainSlab := by
  have hlen : bytes.length=n*pageBytes+e.slab.length := by
    rw [h.slab_eq,length_drop]
    have := h.covers
    omega
  have hn : n+e.slab.length/pageBytes=bytes.length/pageBytes := by
    rw [hlen,Nat.mul_comm,Nat.mul_add_div (by decide)]
  have hcovers := Nat.div_mul_le_self bytes.length pageBytes
  unfold PageWalkEntry.drainSlab
  rw [←hn] at hcovers ⊢
  dsimp only
  split_ifs with hfull
  · rw [hfull]
    exact h
  · have hrest : e.slab.drop (e.slab.length/pageBytes*pageBytes) =
        bytes.drop ((n+e.slab.length/pageBytes)*pageBytes) := by
      rw [add_mul,←drop_drop,←h.slab_eq]
    have hblock := congrArg (saturatingAdd · (e.slab.length/pageBytes)) h.blockNo_eq
    rw [saturatingAdd_add] at hblock
    rw [h.walk_eq]
    cases walk with
    | none => exact ⟨rfl,hblock,hcovers,hrest,h.walked,congrArg (·+_) h.counted_eq⟩
    | some t =>
      refine ⟨h.walk_eq,hblock,hcovers,hrest,?_,h.counted_eq⟩
      have hslab := walkSlab_append t e.blockNo (e.slab.length/pageBytes)
        (e.slab.take (e.slab.length/pageBytes*pageBytes))
        (e.slab.drop (e.slab.length/pageBytes*pageBytes))
        (by rw [length_take,Nat.min_eq_left (Nat.div_mul_le_self _ _)])
      rw [take_append_drop] at hslab
      change (e.shipped++e.pending.getD [])++walkSlab t _ _ _=walkSlab t first _ bytes
      rw [h.walked,←hslab,walkSlab_add,←h.slab_eq,h.blockNo_eq]
      rfl

/-- A chunk adds its bytes. -/
theorem Fed.chunk (h : Fed walk first bytes n e) (c : List UInt8) :
    ∃ m,Fed walk first (bytes++c) m (e.chunk c) := by
  have hgrown : Fed walk first (bytes++c) n {e with slab := e.slab++c} := by
    refine {h with covers := ?_, slab_eq := ?_, walked := ?_}
    · rw [length_append]
      exact Nat.le_add_right_of_le h.covers
    · rw [drop_append_of_le_length h.covers,←h.slab_eq]
    · rw [h.walked]
      cases walk with
      | none => rfl
      | some t => exact (walkSlab_append t first n bytes c h.covers).symm
  unfold PageWalkEntry.chunk
  dsimp only
  split_ifs
  · exact ⟨_,hgrown.drainSlab⟩
  · exact ⟨n,hgrown⟩

/-- Chunks add their bytes. -/
theorem Fed.chunks (h : Fed walk first bytes n e) (cs : List (List UInt8)) :
    ∃ m,Fed walk first (bytes++cs.flatten) m (cs.foldl PageWalkEntry.chunk e) := by
  induction cs generalizing bytes n e with
  | nil => exact ⟨n,by rwa [flatten_nil,append_nil]⟩
  | cons c _ ih =>
    obtain ⟨m,hm⟩ := h.chunk c
    rw [flatten_cons,←append_assoc]
    exact ih hm

/-- However a segment is cut into chunks, it is walked as a whole: page `i` under block
`segno*relsegBlocks+i`, in order, with the same slots handed on, skipped and rejected. -/
theorem segment_walked (walk : Option (WalkTarget C)) (segno : ℕ) (cs : List (List UInt8)) :
    (cs.foldl PageWalkEntry.chunk (begin walk segno)).finish =
      let first := min (segno*relsegBlocks) (2^32-1)
      let full := cs.flatten.length/pageBytes
      {blockNo := saturatingAdd first full
       slab := cs.flatten.drop (full*pageBytes)
       walk := walk
       pending := none
       shipped := walk.elim [] (fun t => (range full).map (fun i =>
         let block := min (segno*relsegBlocks+i) (2^32-1)
         (block,walkPage t ((cs.flatten.drop (i*pageBytes)).take pageBytes) block)))
       counted := walk.elim full (fun _ => 0)
       tailBytesDropped := cs.flatten.length%pageBytes} := by
  have hbegin : Fed walk (min (segno*relsegBlocks) (2^32-1)) [] 0 (begin walk segno) := by
    refine ⟨rfl,?_,Nat.zero_le _,rfl,?_,?_⟩
    · simp [begin,saturatingAdd]
    · cases walk <;> rfl
    · cases walk <;> rfl
  obtain ⟨m,hm⟩ := hbegin.chunks cs
  have hend := hm.drainSlab
  have hblock (i : ℕ) : saturatingAdd (min (segno*relsegBlocks) (2^32-1)) i =
      min (segno*relsegBlocks+i) (2^32-1) := by
    unfold saturatingAdd
    omega
  unfold PageWalkEntry.finish PageWalkEntry.joinPending
  simp only [hend.walked,hend.walk_eq,hend.blockNo_eq,hend.slab_eq,hend.counted_eq,walkSlab,hblock,
    length_drop,nil_append,←Nat.mod_eq_sub_div_mul]

end Walshadow.SegmentWalk
