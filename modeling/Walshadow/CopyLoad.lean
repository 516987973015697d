import Walshadow.LiveRows

/-!
# Initial load by COPY

A table is read in chunks of heap blocks, each under its own snapshot at or after the
selection point, and every row read is stamped with that point; live rows keep the
positions of their records. The two converge where every live record lies above the
selection point. An empty table is one read of the whole relation that answers nothing.
-/

namespace Walshadow.CopyLoad

open Records RowVersions LiveRows List

/-- Half-open range of heap blocks; without an end it is read to the end of the relation. -/
structure BlockRange where
  start : ℕ
  stop : Option ℕ
deriving DecidableEq

/-- Whether a block is read. -/
def BlockRange.has (r : BlockRange) (block : ℕ) : Prop :=
  r.start≤block ∧ ∀ stop, r.stop=some stop→block<stop

/-- One chunk and the snapshot it was read under. -/
structure ChunkRead where
  range : BlockRange
  /-- Commits up to here are seen. -/
  snapshot : ℕ
deriving DecidableEq

/-- Chunks of one pass, the cursor it noted and whether it reached the relation's end. -/
structure PassReads where
  reads : List ChunkRead
  /-- Last block noted as the next to read. -/
  noted : Option ℕ
  /-- The relation was read to its end. -/
  done : Bool

/-- Chunks read from a block on, each under a snapshot, with the position of the check
after it that the relation was not rewritten; without a next snapshot the pass is cut. -/
def copyChunks (nodeAt : ℕ→ℕ) (chunk node blocks : ℕ) : ℕ→List (ℕ×ℕ)→PassReads
  | _,[] => ⟨[],none,false⟩
  | start,(p,q)::steps =>
    if start+chunk<blocks then
      if nodeAt q=node then
        let rest := copyChunks nodeAt chunk node blocks (start+chunk) steps
        ⟨⟨⟨start,some (start+chunk)⟩,p⟩::rest.reads,rest.noted.or (some (start+chunk)),rest.done⟩
      else ⟨[⟨⟨start,some (start+chunk)⟩,p⟩],none,false⟩
    else ⟨[⟨⟨start,none⟩,p⟩],none,true⟩

/-- One pass over the relation. -/
inductive Attempt where
  /-- The relation is found empty. -/
  | empty (p : ℕ)
  /-- Storage and blocks are looked up, then chunks are read. -/
  | pass (extent blocks : ℕ) (steps : List (ℕ×ℕ))

/-- Storage file and the next block to read of it. -/
abbrev CopyCursor := ℕ×ℕ

/-- Block a pass over a file starts at. -/
def startOf (cursor : Option CopyCursor) (node : ℕ) : ℕ :=
  match cursor with
  | some c => if c.1=node then c.2 else 0
  | none => 0

/-- Chunks read over passes, and whether the load is done. -/
def copyAttempts (nodeAt : ℕ→ℕ) (chunk : ℕ) : Option CopyCursor→List Attempt →
    List ChunkRead×Bool
  | _,[] => ([],false)
  | _,.empty p::_ => ([⟨⟨0,none⟩,p⟩],true)
  | cursor,.pass extent blocks steps::as =>
    let node := nodeAt extent
    let pass := copyChunks nodeAt chunk node blocks (startOf cursor node) steps
    if pass.done then (pass.reads,true)
    else
      let rest := copyAttempts nodeAt chunk ((pass.noted.map (node,·)).or cursor) as
      (pass.reads++rest.1,rest.2)

/-- No rewrite falls between a check of the storage file and the chunk read after it. -/
def Steady (nodeAt : ℕ→ℕ) : ℕ→List (ℕ×ℕ)→Prop
  | _,[] => True
  | checked,(p,q)::steps => nodeAt p=nodeAt checked ∧ Steady nodeAt q steps

/-- The passes of a load are so. -/
def SteadyLoad (nodeAt : ℕ→ℕ) (as : List Attempt) : Prop :=
  ∀ extent blocks steps, Attempt.pass extent blocks steps∈as→Steady nodeAt extent steps

section Coverage

variable {nodeAt : ℕ→ℕ} {chunk : ℕ}

/-- A chunk of the file has the block. -/
def Reads (nodeAt : ℕ→ℕ) (reads : List ChunkRead) (node block : ℕ) : Prop :=
  ∃ read∈reads,nodeAt read.snapshot=node ∧ read.range.has block

/-- A check that still finds the file found it before the read. -/
def Bracketed (nodeAt : ℕ→ℕ) (node : ℕ) : List (ℕ×ℕ)→Prop
  | [] => True
  | (p,q)::steps => nodeAt q=node→nodeAt p=node ∧ Bracketed nodeAt node steps

/-- A read to the end of the relation finds the file the pass started with. -/
def EndsIn (nodeAt : ℕ→ℕ) (node : ℕ) (reads : List ChunkRead) : Prop :=
  ∀ read∈reads,read.range.stop=none→nodeAt read.snapshot=node

/-- A pass covers the blocks from its start to the cursor it noted, and all of them where it
is done. -/
theorem copyChunks_covers {node blocks start : ℕ} {steps : List (ℕ×ℕ)}
    (hkept : Bracketed nodeAt node steps)
    (hends : EndsIn nodeAt node (copyChunks nodeAt chunk node blocks start steps).reads) {block : ℕ}
    (hblock : start≤block) (hreached : (copyChunks nodeAt chunk node blocks start steps).done ∨
      ∃ next, (copyChunks nodeAt chunk node blocks start steps).noted=some next ∧ block<next) :
    Reads nodeAt (copyChunks nodeAt chunk node blocks start steps).reads node block := by
  induction steps generalizing start with
  | nil =>
    obtain hdone | ⟨_,hnext,_⟩ := hreached
    · cases hdone
    · cases hnext
  | cons _ steps ih =>
    unfold copyChunks at hreached hends ⊢
    split_ifs at hreached hends ⊢ with hmore hq
    · obtain ⟨hread,hrest⟩ := hkept hq
      by_cases hin : block<start+chunk
      · refine ⟨_,mem_cons_self,hread,hblock,fun stop hstop => ?_⟩
        exact Option.some.inj hstop ▸ hin
      · have hlater : (copyChunks nodeAt chunk node blocks (start+chunk) steps).done ∨
            ∃ next, (copyChunks nodeAt chunk node blocks (start+chunk) steps).noted=some next ∧
              block<next := by
          obtain hdone | ⟨next,hnext,hlt⟩ := hreached
          · exact .inl hdone
          · refine .inr ⟨next,?_,hlt⟩
            obtain hnoted | ⟨_,hnoted⟩ := Option.or_eq_some_iff.mp hnext
            · exact hnoted
            · exact absurd (Option.some.inj hnoted ▸ hlt) hin
        obtain ⟨read,hmem,hnode,hhas⟩ := ih hrest
          (fun read hmem => hends read (mem_cons_of_mem _ hmem)) (Nat.le_of_not_lt hin) hlater
        exact ⟨read,mem_cons_of_mem _ hmem,hnode,hhas⟩
    · obtain hdone | ⟨_,hnext,_⟩ := hreached
      · cases hdone
      · cases hnext
    · exact ⟨_,mem_cons_self,hends _ mem_cons_self rfl,hblock,nofun⟩

/-- Chunks read so far cover the blocks before the cursor. -/
def CoveredTo (nodeAt : ℕ→ℕ) (reads : List ChunkRead) (cursor : Option CopyCursor) : Prop :=
  ∀ c, cursor=some c→∀ block<c.2, Reads nodeAt reads c.1 block

theorem Reads.append_right {xs ys : List ChunkRead} {node block : ℕ} (h : Reads nodeAt xs node block) :
    Reads nodeAt (xs++ys) node block := by
  obtain ⟨read,hmem,hhas⟩ := h
  exact ⟨read,mem_append_left ys hmem,hhas⟩

theorem Reads.append_left {xs ys : List ChunkRead} {node block : ℕ} (h : Reads nodeAt ys node block) :
    Reads nodeAt (xs++ys) node block := by
  obtain ⟨read,hmem,hhas⟩ := h
  exact ⟨read,mem_append_right xs hmem,hhas⟩

variable {before : List ChunkRead}

/-- With the blocks before its start a pass covers all blocks it reached. -/
theorem pass_covers {cursor : Option CopyCursor} (hbefore : CoveredTo nodeAt before cursor)
    {node blocks : ℕ} {steps : List (ℕ×ℕ)} (hkept : Bracketed nodeAt node steps) {block : ℕ} :
    let pass := copyChunks nodeAt chunk node blocks (startOf cursor node) steps
    EndsIn nodeAt node pass.reads →
    (pass.done ∨ ∃ next, pass.noted=some next ∧ block<next) →
      Reads nodeAt (before++pass.reads) node block := by
  intro pass hends hreached
  by_cases hstart : startOf cursor node≤block
  · exact (copyChunks_covers hkept hends hstart hreached).append_left
  · cases cursor with
    | none => exact absurd (Nat.zero_le _) hstart
    | some c =>
      unfold startOf at hstart
      dsimp only at hstart
      split_ifs at hstart with hnode
      · have hread := hbefore c rfl block (Nat.lt_of_not_le hstart)
        exact (hnode ▸ hread).append_right
      · exact absurd (Nat.zero_le _) hstart

/-- The read that ends a load finds the file checked last, unless it is the whole relation. -/
def EndChecked (nodeAt : ℕ→ℕ) (chunk : ℕ) : Option CopyCursor→List Attempt→Prop
  | cursor,.pass extent blocks steps::as =>
    let node := nodeAt extent
    let pass := copyChunks nodeAt chunk node blocks (startOf cursor node) steps
    (EndsIn nodeAt node pass.reads ∨ pass.done ∧ ∃ p, ⟨⟨0,none⟩,p⟩∈pass.reads) ∧
      EndChecked nodeAt chunk ((pass.noted.map (node,·)).or cursor) as
  | _,_ => True

/-- A load that is done has read every block of one storage file. -/
theorem copyAttempts_covers {cursor : Option CopyCursor} {as : List Attempt}
    (hkept : ∀ extent blocks steps, Attempt.pass extent blocks steps∈as →
      Bracketed nodeAt (nodeAt extent) steps)
    (hends : EndChecked nodeAt chunk cursor as) (hbefore : CoveredTo nodeAt before cursor)
    (hdone : (copyAttempts nodeAt chunk cursor as).2=true) :
    ∃ node, ∀ block, Reads nodeAt (before++(copyAttempts nodeAt chunk cursor as).1) node block := by
  induction as generalizing before cursor with
  | nil => cases hdone
  | cons a _ ih =>
    cases a with
    | empty p =>
      refine ⟨nodeAt p,fun block => Reads.append_left ⟨_,mem_singleton_self _,rfl,?_⟩⟩
      exact ⟨Nat.zero_le _,nofun⟩
    | pass extent blocks steps =>
      obtain ⟨hend,hlater⟩ := hends
      have hcovers := fun block => @pass_covers nodeAt chunk before cursor hbefore (nodeAt extent)
        blocks steps (hkept extent blocks steps mem_cons_self) block
      unfold copyAttempts at hdone ⊢
      dsimp only at hdone ⊢
      generalize copyChunks nodeAt chunk (nodeAt extent) blocks
        (startOf cursor (nodeAt extent)) steps=pass at hdone hcovers hend hlater ⊢
      by_cases hpass : pass.done=true
      · rw [if_pos hpass]
        obtain hin | ⟨_,p,hwhole⟩ := hend
        · exact ⟨nodeAt extent,fun block => hcovers block hin (.inl hpass)⟩
        · exact ⟨nodeAt p,fun block => Reads.append_left ⟨_,hwhole,rfl,Nat.zero_le _,nofun⟩⟩
      · rw [if_neg hpass] at hdone ⊢
        have hnext : CoveredTo nodeAt (before++pass.reads)
            ((pass.noted.map (nodeAt extent,·)).or cursor) := by
          intro c hc block hlt
          cases hnoted : pass.noted with
          | none =>
            rw [hnoted] at hc
            exact (hbefore c hc block hlt).append_right
          | some next =>
            rw [hnoted] at hc
            cases hc
            exact hcovers block (hend.resolve_right fun h => hpass h.1) (.inr ⟨next,hnoted,hlt⟩)
        obtain ⟨node,hall⟩ := ih (fun e b s hmem => hkept e b s (mem_cons_of_mem _ hmem))
          hlater hnext hdone
        refine ⟨node,fun block => ?_⟩
        rw [←append_assoc]
        exact hall block

/-- Without a rewrite between a check and the next read every read finds the file. -/
theorem Steady.bracketed {node checked : ℕ} {steps : List (ℕ×ℕ)} (hnode : nodeAt checked=node)
    (h : Steady nodeAt checked steps) : Bracketed nodeAt node steps ∧ ∀ chunk blocks start,
      EndsIn nodeAt node (copyChunks nodeAt chunk node blocks start steps).reads := by
  induction steps generalizing checked with
  | nil => exact ⟨trivial,fun _ _ _ read hmem => nomatch hmem⟩
  | cons step _ ih =>
    obtain ⟨p,_⟩ := step
    obtain ⟨hp,hrest⟩ := h
    have hread : nodeAt p=node := hp.trans hnode
    refine ⟨fun hq => ⟨hread,(ih hq hrest).1⟩,fun chunk blocks start read hmem hstop => ?_⟩
    unfold copyChunks at hmem
    split_ifs at hmem with hmore hq
    · obtain rfl | hmem := mem_cons.mp hmem
      · exact hread
      · exact (ih hq hrest).2 chunk blocks _ read hmem hstop
    · rw [mem_singleton.mp hmem]
      exact hread
    · rw [mem_singleton.mp hmem]
      exact hread

theorem SteadyLoad.endChecked {as : List Attempt} (h : SteadyLoad nodeAt as)
    (cursor : Option CopyCursor) : EndChecked nodeAt chunk cursor as := by
  induction as generalizing cursor with
  | nil => trivial
  | cons a _ ih =>
    cases a with
    | empty => trivial
    | pass extent blocks steps =>
      have hpass := Steady.bracketed rfl (h extent blocks steps mem_cons_self)
      exact ⟨.inl (hpass.2 _ _ _),ih (fun e b s hmem => h e b s (mem_cons_of_mem _ hmem)) _⟩

/-- The reads and checks of a pass follow its lookup of the file in time. -/
def InOrder : ℕ→List (ℕ×ℕ)→Prop
  | _,[] => True
  | checked,(p,q)::steps => checked≤p ∧ p≤q ∧ InOrder q steps

/-- A pass is in order. -/
def Attempt.Timed : Attempt→Prop
  | .empty _ => True
  | .pass extent _ steps => InOrder extent steps

/-- Where no rewrite brings back an earlier file, two checks bracket the read between them. -/
theorem InOrder.bracketed {steps : List (ℕ×ℕ)} {checked : ℕ} (h : InOrder checked steps)
    (hfresh : Monotone nodeAt) : Bracketed nodeAt (nodeAt checked) steps := by
  induction steps generalizing checked with
  | nil => trivial
  | cons _ _ ih =>
    obtain ⟨hp,hq,hrest⟩ := h
    intro hsame
    refine ⟨Nat.le_antisymm ((hfresh hq).trans hsame.le) (hfresh hp),?_⟩
    exact hsame ▸ ih hrest

/-- A load of a relation whose every rewrite gives it a new file, interrupted and resumed from
its cursor over any number of attempts. -/
structure Copied where
  nodeAt : ℕ→ℕ
  fresh : Monotone nodeAt
  chunk : ℕ
  attempts : List Attempt
  timed : ∀ a∈attempts,a.Timed
  done : (copyAttempts nodeAt chunk none attempts).2=true

/-- The row whose block in each file is `place` is in a chunk the load read. -/
def Copied.ReadsRow (c : Copied) (place : ℕ→ℕ) : Prop :=
  ∃ read∈(copyAttempts c.nodeAt c.chunk none c.attempts).1,
    read.range.has (place (c.nodeAt read.snapshot))

/-- Every unmodified row is read where no rewrite falls between the last check of the file and
the read to the end that follows it. -/
theorem unmodified_row_read (c : Copied) (hend : EndChecked c.nodeAt c.chunk none c.attempts)
    (place : ℕ→ℕ) : c.ReadsRow place := by
  have hempty : CoveredTo c.nodeAt [] none := nofun
  obtain ⟨node,hall⟩ := copyAttempts_covers
    (fun extent blocks steps hmem => InOrder.bracketed (c.timed _ hmem) c.fresh)
    hend hempty c.done
  obtain ⟨read,hmem,rfl,hhas⟩ := hall (place node)
  exact ⟨read,hmem,hhas⟩

/-- A two-block table rewritten at position `n`. -/
def twoBlocks (n : ℕ) (as : List Attempt) (htimed : ∀ a∈as,a.Timed)
    (hdone : (copyAttempts (fun t => if t<n then 1 else 2) 1 none as).2=true) : Copied where
  nodeAt t := if t<n then 1 else 2
  fresh a b hab := by dsimp only; split_ifs <;> omega
  chunk := 1
  attempts := as
  timed := htimed
  done := hdone

/-- The rewrite before the read of the last block moves its row to the first one. -/
theorem rewrite_before_last_read : ∃ c : Copied, ¬c.ReadsRow fun node => 2-node := by
  refine ⟨twoBlocks 3 [.pass 0 2 [(1,2),(4,4)]] ?_ rfl,?_⟩
  · simp [Attempt.Timed,InOrder]
  · simp [Copied.ReadsRow,twoBlocks,copyAttempts,copyChunks,startOf,BlockRange.has]

/-- The check after the first block finds the rewrite, and the next pass reads the new file. -/
theorem unmodified_row_read_restarted : ∃ c : Copied, c.ReadsRow fun node => 2-node := by
  refine ⟨twoBlocks 2 [.pass 0 2 [(1,3)],.pass 4 2 [(5,6),(7,7)]] ?_ rfl,
    unmodified_row_read _ ?_ _⟩
  · simp [Attempt.Timed,InOrder]
  · simp [twoBlocks,EndChecked,EndsIn,copyChunks,startOf]

end Coverage

/-- Heap a row read by COPY is drained as. -/
def copyHeap (rel : RelDescriptor) (s : UInt64) (row : SourceRow) : DecodedHeap :=
  ⟨rel.rfn,0,s,.insert,some ⟨row.map some,false⟩,none⟩

/-- Row stored for it. -/
def copyRow {rel : RelDescriptor} (m : Destination rel) (s : UInt64) (row : SourceRow) :
    EmittedRow :=
  appendRouted m.toTableMapping (copyHeap rel s row)

/-- A row as a tuple. -/
theorem imageOf_row {attnums : List Int16} {row : SourceRow}
    (hrow : ∀ a∈attnums,∃ value, row.at a=some value) :
    ImageOf attnums ⟨row.map some,false⟩ row := by
  intro a ha
  obtain ⟨value,hvalue⟩ := hrow a ha
  refine ⟨value,?_,hvalue⟩
  rw [getElem?_map]
  exact congrArg (Option.map some) hvalue

/-- A committed change with its record and its commit. -/
structure CommittedChange where
  change : RowChange
  heap : DecodedHeap
  /-- Position of its transaction's commit. -/
  commit : ℕ

/-- Committed changes of a relation in the order of their commits. -/
structure CommittedHistory (rel : RelDescriptor) (m : Destination rel) where
  changes : List CommittedChange
  /-- Each record is the change's. -/
  logs : ∀ x∈changes,Logs rel m.toTableMapping x.change x.heap
  /-- They are in commit order. -/
  ordered : changes.Pairwise (fun x y => x.commit≤y.commit)
  /-- A commit follows its records. -/
  before : ∀ x∈changes,x.heap.sourceLsn.toNat<x.commit
  /-- The identity stays unique. -/
  possible : Possible (fun _ => none)
    (changes.map (fun x => logged rel m.toTableMapping (x.change,x.heap)))
  /-- Rows are locked while they are changed. -/
  locked : Locked (changes.map (fun x => logged rel m.toTableMapping (x.change,x.heap)))

variable {xs : List CommittedChange}

/-- Where a list in order passes a bound it is cut in two. -/
theorem filter_le_append (h : xs.Pairwise (fun x y => x.commit≤y.commit)) (p : ℕ) :
    xs.filter (fun x => decide (x.commit≤p))++xs.filter (fun x => decide (p<x.commit))=xs := by
  induction xs with
  | nil => rfl
  | cons x xs ih =>
    obtain ⟨hx,hxs⟩ := pairwise_cons.mp h
    by_cases hle : x.commit≤p
    · rw [filter_cons_of_pos (by simpa using hle),
        filter_cons_of_neg (by simpa using hle),cons_append,ih hxs]
    · have hlow : xs.filter (fun y => decide (y.commit≤p))=[] := by
        refine filter_eq_nil_iff.mpr (fun y hy => ?_)
        have hxy := hx y hy
        simp only [decide_eq_true_eq]
        omega
      have hrest := ih hxs
      rw [hlow,nil_append] at hrest
      rw [filter_cons_of_neg (by simpa using hle),hlow,nil_append,
        filter_cons_of_pos (by simpa using hle),hrest]

namespace CommittedHistory

variable {rel : RelDescriptor} {m : Destination rel} (h : CommittedHistory rel m)

/-- A change by key, at its record. -/
def keyedOf (m : Destination rel) (x : CommittedChange) : Logged Values Values :=
  logged rel m.toTableMapping (x.change,x.heap)

/-- Changes committed up to a position. -/
def upTo (p : ℕ) : List CommittedChange := h.changes.filter (fun x => decide (x.commit≤p))

/-- Changes committed after it. -/
def live (p : ℕ) : List CommittedChange := h.changes.filter (fun x => decide (p<x.commit))

/-- The table a snapshot sees. -/
def tableAt (p : ℕ) : Values→Option Values :=
  tableAfter (fun _ => none) ((h.upTo p).map (keyedOf m))

/-- The table after the last commit. -/
def table : Values→Option Values :=
  tableAfter (fun _ => none) (h.changes.map (keyedOf m))

/-- Rows the live stream emits for the commits after a position. -/
def liveRows (p : ℕ) : List EmittedRow :=
  (h.live p).flatMap (fun x => rowsOf rel m.toTableMapping x.heap)

theorem split (p : ℕ) : h.upTo p++h.live p=h.changes := filter_le_append h.ordered p

theorem table_eq (p : ℕ) : h.table=tableAfter (h.tableAt p) ((h.live p).map (keyedOf m)) := by
  rw [table,tableAt,←tableAfter_append,←map_append,h.split]

/-- A later snapshot sees the earlier table and some of the live changes. -/
theorem tableAt_eq {p q : ℕ} (hpq : p≤q) : h.tableAt q=tableAfter (h.tableAt p)
    (((h.live p).filter (fun x => decide (x.commit≤q))).map (keyedOf m)) := by
  have hearly : (h.upTo p).filter (fun x => decide (x.commit≤q))=h.upTo p := by
    refine filter_eq_self.mpr (fun x hx => ?_)
    have hle : x.commit≤p := of_decide_eq_true (mem_filter.mp hx).2
    exact decide_eq_true (le_trans hle hpq)
  have hcut : h.upTo q=h.upTo p++(h.live p).filter (fun x => decide (x.commit≤q)) := by
    rw [←hearly,←filter_append,h.split]
    rfl
  rw [tableAt,hcut,map_append,tableAfter_append]
  rfl

/-- A key no live change touches is the same at every later snapshot and in the end. -/
theorem unchanged {p : ℕ} {k : Values} (hk : ∀ x∈h.live p,¬(keyedOf m x).change.Touches k) :
    h.table k=h.tableAt p k ∧ ∀ q, p≤q→h.tableAt q k=h.tableAt p k := by
  have hnone : ∀ xs : List CommittedChange, (∀ x∈xs,x∈h.live p) →
      tableAfter (h.tableAt p) (xs.map (keyedOf m)) k=h.tableAt p k := by
    intro xs hxs
    refine tableAfter_untouched (fun c hc => ?_)
    obtain ⟨x,hx,rfl⟩ := mem_map.mp hc
    exact hk x (hxs x hx)
  refine ⟨?_,fun q hq => ?_⟩
  · rw [h.table_eq p]
    exact hnone _ (fun _ hx => hx)
  · rw [h.tableAt_eq hq]
    exact hnone _ (fun x hx => (mem_filter.mp hx).1)

/-- A row of a snapshot is one some change wrote, with all mapped columns. -/
theorem exists_row {p : ℕ} {k v : Values} (hk : h.tableAt p k=some v) :
    ∃ row : SourceRow, keyOf rel row=k ∧ valuesOf m.toTableMapping row=v ∧
      ∀ a∈m.columns,∃ value, row.at a=some value := by
  obtain hnone | ⟨_,c,_,hcut,hc,hafter⟩ := untouched_or_last ((h.upTo p).map (keyedOf m)) k
  · rw [tableAt,tableAfter_untouched hnone] at hk
    cases hk
  · rw [tableAt,hcut,tableAfter_last hc hafter] at hk
    have hmem : c∈(h.upTo p).map (keyedOf m) := hcut ▸ mem_middle
    obtain ⟨x,hx,rfl⟩ := mem_map.mp hmem
    have hlogs := h.logs x (mem_filter.mp hx).1
    obtain ⟨change,_,_⟩ := x
    cases change with
    | insert row =>
      obtain ⟨_,_,_,himage⟩ := hlogs
      refine ⟨row,hc.resolve_left id,Option.some.inj hk,fun a ha => ?_⟩
      obtain ⟨value,_,hvalue⟩ := himage a ha
      exact ⟨value,hvalue⟩
    | update _ new =>
      obtain ⟨_,⟨_,_,himage⟩,_⟩ := hlogs
      by_cases hkey : keyOf rel new=k
      · have hsame : some (valuesOf m.toTableMapping new)=some v := (if_pos hkey).symm.trans hk
        refine ⟨new,hkey,Option.some.inj hsame,fun a ha => ?_⟩
        obtain ⟨value,_,hvalue⟩ := himage a ha
        exact ⟨value,hvalue⟩
      · cases (if_neg hkey).symm.trans hk
    | delete => cases hk

/-- The rows emitted for some of the changes write their versions. -/
theorem writes (hxs : ∀ x∈xs,x∈h.changes) :
    Writes (fun w => ∃ r∈xs.flatMap (fun x => rowsOf rel m.toTableMapping x.heap),
      r.version m.toTableMapping=w) (·∈versionsOf (xs.map (keyedOf m))) :=
  writes_rows m (fun x hx => ⟨h.logs x (hxs x hx),
    (h.locked.aligned _ (mem_map_of_mem (hxs x hx))).2⟩)

theorem writes_live (p : ℕ) :
    Writes (fun w => ∃ r∈h.liveRows p,r.version m.toTableMapping=w)
      (·∈versionsOf ((h.live p).map (keyedOf m))) :=
  h.writes (fun _ hx => (mem_filter.mp hx).1)

theorem locked_live (p : ℕ) : Locked ((h.live p).map (keyedOf m)) := by
  have hlocked : Locked ((h.upTo p++h.live p).map (keyedOf m)) := by
    rw [h.split]
    exact h.locked
  rw [map_append] at hlocked
  exact hlocked.of_append_right

end CommittedHistory

section Load

variable {rel : RelDescriptor} {m : Destination rel}

/-- A finished load of a relation. -/
structure Load (h : CommittedHistory rel m) where
  /-- Selection point, a record position. -/
  s : UInt64
  /-- Record positions are multiples of eight. -/
  aligned : 8 ∣ s.toNat
  /-- Storage file of the relation at a position. -/
  nodeAt : ℕ→ℕ
  chunk : ℕ
  attempts : List Attempt
  done : (copyAttempts nodeAt chunk none attempts).2=true
  /-- Snapshots are taken at or after the selection point. -/
  after : ∀ read∈(copyAttempts nodeAt chunk none attempts).1,s.toNat ≤ read.snapshot
  /-- Block of the row under a key at a snapshot. -/
  block : ℕ→Values→ℕ
  /-- In one storage file a row no change touched stays in its block. -/
  stays : ∀ p q k, nodeAt p=nodeAt q →
    (∀ x∈h.live s.toNat,¬(CommittedHistory.keyedOf m x).change.Touches k)→block p k=block q k

namespace Load

variable {h : CommittedHistory rel m} (l : Load h)

/-- Chunks read. -/
def reads : List ChunkRead := (copyAttempts l.nodeAt l.chunk none l.attempts).1

/-- Row of a table in a chunk as the load stores it. -/
def Copied (r : EmittedRow) : Prop :=
  ∃ read∈l.reads,∃ row : SourceRow,
    h.tableAt read.snapshot (keyOf rel row)=some (valuesOf m.toTableMapping row) ∧
    (∀ a∈m.columns,∃ value, row.at a=some value) ∧
    read.range.has (l.block read.snapshot (keyOf rel row)) ∧ r=copyRow m l.s row

/-- Rows of the load and of the live stream, in any order and repeatedly. -/
def Sent (sent : List EmittedRow) : Prop :=
  ∀ r, r∈sent ↔ l.Copied r ∨ r∈h.liveRows l.s.toNat

theorem version_copyRow {row : SourceRow} (hrow : ∀ a∈m.columns,∃ value, row.at a=some value)
    (s : UInt64) : (copyRow m s row).version m.toTableMapping =
      ⟨keyOf rel row,s.toNat,some (valuesOf m.toTableMapping row)⟩ :=
  @version_new rel m _ row (copyHeap rel s row) nofun rfl (imageOf_row hrow)

/-- A version of the load says what its snapshot saw. -/
theorem version_copied {r : EmittedRow} (hr : l.Copied r) :
    ∃ p, l.s.toNat≤p ∧ (r.version m.toTableMapping).stamp=l.s.toNat ∧
      (r.version m.toTableMapping).value=h.tableAt p (r.version m.toTableMapping).key := by
  obtain ⟨read,hread,_,htable,hrow,_,rfl⟩ := hr
  refine ⟨read.snapshot,l.after read hread,?_⟩
  rw [version_copyRow hrow]
  exact ⟨rfl,htable.symm⟩

/-- A row that was there at the selection point and is not touched later is copied. -/
theorem exists_copied (hsteady : SteadyLoad l.nodeAt l.attempts) {k v : Values}
    (hk : h.tableAt l.s.toNat k=some v)
    (huntouched : ∀ x∈h.live l.s.toNat,¬(CommittedHistory.keyedOf m x).change.Touches k) :
    ∃ r, l.Copied r ∧ (r.version m.toTableMapping).key=k := by
  have hempty : CoveredTo l.nodeAt [] none := nofun
  obtain ⟨node,hall⟩ := copyAttempts_covers (fun extent blocks steps hmem =>
    (Steady.bracketed rfl (hsteady extent blocks steps hmem)).1)
    (hsteady.endChecked none) hempty l.done
  have hread : ∃ read∈l.reads,read.range.has (l.block read.snapshot k) := by
    by_cases hsome : ∃ p, l.nodeAt p=node
    · obtain ⟨p,hp⟩ := hsome
      obtain ⟨read,hmem,hnode,hhas⟩ := hall (l.block p k)
      refine ⟨read,hmem,?_⟩
      rw [l.stays read.snapshot p k (hnode.trans hp.symm) huntouched]
      exact hhas
    · obtain ⟨_,_,hnode,_⟩ := hall 0
      exact absurd ⟨_,hnode⟩ hsome
  obtain ⟨read,hmem,hhas⟩ := hread
  obtain ⟨row,rfl,rfl,hrow⟩ := h.exists_row hk
  have hsame := (h.unchanged huntouched).2 read.snapshot (l.after read hmem)
  refine ⟨copyRow m l.s row,⟨read,hmem,row,hsame.trans hk,hrow,hhas,rfl⟩,?_⟩
  rw [version_copyRow hrow]

/-- The rows sent write the copied and the live versions. -/
theorem writes {sent : List EmittedRow} (hsent : l.Sent sent) :
    Writes (fun w => ∃ r∈sent,r.version m.toTableMapping=w)
      (fun w => (∃ r, l.Copied r ∧ r.version m.toTableMapping=w) ∨
        w∈versionsOf ((h.live l.s.toNat).map (CommittedHistory.keyedOf m))) :=
  writes_beside m hsent (h.writes_live l.s.toNat)

/-- A key no live change touches settles on its copied row. -/
theorem settles_untouched (hsteady : SteadyLoad l.nodeAt l.attempts) {k : Values}
    (huntouched : ∀ x∈h.live l.s.toNat,¬(CommittedHistory.keyedOf m x).change.Touches k) :
    Settles (fun w => ∃ r, l.Copied r ∧ r.version m.toTableMapping=w) k (h.table k) := by
  have hsame := h.unchanged huntouched
  have hvalue : ∀ r, l.Copied r→(r.version m.toTableMapping).key=k →
      (r.version m.toTableMapping).value=h.table k := by
    intro r hr hkey
    obtain ⟨p,hp,_,hval⟩ := l.version_copied hr
    rw [hval,hkey,hsame.2 p hp,hsame.1]
  cases htable : h.table k with
  | none =>
    refine Settles.of_none (fun w ⟨r,hr,hw⟩ hkey => ?_)
    subst hw
    have hnone : (r.version m.toTableMapping).value=none := (hvalue r hr hkey).trans htable
    obtain ⟨_,_,_,_,_,_,rfl⟩ := hr
    cases hnone
  | some =>
    obtain ⟨r,hr,hkey⟩ := l.exists_copied hsteady (hsame.1.symm.trans htable) huntouched
    rw [←htable,←hvalue r hr hkey]
    refine Settles.of_last ⟨r,hr,rfl⟩ hkey (fun w' ⟨r',hr',hw'⟩ hkey' => .inr ?_)
    subst hw'
    exact (hvalue r' hr' hkey').trans (hvalue r hr hkey).symm

/-- Under a key all of whose later changes were logged at or below the selection point a
copied row is not replaced; it is what the key has in the end. -/
def FinalCopies : Prop := ∀ r, l.Copied r→(∀ x∈h.live l.s.toNat,
    (CommittedHistory.keyedOf m x).change.Touches (r.version m.toTableMapping).key →
      x.heap.sourceLsn.toNat≤l.s.toNat) →
  (r.version m.toTableMapping).value=h.table (r.version m.toTableMapping).key

/-- Such a copied row has a greatest version. -/
theorem finalCopies_of_converged {sent : List EmittedRow} (hsent : l.Sent sent)
    (hconverged : Converged m sent h.table) : l.FinalCopies := by
  intro r hr hall
  have hsettles := (l.writes hsent).settles_iff.mp (hconverged (r.version m.toTableMapping).key)
  refine hsettles.value_eq (.inl ⟨r,hr,rfl⟩) rfl ?_
  obtain ⟨_,_,hstamp,_⟩ := l.version_copied hr
  rw [hstamp]
  rintro w (⟨r',hr',rfl⟩ | hw) hkey
  · obtain ⟨_,_,hstamp',_⟩ := l.version_copied hr'
    exact hstamp'.le
  · obtain ⟨_,hc,hw⟩ := mem_versionsOf.mp hw
    obtain ⟨x,hx,rfl⟩ := mem_map.mp hc
    obtain ⟨htouch,_,hle,_⟩ := mem_versions hw
    exact hle.trans (hall x hx (hkey ▸ htouch))

end Load

end Load

/-- A row is added and, from `lsn` on, removed again by a transaction that commits at 40. -/
def removedAt (lsn : UInt64) (hlsn : 8 ∣ lsn.toNat ∧ 16<lsn.toNat ∧ lsn.toNat<40) :
    CommittedHistory keyTable keyDestination where
  changes := [⟨.insert seven,sevenInserted 8,16⟩,⟨.delete seven,sevenDeleted lsn,40⟩]
  logs := by
    intro x hx
    obtain rfl | hx := List.mem_cons.mp hx
    · exact ⟨rfl,_,rfl,sevenImage_of⟩
    · obtain rfl := List.mem_singleton.mp hx
      exact ⟨rfl,_,rfl,sevenImage_of⟩
  ordered := List.pairwise_cons.mpr ⟨fun x hx => by
    obtain rfl := List.mem_singleton.mp hx
    exact (by decide : 16≤40),List.pairwise_singleton _ _⟩
  before := by
    intro x hx
    obtain rfl | hx := List.mem_cons.mp hx
    · decide
    · obtain rfl := List.mem_singleton.mp hx
      exact hlsn.2.2
  possible := ⟨rfl,
    fun hfree => Option.some_ne_none (valuesOf keyDestination.toTableMapping seven) hfree,trivial⟩
  locked := by
    have hpair : ∀ c∈[logged keyTable keyDestination.toTableMapping
        (.delete seven,sevenDeleted lsn)], 8<c.pos := by
      intro c hc
      obtain rfl := List.mem_singleton.mp hc
      exact lt_trans (by decide) hlsn.2.1
    refine ⟨?_,?_,?_⟩
    · intro c hc
      obtain rfl | hc := List.mem_cons.mp hc
      · decide
      · obtain rfl := List.mem_singleton.mp hc
        exact ⟨hlsn.1,lt_trans (by decide) hlsn.2.1⟩
    · exact List.pairwise_cons.mpr ⟨fun c hc _ _ _ => hpair c hc,List.pairwise_singleton _ _⟩
    · exact List.pairwise_cons.mpr ⟨fun c hc _ _ _ => ne_of_lt (hpair c hc),
        List.pairwise_singleton _ _⟩

/-- The relation is selected at `s` and read at once, in one chunk. -/
def loadAt (h : CommittedHistory keyTable keyDestination) (s : UInt64) (hs : 8 ∣ s.toNat) : Load h where
  s := s
  aligned := hs
  nodeAt := fun _ => 1
  chunk := 1
  attempts := [.pass s.toNat 1 [(s.toNat,s.toNat)]]
  done := rfl
  after := fun read hread => by
    obtain rfl := List.mem_singleton.mp hread
    exact le_rfl
  block := fun _ _ => 0
  stays := fun _ _ _ _ _ => rfl

/-- The load saw the row, and its removal is streamed. -/
theorem sent_loadAt {lsn s : UInt64} (hlsn : 8 ∣ lsn.toNat ∧ 16<lsn.toNat ∧ lsn.toNat<40)
    (hs : 8 ∣ s.toNat)
    (hput : (removedAt lsn hlsn).tableAt s.toNat =
      Function.update (fun _ => none) [some (.int4 7)] (some [some (.int4 7)]))
    (hlive : (removedAt lsn hlsn).liveRows s.toNat =
      [appendRouted keyDestination.toTableMapping (sevenDeleted lsn)]) :
    (loadAt (removedAt lsn hlsn) s hs).Sent [copyRow keyDestination s seven,
      appendRouted keyDestination.toTableMapping (sevenDeleted lsn)] := by
  intro r
  have hlive' : (removedAt lsn hlsn).liveRows (loadAt (removedAt lsn hlsn) s hs).s.toNat =
    [appendRouted keyDestination.toTableMapping (sevenDeleted lsn)] := hlive
  rw [mem_cons,hlive']
  refine or_congr ?_ Iff.rfl
  constructor
  · rintro rfl
    refine ⟨_,mem_singleton_self _,seven,?_,?_,?_,rfl⟩
    · exact congrFun hput [some (.int4 7)]
    · intro a ha
      obtain rfl := mem_singleton.mp ha
      exact ⟨.int4 7,rfl⟩
    · exact ⟨le_rfl,nofun⟩
  · rintro ⟨_,hread,row,hrow,_,_,rfl⟩
    obtain rfl := mem_singleton.mp hread
    have hrow : (removedAt lsn hlsn).tableAt s.toNat (keyOf keyTable row) =
      some (valuesOf keyDestination.toTableMapping row) := hrow
    rw [hput,Function.update_apply] at hrow
    split_ifs at hrow
    cases row with
    | nil => cases hrow
    | cons v =>
      obtain rfl : v=.int4 7 := (Option.some.inj (singleton_inj.mp (Option.some.inj hrow))).symm
      rfl

end Walshadow.CopyLoad
