import Walshadow.AckCollector

/-!
# Stages of the insert pipeline

What each stage computes on its own: the seq allocator, the placement of planned
heaps as rows, the batcher's tables, and the replay of a transaction plan as the
steps the reorder stage takes. Encoders are reduced to the verdicts they give the
batcher (frame full, budget reached), which stay arbitrary.
-/

namespace Walshadow.PipelineStages

open AckCollector List

variable {κ : Type}

/-- Destination of a planned heap. -/
structure Route (κ : Type) where
  /-- Table the row batches under. -/
  owner : κ
  /-- Append-only destination without a delete marker. -/
  dropsDeletes : Bool
deriving DecidableEq

/-- Planned heap with its route; `ident` stands for the tuple. -/
structure RoutedHeap (κ : Type) where
  ident : Nat
  /-- Destination, absent when the relation is unmapped. -/
  route : Option (Route κ)
  isDelete : Bool
  /-- The update changes the key and leaves a tombstone. -/
  keyChange : Bool
  bytes : Nat
deriving DecidableEq

/-- Row on its way to a destination. -/
structure RoutedRow (κ : Type) where
  seq : Nat
  commitLsn : Nat
  owner : κ
  ident : Nat
  /-- Tombstone of a key change. -/
  tombstone : Bool
deriving DecidableEq

/-- Byte half of the chunk trigger. -/
def decodeChunkBytes : Nat := 4*2^20

/-- Rows one planned heap is placed as. -/
def heapRows (snowflake : Bool) (seq commitLsn : Nat) (h : RoutedHeap κ) : List (RoutedRow κ) :=
  match h.route with
  | none => []
  | some route =>
    if !snowflake && route.dropsDeletes && h.isDelete then []
    else
      (if !snowflake && !route.dropsDeletes && h.keyChange then
        [⟨seq,commitLsn,route.owner,h.ident,true⟩] else [])++
      [⟨seq,commitLsn,route.owner,h.ident,false⟩]

/-- Chunk the rows of the heaps behind `staged`; returns the chunks and the rows routed. -/
def placeLoop (snowflake : Bool) (chunkRows seq commitLsn : Nat) :
    List (RoutedHeap κ)→List (List (RoutedRow κ))→Nat→List (RoutedRow κ)→Nat →
      List (List (RoutedRow κ))×Nat
  | [],staged,routed,buf,_ => (if buf.isEmpty then staged else staged++[buf],routed)
  | h::hs,staged,routed,buf,bufBytes =>
    let rows := heapRows snowflake seq commitLsn h
    if rows.isEmpty then placeLoop snowflake chunkRows seq commitLsn hs staged routed buf bufBytes
    else
      let buf := buf++rows
      let bufBytes := bufBytes+h.bytes
      let routed := routed+rows.length
      if chunkRows≤buf.length ∨ decodeChunkBytes≤bufBytes then
        placeLoop snowflake chunkRows seq commitLsn hs (staged++[buf]) routed [] 0
      else placeLoop snowflake chunkRows seq commitLsn hs staged routed buf bufBytes

/-- Place every routed heap of one seq. -/
def placeRows (snowflake : Bool) (chunkRows seq commitLsn : Nat) (heaps : List (RoutedHeap κ))
    (staged : List (List (RoutedRow κ))) : List (List (RoutedRow κ))×Nat :=
  placeLoop snowflake chunkRows seq commitLsn heaps staged 0 [] 0

section

variable (snowflake : Bool) (chunkRows seq commitLsn : Nat) (heaps : List (RoutedHeap κ))
  (staged : List (List (RoutedRow κ)))

include snowflake chunkRows seq commitLsn heaps staged

/-- Placement appends exactly the rows of the heaps, in order, and counts them. -/
theorem placeLoop_spec (routed : Nat) (buf : List (RoutedRow κ)) (bufBytes : Nat) :
    (placeLoop snowflake chunkRows seq commitLsn heaps staged routed buf bufBytes).1.flatten =
        staged.flatten++buf++heaps.flatMap (heapRows snowflake seq commitLsn) ∧
      (placeLoop snowflake chunkRows seq commitLsn heaps staged routed buf bufBytes).2 =
        routed+(heaps.flatMap (heapRows snowflake seq commitLsn)).length := by
  induction heaps generalizing staged routed buf bufBytes with
  | nil =>
    rw [placeLoop]
    cases buf with
    | nil | cons r rs => simp
  | cons h _ ih =>
    rw [placeLoop]
    dsimp only
    split
    case isTrue hnone =>
      have hrows : heapRows snowflake seq commitLsn h=[] := List.isEmpty_iff.mp hnone
      simp [ih,hrows]
    case isFalse =>
      split
      · rw [(ih _ _ _ _).1,(ih _ _ _ _).2]
        simp [append_assoc]
        omega
      · rw [(ih _ _ _ _).1,(ih _ _ _ _).2]
        simp [append_assoc]
        omega

/-- Placement puts exactly the heaps' rows behind what was staged, and counts them. -/
theorem placeRows_spec :
    (placeRows snowflake chunkRows seq commitLsn heaps staged).1.flatten =
        staged.flatten++heaps.flatMap (heapRows snowflake seq commitLsn) ∧
      (placeRows snowflake chunkRows seq commitLsn heaps staged).2 =
        (heaps.flatMap (heapRows snowflake seq commitLsn)).length := by
  have h := placeLoop_spec snowflake chunkRows seq commitLsn heaps staged 0 [] 0
  rw [append_nil,zero_add] at h
  exact h

end

/-- Open table of the batcher. -/
structure Table (κ : Type) where
  rows : List (RoutedRow κ)
  /-- Row counts by seq, in runs. -/
  seqCounts : List (Nat×Nat)

/-- Table without rows. -/
def Table.empty : Table κ := ⟨[],[]⟩

/-- One sealed insert. -/
structure InsertBatch (κ : Type) where
  owner : κ
  rows : List (RoutedRow κ)
  /-- Row counts by seq, for the ack. -/
  perSeq : List (Nat×Nat)

/-- Count one row, extending the run of its seq. -/
def noteSeq (counts : List (Nat×Nat)) (seq : Nat) : List (Nat×Nat) :=
  match counts with
  | [] => [(seq,1)]
  | [(s,c)] => if s=seq then [(s,c+1)] else [(s,c),(seq,1)]
  | p::q::rest => p::noteSeq (q::rest) seq

/-- Seal a table; an empty one only resets. -/
def emitBatch (owner : κ) (t : Table κ) : List (InsertBatch κ)×Table κ :=
  if t.rows.isEmpty then ([],.empty) else ([⟨owner,t.rows,t.seqCounts⟩],.empty)

/-- What the encoder and the budgets say about one appended row. -/
structure Verdict where
  /-- The frame is full before the row; never so for an empty table. -/
  full : Bool
  /-- The table reached its row or byte budget. -/
  reached : Bool
  /-- The open tables together reached the byte budget. -/
  poolReached : Bool

/-- Append a row to its table. -/
def handleTable (v : Verdict) (row : RoutedRow κ) (t : Table κ) : List (InsertBatch κ)×Table κ :=
  let before := if v.full && !t.rows.isEmpty then emitBatch row.owner t else ([],t)
  let appended : Table κ := ⟨before.2.rows++[row],noteSeq before.2.seqCounts row.seq⟩
  let after := if v.reached then emitBatch row.owner appended else ([],appended)
  (before.1++after.1,after.2)

/-- Update the table of an owner, opening it when absent. -/
def withTable [DecidableEq κ] (owner : κ) (f : Table κ→List (InsertBatch κ)×Table κ) :
    List (κ×Table κ)→List (InsertBatch κ)×List (κ×Table κ)
  | [] => ((f .empty).1,[(owner,(f .empty).2)])
  | (k,t)::rest =>
    if k=owner then ((f t).1,(k,(f t).2)::rest)
    else ((withTable owner f rest).1,(k,t)::(withTable owner f rest).2)

/-- Seal the chosen tables. -/
def sealTables (due : κ→Bool) : List (κ×Table κ)→List (InsertBatch κ)×List (κ×Table κ)
  | [] => ([],[])
  | (k,t)::rest =>
    let sealed := if due k then emitBatch k t else ([],t)
    (sealed.1++(sealTables due rest).1,(k,sealed.2)::(sealTables due rest).2)

/-- Route one row through its table, then relieve the shared byte budget. -/
def handleRow [DecidableEq κ] (v : Verdict) (row : RoutedRow κ) (tables : List (κ×Table κ)) :
    List (InsertBatch κ)×List (κ×Table κ) :=
  let placed := withTable row.owner (handleTable v row) tables
  let relieved := if v.poolReached then sealTables (fun _ => true) placed.2 else ([],placed.2)
  (placed.1++relieved.1,relieved.2)

/-- Seal every table and drop the encoders. -/
def flushAll (tables : List (κ×Table κ)) : List (InsertBatch κ) :=
  (sealTables (fun _ => true) tables).1

/-- Rows held by open tables. -/
def tableRows (tables : List (κ×Table κ)) : List (RoutedRow κ) :=
  tables.flatMap (fun p => p.2.rows)

/-- Rows of sealed batches. -/
def batchRows (batches : List (InsertBatch κ)) : List (RoutedRow κ) :=
  batches.flatMap (fun b => b.rows)

/-- Acked rows a list of counts reports for one seq. -/
def countSeq (counts : List (Nat×Nat)) (seq : Nat) : Nat :=
  (counts.map (fun c => if c.1=seq then c.2 else 0)).sum

/-- Rows of one seq. -/
def rowsOfSeq (rows : List (RoutedRow κ)) (seq : Nat) : Nat :=
  rows.countP (fun r => decide (r.seq=seq))

/-- Counts that are exactly those of some rows, without empty entries. -/
structure CountsOf (counts : List (Nat×Nat)) (rows : List (RoutedRow κ)) : Prop where
  /-- Every seq is reported with its rows. -/
  total : ∀ seq,countSeq counts seq=rowsOfSeq rows seq
  /-- No entry is empty. -/
  positive : ∀ c∈counts,0<c.2

/-- The counts of a table are those of its rows. -/
def Table.Counted (t : Table κ) : Prop := CountsOf t.seqCounts t.rows

/-- The counts of a batch are those of its rows. -/
def InsertBatch.Counted (b : InsertBatch κ) : Prop := CountsOf b.perSeq b.rows

/-- Counting one row adds it to its seq. -/
theorem countSeq_noteSeq (counts : List (Nat×Nat)) (seq t : Nat) :
    countSeq (noteSeq counts seq) t=countSeq counts t+if seq=t then 1 else 0 := by
  induction counts with
  | nil => simp [noteSeq,countSeq]
  | cons p rest ih =>
    cases rest with
    | nil =>
      obtain ⟨s,c⟩ := p
      by_cases hs : s=seq
      · subst hs
        by_cases ht : s=t <;> simp [noteSeq,countSeq,ht]
      · simp [noteSeq,countSeq,hs]
    | cons =>
      simp only [noteSeq,countSeq,map_cons,sum_cons] at ih ⊢
      omega

variable {counts : List (Nat×Nat)}

/-- Counting one row leaves no empty entry. -/
theorem noteSeq_positive (h : ∀ c∈counts,0<c.2) (seq : Nat) :
    ∀ c∈noteSeq counts seq,0<c.2 := by
  induction counts with
  | nil => simp [noteSeq]
  | cons p rest ih =>
    cases rest with
    | nil =>
      have hp := h p mem_cons_self
      rw [noteSeq]
      split
      · simp
      · simpa using hp
    | cons =>
      intro c hc
      rw [noteSeq] at hc
      rcases mem_cons.mp hc with rfl | hmem
      · exact h c mem_cons_self
      · exact ih (fun d hd => h d (mem_cons_of_mem _ hd)) c hmem

variable {t : Table κ}

/-- A table counts a row appended to it. -/
theorem Table.Counted.append (ht : t.Counted) (row : RoutedRow κ) :
    Table.Counted ⟨t.rows++[row],noteSeq t.seqCounts row.seq⟩ := by
  refine ⟨fun seq => ?_,noteSeq_positive ht.positive row.seq⟩
  have hold := ht.total seq
  simp only [rowsOfSeq] at hold ⊢
  rw [countSeq_noteSeq,hold]
  simp

theorem counted_empty : Table.Counted (Table.empty : Table κ) :=
  ⟨fun _ => rfl,nofun⟩

/-- Every reported seq has a row. -/
theorem CountsOf.mem {rows : List (RoutedRow κ)}
    (h : CountsOf counts rows) {c : Nat×Nat} (hc : c∈counts) : ∃ r∈rows,r.seq=c.1 := by
  have hpos := h.positive c hc
  have hle : c.2 ≤ countSeq counts c.1 := by
    have hin : (if c.1=c.1 then c.2 else 0) ∈
        counts.map (fun d => if d.1=c.1 then d.2 else 0) := mem_map_of_mem hc
    rw [if_pos rfl] at hin
    exact single_le_sum (fun _ _ => Nat.zero_le _) _ hin
  rw [h.total] at hle
  obtain ⟨r,hr,hseq⟩ := countP_pos_iff.mp (lt_of_lt_of_le hpos hle)
  exact ⟨r,hr,of_decide_eq_true hseq⟩

/-- Every open table is counted. -/
def TablesCounted (tables : List (κ×Table κ)) : Prop := ∀ p∈tables,p.2.Counted

/-- Every batch is counted. -/
def BatchesCounted (batches : List (InsertBatch κ)) : Prop := ∀ b∈batches,b.Counted

/-- Two lists of counted batches are counted together. -/
theorem BatchesCounted.append {bs cs : List (InsertBatch κ)} (hb : BatchesCounted bs)
    (hc : BatchesCounted cs) : BatchesCounted (bs++cs) := by
  intro b hmem
  rcases mem_append.mp hmem with hbs | hcs
  · exact hb b hbs
  · exact hc b hcs

theorem batchesCounted_nil : BatchesCounted ([] : List (InsertBatch κ)) := by
  intro b hb
  cases hb

theorem batchRows_nil : batchRows ([] : List (InsertBatch κ))=[] := rfl

theorem batchRows_append (bs cs : List (InsertBatch κ)) :
    batchRows (bs++cs)=batchRows bs++batchRows cs := flatMap_append

variable (owner : κ)

/-- Sealing moves a table's rows into batches and leaves it empty. -/
theorem emitBatch_rows (t : Table κ) :
    batchRows (emitBatch owner t).1=t.rows ∧ (emitBatch owner t).2=.empty := by
  unfold emitBatch
  split
  case isTrue hempty => exact ⟨(List.isEmpty_iff.mp hempty).symm,rfl⟩
  case isFalse => exact ⟨append_nil _,rfl⟩

/-- Sealing a counted table yields counted batches. -/
theorem emitBatch_counted {owner : κ} (ht : t.Counted) : BatchesCounted (emitBatch owner t).1 := by
  unfold emitBatch
  split
  · exact batchesCounted_nil
  · intro b hb
    rw [mem_singleton.mp hb]
    exact ht

variable (v : Verdict) (row : RoutedRow κ)

/-- Appending a row to a table keeps every row in order. -/
theorem handleTable_rows (t : Table κ) :
    batchRows (handleTable v row t).1++(handleTable v row t).2.rows=t.rows++[row] := by
  have hsealed (u : Table κ) := emitBatch_rows row.owner u
  unfold handleTable
  split <;> split
  all_goals simp [batchRows_append,batchRows_nil,(hsealed _).1,(hsealed _).2,Table.empty]

/-- Appending a row to a counted table keeps everything counted. -/
theorem handleTable_counted (ht : t.Counted) :
    BatchesCounted (handleTable v row t).1 ∧ (handleTable v row t).2.Counted := by
  have hbefore : BatchesCounted
        (if v.full && !t.rows.isEmpty then emitBatch row.owner t else ([],t)).1 ∧
      (if v.full && !t.rows.isEmpty then emitBatch row.owner t else ([],t)).2.Counted := by
    split
    · refine ⟨emitBatch_counted ht,?_⟩
      rw [(emitBatch_rows row.owner t).2]
      exact counted_empty
    · exact ⟨batchesCounted_nil,ht⟩
  unfold handleTable
  generalize (if v.full && !t.rows.isEmpty then emitBatch row.owner t else ([],t))=before
    at hbefore ⊢
  have happended := hbefore.2.append row
  split
  · refine ⟨hbefore.1.append (emitBatch_counted happended),?_⟩
    rw [(emitBatch_rows row.owner _).2]
    exact counted_empty
  · exact ⟨hbefore.1.append batchesCounted_nil,happended⟩

/-- Updating one owner's table moves rows only through that table. -/
theorem withTable_rows [DecidableEq κ]
    (f : Table κ→List (InsertBatch κ)×Table κ) (row : RoutedRow κ)
    (hf : ∀ t,batchRows (f t).1++(f t).2.rows=t.rows++[row]) (tables : List (κ×Table κ)) :
    (batchRows (withTable owner f tables).1++tableRows (withTable owner f tables).2).Perm
      (tableRows tables++[row]) := by
  induction tables with
  | nil =>
    have hnew := hf .empty
    simp only [withTable,tableRows,flatMap_cons,flatMap_nil,append_nil]
    rw [hnew]
    exact List.Perm.refl _
  | cons p rest ih =>
    obtain ⟨k,t⟩ := p
    rw [withTable]
    split
    · simp only [tableRows,flatMap_cons,←append_assoc]
      rw [hf t]
      simp only [append_assoc]
      exact List.Perm.append_left _ perm_append_comm
    · simp only [tableRows,flatMap_cons]
      have hswap : (batchRows (withTable owner f rest).1++
          (t.rows++tableRows (withTable owner f rest).2)).Perm
          (t.rows++(batchRows (withTable owner f rest).1++
            tableRows (withTable owner f rest).2)) := by
        rw [←append_assoc,←append_assoc]
        exact List.Perm.append_right _ perm_append_comm
      rw [append_assoc]
      exact hswap.trans (List.Perm.append_left _ ih)

/-- Updating one owner's table keeps everything counted. -/
theorem withTable_counted [DecidableEq κ] {f : Table κ→List (InsertBatch κ)×Table κ}
    (hf : ∀ t : Table κ,t.Counted→BatchesCounted (f t).1 ∧ (f t).2.Counted)
    {tables : List (κ×Table κ)} (ht : TablesCounted tables) :
    BatchesCounted (withTable owner f tables).1 ∧ TablesCounted (withTable owner f tables).2 := by
  induction tables with
  | nil =>
    refine ⟨(hf _ counted_empty).1,fun p hp => ?_⟩
    rw [mem_singleton.mp hp]
    exact (hf _ counted_empty).2
  | cons p rest ih =>
    obtain ⟨k,t⟩ := p
    have hhead : t.Counted := ht (k,t) mem_cons_self
    have htail : TablesCounted rest := fun q hq => ht q (mem_cons_of_mem _ hq)
    obtain ⟨hb,hrest⟩ := ih htail
    rw [withTable]
    split
    · refine ⟨(hf t hhead).1,fun q hq => ?_⟩
      rcases mem_cons.mp hq with rfl | hmem
      · exact (hf t hhead).2
      · exact htail q hmem
    · refine ⟨hb,fun q hq => ?_⟩
      rcases mem_cons.mp hq with rfl | hmem
      · exact hhead
      · exact hrest q hmem

variable (due : κ→Bool)

/-- Sealing tables keeps every row. -/
theorem sealTables_rows (tables : List (κ×Table κ)) :
    (batchRows (sealTables due tables).1++tableRows (sealTables due tables).2).Perm
      (tableRows tables) := by
  induction tables with
  | nil => exact List.Perm.refl _
  | cons p rest ih =>
    obtain ⟨k,t⟩ := p
    have hhead : batchRows (if due k then emitBatch k t else ([],t)).1++
        (if due k then emitBatch k t else ([],t)).2.rows=t.rows := by
      split
      · rw [(emitBatch_rows k t).1,(emitBatch_rows k t).2]
        exact append_nil _
      · rfl
    simp only [sealTables,batchRows_append] at ih ⊢
    have hswap : (batchRows (if due k then emitBatch k t else ([],t)).1++
          batchRows (sealTables due rest).1++
          ((if due k then emitBatch k t else ([],t)).2.rows++
            flatMap (fun p => p.2.rows) (sealTables due rest).2)).Perm
        (batchRows (if due k then emitBatch k t else ([],t)).1++
          (if due k then emitBatch k t else ([],t)).2.rows++
          (batchRows (sealTables due rest).1++
            flatMap (fun p => p.2.rows) (sealTables due rest).2)) := by
      simp only [append_assoc]
      refine List.Perm.append_left _ ?_
      rw [←append_assoc,←append_assoc]
      exact List.Perm.append_right _ perm_append_comm
    refine hswap.trans ?_
    rw [hhead]
    exact List.Perm.append_left _ ih

/-- Sealing counted tables keeps everything counted. -/
theorem sealTables_counted {tables : List (κ×Table κ)} (ht : TablesCounted tables) :
    BatchesCounted (sealTables due tables).1 ∧ TablesCounted (sealTables due tables).2 := by
  induction tables with
  | nil => exact ⟨batchesCounted_nil,ht⟩
  | cons p _ ih =>
    obtain ⟨k,t⟩ := p
    have hhead : t.Counted := ht (k,t) mem_cons_self
    have hsealed : BatchesCounted (if due k then emitBatch k t else ([],t)).1 ∧
        (if due k then emitBatch k t else ([],t)).2.Counted := by
      split
      · refine ⟨emitBatch_counted hhead,?_⟩
        rw [(emitBatch_rows k t).2]
        exact counted_empty
      · exact ⟨batchesCounted_nil,hhead⟩
    obtain ⟨hb,hrest⟩ := ih (fun q hq => ht q (mem_cons_of_mem _ hq))
    refine ⟨hsealed.1.append hb,fun q hq => ?_⟩
    rcases mem_cons.mp hq with rfl | hmem
    · exact hsealed.2
    · exact hrest q hmem

variable (tables : List (κ×Table κ))

/-- Routing one row keeps every row. -/
theorem handleRow_rows [DecidableEq κ] :
    (batchRows (handleRow v row tables).1++tableRows (handleRow v row tables).2).Perm
      (tableRows tables++[row]) := by
  have hplaced := withTable_rows row.owner (handleTable v row) row (handleTable_rows v row) tables
  unfold handleRow
  dsimp only
  split
  · rw [batchRows_append,append_assoc]
    exact (List.Perm.append_left _ (sealTables_rows _ _)).trans hplaced
  · rw [append_nil]
    exact hplaced

/-- Routing one row keeps everything counted. -/
theorem handleRow_counted [DecidableEq κ] {tables : List (κ×Table κ)} (ht : TablesCounted tables)
    : BatchesCounted (handleRow v row tables).1 ∧ TablesCounted (handleRow v row tables).2 := by
  obtain ⟨hb,hplaced⟩ := withTable_counted row.owner (fun t hc => handleTable_counted v row hc) ht
  unfold handleRow
  split
  · obtain ⟨hsealed,htables⟩ := sealTables_counted (fun _ => true) hplaced
    exact ⟨hb.append hsealed,htables⟩
  · exact ⟨hb.append batchesCounted_nil,hplaced⟩

/-- Sealing every table leaves none of their rows behind. -/
theorem sealTables_all : tableRows (sealTables (fun _ => true) tables).2=[] := by
  induction tables with
  | nil => rfl
  | cons p _ ih =>
    obtain ⟨k,t⟩ := p
    have hempty : (emitBatch k t).2.rows=[] := by
      rw [(emitBatch_rows k t).2]
      rfl
    simp only [tableRows,sealTables,if_true,flatMap_cons,hempty] at ih ⊢
    exact ih

theorem flushAll_rows : (batchRows (flushAll tables)).Perm (tableRows tables) := by
  have hrows := sealTables_rows (fun _ => true) tables
  rw [sealTables_all,append_nil] at hrows
  exact hrows

/-- Seq source whose events are held for bulk sends. -/
structure SeqAlloc where
  /-- One past the last opened seq. -/
  next : Nat
  registered : List AckEvent
  placed : List AckEvent

/-- Allocator opening at the first seq. -/
def SeqAlloc.held : SeqAlloc := ⟨0,[],[]⟩

/-- Open the next seq and hold its registration. -/
def SeqAlloc.openNext (a : SeqAlloc) (commitLsn : Nat) (publish : Bool) : SeqAlloc :=
  {a with next := a.next+1,registered := a.registered++[.register a.next commitLsn publish]}

/-- Hold the placement of a seq. -/
def SeqAlloc.place (a : SeqAlloc) (seq rows : Nat) : SeqAlloc :=
  {a with placed := a.placed++[.placed seq rows]}

/-- Ordering marker carrying no rows. -/
def SeqAlloc.mark (a : SeqAlloc) (commitLsn : Nat) : SeqAlloc :=
  (a.openNext commitLsn true).place a.next 0

/-- One collector event for a nonempty list of held events. -/
def bulk (evs : List AckEvent) : List AckEvent := if evs.isEmpty then [] else [.batch evs]

end Walshadow.PipelineStages
