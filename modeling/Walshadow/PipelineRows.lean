import Walshadow.PipelineProtocol

/-!
# Rows of the pipeline

Where rows can be and how they move: no stage duplicates a row or loses one
without recording it, every sealed batch carries the counts of its rows, every
row carries the seq it was placed under, and the script still owes exactly the
rows that were not opened yet.
-/

namespace Walshadow.PipelineRows

open PipelineStages PipelineProtocol List

variable {κ : Type}

/-- Rows of every opened seq. -/
def placedRows (s : Pipeline κ) : List (RoutedRow κ) := s.opened.flatMap (fun o => o.rows)

/-- Rows waiting in the batcher channel. -/
def chanRows (msgs : List (BatcherMsg κ)) : List (RoutedRow κ) := msgs.flatMap BatcherMsg.rows

/-- Rows that left the reorder stage and were not lost. -/
def sentRows (s : Pipeline κ) : List (RoutedRow κ) :=
  chanRows s.rowsChan++s.work++tableRows s.tables++batchRows s.outbox++batchRows s.batches++
    batchRows s.resolving++batchRows s.resolved++batchRows s.inserting++s.delivered

/-- Every placed row is staged, lost or sent, exactly once. -/
def Conserved (s : Pipeline κ) : Prop :=
  (placedRows s).Perm (s.staged.flatten++s.dropped++sentRows s)

/-- Every batch and table carries the counts of its rows. -/
structure Counted (s : Pipeline κ) : Prop where
  tables : TablesCounted s.tables
  outbox : BatchesCounted s.outbox
  batches : BatchesCounted s.batches
  resolving : BatchesCounted s.resolving
  resolved : BatchesCounted s.resolved
  inserting : BatchesCounted s.inserting

/-- Every row was placed under the seq and commit it carries. -/
def Owned (s : Pipeline κ) : Prop :=
  ∀ (i : Nat) (o : OpenedSeq κ),s.opened[i]?=some o →
    ∀ r∈o.rows,r.seq=i ∧ r.commitLsn=o.commitLsn

theorem batchRows_cons (b : InsertBatch κ) (bs : List (InsertBatch κ)) :
    batchRows (b::bs)=b.rows++batchRows bs := rfl

theorem chanRows_append (xs ys : List (BatcherMsg κ)) :
    chanRows (xs++ys)=chanRows xs++chanRows ys := flatMap_append

theorem chanRows_cons (m : BatcherMsg κ) (ms : List (BatcherMsg κ)) :
    chanRows (m::ms)=m.rows++chanRows ms := rfl

theorem placed_append (os : List (OpenedSeq κ)) (o : OpenedSeq κ) :
    (os++[o]).flatMap (fun o => o.rows)=os.flatMap (fun o => o.rows)++o.rows := by
  simp

variable {b : InsertBatch κ}

theorem counted_remove {before after : List (InsertBatch κ)}
    (h : BatchesCounted (before++b::after)) : BatchesCounted (before++after) ∧ b.Counted := by
  refine ⟨fun c hc => h c ?_,h b (by simp)⟩
  rcases mem_append.mp hc with hb | ha
  · exact mem_append_left _ hb
  · exact mem_append_right _ (mem_cons_of_mem _ ha)

variable {bs : List (InsertBatch κ)}

theorem counted_uncons (h : BatchesCounted (b::bs)) : BatchesCounted bs ∧ b.Counted :=
  ⟨fun c hc => h c (mem_cons_of_mem _ hc),h b mem_cons_self⟩

theorem counted_cons (hb : b.Counted) (h : BatchesCounted bs) : BatchesCounted (b::bs) := by
  intro c hc
  rcases mem_cons.mp hc with rfl | hmem
  · exact hb
  · exact h c hmem

theorem tablesCounted_nil : TablesCounted ([] : List (κ×Table κ)) := by
  intro p hp
  cases hp

variable {s t : Pipeline κ} {cfg : Config}

section Conservation

variable [DecidableEq κ]

/-- Sent rows, row by row. -/
theorem count_sentRows (s : Pipeline κ) (r : RoutedRow κ) :
    (sentRows s).count r=(chanRows s.rowsChan).count r+s.work.count r+
      (tableRows s.tables).count r+(batchRows s.outbox).count r+(batchRows s.batches).count r+
      (batchRows s.resolving).count r+(batchRows s.resolved).count r+
      (batchRows s.inserting).count r+s.delivered.count r := by
  simp only [sentRows,count_append]

/-- What a step does with a row: rows placed in it are staged, others stay staged, lost or
sent, and rows enter the sent ones only from the stage, by a ship in progress. -/
theorem rows_step (move : Step cfg s t) (r : RoutedRow κ) :
    ∃ placed,(placedRows t).count r=(placedRows s).count r+placed ∧
      t.staged.flatten.count r+t.dropped.count r+(sentRows t).count r =
        s.staged.flatten.count r+s.dropped.count r+(sentRows s).count r+placed ∧
      (sentRows t).count r ≤
        (sentRows s).count r+if s.phase=.sending then s.staged.flatten.count r else 0 := by
  simp only [count_sentRows,placedRows]
  cases move with
  | dispatch =>
    simp only [Pipeline.dispatch,placed_append,(placeRows_spec _ _ _ _ _ _).1,count_append]
    exact ⟨_,rfl,by omega,Nat.le_add_right _ _⟩
  | mark =>
    simp only [placed_append,append_nil]
    exact ⟨0,rfl,rfl,Nat.le_add_right _ _⟩
  | sendStaged =>
    unfold Pipeline.sendStaged
    split
    case isTrue => exact ⟨0,rfl,rfl,Nat.le_add_right _ _⟩
    case isFalse =>
      simp only [chanRows_append,chanRows_cons,BatcherMsg.rows,count_append,flatten_nil]
      simp only [chanRows,flatMap_nil,count_nil]
      exact ⟨0,rfl,by omega,by omega⟩
  | sendFlush =>
    have hsame : chanRows (s.rowsChan++[.flushAll])=chanRows s.rowsChan := by
      simp [chanRows,BatcherMsg.rows]
    simp only [hsame]
    exact ⟨0,rfl,rfl,Nat.le_add_right _ _⟩
  | halt =>
    simp only [flatten_nil,count_nil,count_append]
    exact ⟨0,rfl,by omega,Nat.le_add_right _ _⟩
  | recvChunks free _ _ head =>
    simp only [head,free,chanRows_cons,BatcherMsg.rows,count_append,count_nil]
    exact ⟨0,rfl,by omega,by omega⟩
  | recvFlush _ sent _ head =>
    have hflush := (flushAll_rows s.tables).count_eq r
    simp only [head,sent,chanRows_cons,BatcherMsg.rows,batchRows_nil,nil_append,
      count_nil,tableRows,flatMap_nil] at hflush ⊢
    exact ⟨0,rfl,by omega,by omega⟩
  | row v sent head =>
    rename_i r' rest
    have hrow := (handleRow_rows v r' s.tables).count_eq r
    simp only [head,sent,batchRows_nil,count_append,count_cons] at hrow ⊢
    exact ⟨0,rfl,by omega,by omega⟩
  | flushDue due _ sent =>
    have hseal := (sealTables_rows due s.tables).count_eq r
    simp only [sent,batchRows_nil,count_nil,count_append] at hseal ⊢
    exact ⟨0,rfl,by omega,by omega⟩
  | sendBatch head =>
    simp only [head,batchRows_append,batchRows_cons,batchRows_nil,count_append,count_nil]
    exact ⟨0,rfl,by omega,by omega⟩
  | batcherFail =>
    simp only [count_append,count_nil,batchRows_nil,tableRows,flatMap_nil]
    exact ⟨0,rfl,by omega,by omega⟩
  | resolverTake head =>
    simp only [head,batchRows_cons,count_append]
    exact ⟨0,rfl,by omega,by omega⟩
  | resolverSend held =>
    simp only [held,batchRows_append,batchRows_cons,batchRows_nil,count_append,count_nil]
    exact ⟨0,rfl,by omega,by omega⟩
  | resolverFail held =>
    simp only [held,batchRows_append,batchRows_cons,count_append]
    exact ⟨0,rfl,by omega,by omega⟩
  | inserterTake head =>
    simp only [head,batchRows_cons,count_append]
    exact ⟨0,rfl,by omega,by omega⟩
  | inserterDurable held | inserterFail held =>
    simp only [held,batchRows_append,batchRows_cons,count_append]
    exact ⟨0,rfl,by omega,by omega⟩
  | _ => exact ⟨0,rfl,rfl,Nat.le_add_right _ _⟩

/-- No stage duplicates or silently loses a row. -/
theorem Conserved.step (h : Conserved s) (move : Step cfg s t) : Conserved t := by
  refine perm_iff_count.mpr fun r => ?_
  have hr := h.count_eq r
  obtain ⟨_,_,_,-⟩ := rows_step move r
  rw [count_append,count_append] at hr ⊢
  omega

/-- Every batch stays counted. -/
theorem Counted.step (h : Counted s) (move : Step cfg s t) : Counted t := by
  obtain ⟨ht,ho,hb,hr,hd,hi⟩ := h
  cases move with
  | sendStaged =>
    unfold Pipeline.sendStaged
    split <;> exact ⟨ht,ho,hb,hr,hd,hi⟩
  | recvFlush =>
    exact ⟨tablesCounted_nil,(sealTables_counted _ ht).1,hb,hr,hd,hi⟩
  | row v =>
    obtain ⟨hbatch,htable⟩ := handleRow_counted v _ ht
    exact ⟨htable,hbatch,hb,hr,hd,hi⟩
  | flushDue due =>
    obtain ⟨hbatch,htable⟩ := sealTables_counted due ht
    exact ⟨htable,hbatch,hb,hr,hd,hi⟩
  | sendBatch head =>
    rw [head] at ho
    obtain ⟨hrest,hhead⟩ := counted_uncons ho
    exact ⟨ht,hrest,hb.append (counted_cons hhead batchesCounted_nil),hr,hd,hi⟩
  | batcherFail =>
    exact ⟨tablesCounted_nil,batchesCounted_nil,hb,hr,hd,hi⟩
  | resolverTake head =>
    rw [head] at hb
    obtain ⟨hrest,hhead⟩ := counted_uncons hb
    exact ⟨ht,ho,hrest,counted_cons hhead hr,hd,hi⟩
  | resolverSend held =>
    rw [held] at hr
    obtain ⟨hrest,hhead⟩ := counted_remove hr
    exact ⟨ht,ho,hb,hrest,hd.append (counted_cons hhead batchesCounted_nil),hi⟩
  | resolverFail held =>
    rw [held] at hr
    exact ⟨ht,ho,hb,(counted_remove hr).1,hd,hi⟩
  | inserterTake head =>
    rw [head] at hd
    obtain ⟨hrest,hhead⟩ := counted_uncons hd
    exact ⟨ht,ho,hb,hr,hrest,counted_cons hhead hi⟩
  | inserterDurable held | inserterFail held =>
    rw [held] at hi
    exact ⟨ht,ho,hb,hr,hd,(counted_remove hi).1⟩
  | _ => exact ⟨ht,ho,hb,hr,hd,hi⟩

/-- A sent row was sent before or is being shipped. -/
theorem mem_sentRows_step (move : Step cfg s t) {r : RoutedRow κ} (hr : r∈sentRows t) :
    r∈sentRows s ∨ s.phase=.sending ∧ r∈s.staged.flatten := by
  obtain ⟨-,-,-,hcount⟩ := rows_step move r
  have hpos := count_pos_iff.mpr hr
  split_ifs at hcount with hphase
  · by_cases hold : 0<(sentRows s).count r
    · exact .inl (count_pos_iff.mp hold)
    · exact .inr ⟨hphase,count_pos_iff.mp (by omega)⟩
  · exact .inl (count_pos_iff.mp (by omega))

end Conservation

/-- A placed row carries its seq and commit position. -/
theorem heapRows_mem {snowflake : Bool} {seq commitLsn : Nat} {h : RoutedHeap κ} {r : RoutedRow κ}
    (hr : r∈heapRows snowflake seq commitLsn h) : r.seq=seq ∧ r.commitLsn=commitLsn := by
  unfold heapRows at hr
  split at hr
  · cases hr
  · split at hr
    · cases hr
    · split at hr <;> simp at hr
      · rcases hr with rfl | rfl <;> exact ⟨rfl,rfl⟩
      · rw [hr]
        exact ⟨rfl,rfl⟩

/-- One more seq with rows of its own keeps every row owned. -/
theorem owned_append {os : List (OpenedSeq κ)} {o : OpenedSeq κ}
    (h : ∀ (i : Nat) (o : OpenedSeq κ),os[i]?=some o →
      ∀ r∈o.rows,r.seq=i ∧ r.commitLsn=o.commitLsn)
    (ho : ∀ r∈o.rows,r.seq=os.length ∧ r.commitLsn=o.commitLsn) :
    ∀ (i : Nat) (p : OpenedSeq κ),(os++[o])[i]?=some p →
      ∀ r∈p.rows,r.seq=i ∧ r.commitLsn=p.commitLsn := by
  intro i p hp
  rw [getElem?_append] at hp
  split at hp
  · exact h i p hp
  case isFalse hlen =>
    have hend : i-os.length=0 := by
      by_contra hne
      rw [getElem?_eq_none (by simp; omega)] at hp
      cases hp
    rw [hend] at hp
    obtain rfl : o=p := Option.some.inj hp
    have hi : i=os.length := by omega
    rw [hi]
    exact ho

/-- Every row stays with the seq it was placed under. -/
theorem Owned.step [DecidableEq κ] (h : Owned s)
    (hnext : s.seqs.next=s.opened.length) (move : Step cfg s t) : Owned t := by
  cases move with
  | dispatch =>
    refine owned_append h (fun r hr => ?_)
    obtain ⟨_,-,hmem⟩ := mem_flatMap.mp hr
    rw [←hnext]
    exact heapRows_mem hmem
  | mark => exact owned_append h nofun
  | sendStaged =>
    unfold Pipeline.sendStaged
    split <;> exact h
  | _ => exact h

/-- Row without its seq. -/
def unseq (r : RoutedRow κ) : RoutedRow κ := {r with seq := 0}

/-- Rows a step of the reorder stage routes. -/
def instrRows (cfg : Config) : Instr κ→List (RoutedRow κ)
  | .dispatch commitLsn _ heaps _ => heaps.flatMap (heapRows cfg.snowflake 0 commitLsn)
  | _ => []

/-- Opened and remaining rows are those of the whole script. -/
def Owes (cfg : Config) (prog : List (Instr κ)) (s : Pipeline κ) : Prop :=
  (placedRows s).map unseq++s.script.flatMap (instrRows cfg)=prog.flatMap (instrRows cfg)

variable (snowflake : Bool) (seq commitLsn : Nat)

/-- The seq is the only thing placement adds to a row. -/
theorem unseq_heapRows (h : RoutedHeap κ) :
    (heapRows snowflake seq commitLsn h).map unseq=heapRows snowflake 0 commitLsn h := by
  unfold heapRows
  split
  · rfl
  · split
    · rfl
    · split <;> rfl

/-- The seq is the only thing placement adds to the rows of a dispatch. -/
theorem unseq_dispatch (heaps : List (RoutedHeap κ)) :
    (heaps.flatMap (heapRows snowflake seq commitLsn)).map unseq =
      heaps.flatMap (heapRows snowflake 0 commitLsn) := by
  rw [map_flatMap]
  congr 1
  funext h
  exact unseq_heapRows snowflake seq commitLsn h

/-- The script always owes exactly what was not opened yet. -/
theorem Owes.step [DecidableEq κ] {prog : List (Instr κ)}
    (h : Owes cfg prog s) (move : Step cfg s t) : Owes cfg prog t := by
  unfold Owes at h ⊢
  cases move with
  | dispatch _ _ next =>
    rw [next] at h
    simp only [Pipeline.dispatch,placedRows,placed_append,map_append,unseq_dispatch]
    simpa [placedRows,instrRows] using h
  | mark _ _ next =>
    rw [next] at h
    simpa [placedRows,instrRows] using h
  | admitBytes short live idle next | ship live idle next => rw [next] at h; exact h
  | sendStaged =>
    unfold Pipeline.sendStaged
    split <;> exact h
  | sendFlush live idle next | awaitFlush live idle next replied
  | awaitDurable live idle next through | apply live idle next | trailing live idle next =>
    rw [next] at h; exact h
  | _ => exact h

end Walshadow.PipelineRows
