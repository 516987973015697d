import Walshadow.SpoolReplay

/-!
# Replay of deferred rows over crashes

Deferred rows are read back in batches, one batch ahead of the one being sent. After a batch
the replay may wait until every sequence sent so far is acknowledged and save how far the
batches sent reach into the spool; the next attempt starts there. Rows of relations that are
no longer walked or mapped are passed over. A batch that cannot be read or resolved ends the
attempt once the one before it is sent. Whatever is interrupted, the saved offset has no row
behind it that was not acknowledged.
-/

namespace Walshadow.DeferredReplay

open SpoolCodec SpoolReplay List

/-- Rows of a batch. -/
def replayBatchRows : ℕ := 65536

/-- Bytes fetched for a batch. -/
def replayFetchBytes : ℕ := 64*2^20

/-- What the fetch of a value gave. -/
inductive Fetched where
  /-- Its stored bytes, which decode or do not. -/
  | assembled (decodes : Bool)
  | noStore
  | missing
  /-- Chunks of another size than the pointer's. -/
  | mismatch
  /-- A later value under its id. -/
  | generation

/-- A value is there or filled in; a store that the pass owns has to have it. -/
def applyFetched (owned : Bool) : Fetched→Bool
  | .assembled decodes => decodes
  | .missing | .mismatch => !owned
  | .noStore | .generation => true

/-- What a pass makes of a tuple. -/
structure Pass where
  /-- Its relation is walked and mapped. -/
  routes : SpoolTuple→Bool
  /-- Bytes of its values and of its row; none where a value is over its cap. -/
  weight : SpoolTuple→Option ℕ
  /-- What its values are in the store. -/
  values : SpoolTuple→List Fetched
  /-- The pass has put the chunks into the store itself. -/
  owned : Bool

/-- The values of a tuple resolve. -/
def Pass.resolves (p : Pass) (t : SpoolTuple) : Bool := (p.values t).all (applyFetched p.owned)

/-- Read until a batch is full or the spool ends. Nothing comes of a read error, a value over
its cap, or a bound that is too small. -/
def nextBatch (p : Pass) : ℕ→DeferredReader→List SpoolTuple→ℕ →
    Option (List SpoolTuple×DeferredReader)
  | 0,_,_,_ => none
  | bound+1,r,rows,bytes =>
    if rows.length < replayBatchRows ∧ bytes < replayFetchBytes then
      match r.next with
      | .error _ => none
      | .ok none => some (rows,r)
      | .ok (some (t,r')) =>
        if p.routes t then
          match p.weight t with
          | none => none
          | some n => nextBatch p bound r' (rows++[t]) (bytes+n)
        else nextBatch p bound r' rows bytes
    else some (rows,r)

/-- The next batch with its values resolved; a batch without rows is the end. -/
def prepareBatch (p : Pass) (r : DeferredReader) :
    Option (Option (List SpoolTuple)×DeferredReader) :=
  match nextBatch p (r.remainingFileBytes+1) r [] 0 with
  | none => none
  | some ([],r') => some (none,r')
  | some (rows,r') => if rows.all p.resolves then some (some rows,r') else none

/-- A running replay. -/
structure Running where
  reader : DeferredReader
  /-- Batch read ahead. -/
  ready : Option (List SpoolTuple)
  /-- There is none because it could not be prepared. -/
  failed : Bool
  /-- Bytes of the spool behind the last batch sent. -/
  remaining : Option ℕ
  /-- Rows sent and not acknowledged, with their sequences. -/
  inflight : List (ℕ×SpoolTuple)
  nextSeq : ℕ

/-- The checkpoint file, the destination and the process. -/
structure World where
  /-- Offset in the checkpoint file. -/
  saved : ℕ
  /-- Rows acknowledged in any attempt. -/
  acked : List SpoolTuple
  /-- An attempt succeeded. -/
  done : Bool
  live : Option Running

def World.start : World := ⟨0,[],false,none⟩

/-- What can happen. -/
inductive Step where
  /-- The process that walked replays its open spool. -/
  | opened (firstSeq : ℕ)
  /-- A process resumes at the saved offset. -/
  | resumed (firstSeq : ℕ)
  /-- A batch is sent while the next one is read, and the store answers or does not. -/
  | turn (answers : Bool)
  /-- The destination acknowledges a row. -/
  | ack (i : ℕ)
  /-- The sequences are waited for, and the offset is saved. -/
  | tick
  /-- The spool is at its end: as before, and the attempt succeeds. -/
  | finish
  /-- The process ends. -/
  | crash

/-- First batch of an attempt. -/
def begin (p : Pass) (w : World) (firstSeq : ℕ) : Except SpoolError DeferredReader→World
  | .error _ => w
  | .ok r =>
    match prepareBatch p r with
    | none => w
    | some (ready,r') => {w with live := some ⟨r',ready,false,none,[],firstSeq⟩}

/-- Every sequence below the bound has arrived. -/
def Running.proven (r : Running) : Bool := r.inflight.all (fun row => decide (r.nextSeq ≤ row.1))

/-- A batch is sent under the next sequence. -/
def Running.sent (r : Running) (batch : List SpoolTuple) : Running :=
  {r with
    ready := none
    failed := true
    remaining := some r.reader.remainingFileBytes
    inflight := r.inflight++batch.map (fun t => (r.nextSeq,t))
    nextSeq := r.nextSeq+1}

/-- Send the batch read ahead and read the next one. -/
def sendBatch (p : Pass) (answers : Bool) (w : World) (r : Running) : World :=
  match r.ready with
  | none => w
  | some batch =>
    match if answers then prepareBatch p r.reader else none with
    | none => {w with live := some (r.sent batch)}
    | some (ready,reader) =>
      {w with live := some {r.sent batch with reader := reader, ready := ready, failed := false}}

/-- A row arrives. -/
def arrive (i : ℕ) (w : World) (r : Running) : World :=
  match r.inflight[i]? with
  | none => w
  | some row =>
    {w with acked := w.acked++[row.2], live := some {r with inflight := r.inflight.eraseIdx i}}

/-- Save how far the batches sent reach. -/
def save (total : ℕ) (w : World) (r : Running) : World :=
  match r.remaining with
  | none => w
  | some remaining => if r.proven then {w with saved := total-remaining} else w

/-- End the replay. -/
def conclude (total : ℕ) (w : World) (r : Running) : World :=
  if r.ready.isNone && !r.failed && r.proven then
    {w with saved := total, done := true, live := none}
  else w

/-- One step of replaying a sealed spool. -/
def step (p : Pass) (s : Session) (w : World) : Step→World
  | .opened firstSeq =>
    if w.saved=0 ∧ w.live.isNone then begin p w firstSeq (s.spool.intoReader s.disk) else w
  | .resumed firstSeq =>
    if w.live.isNone then begin p w firstSeq (s.resumeAt w.saved) else w
  | .turn answers => w.live.elim w (sendBatch p answers w)
  | .ack i => w.live.elim w (arrive i w)
  | .tick => w.live.elim w (save (s.savedMark 0).1.bytes w)
  | .finish => w.live.elim w (conclude (s.savedMark 0).1.bytes w)
  | .crash => {w with live := none}

/-- Steps in order. -/
def run (p : Pass) (s : Session) (w : World) (es : List Step) : World := es.foldl (step p s) w

variable {p : Pass} {ts : List SpoolTuple}

/-- Replay of the file with just these records ahead. -/
def ahead (ts : List SpoolTuple) : DeferredReader := .file (framed ts++[]) (framed ts).length

variable {r' : DeferredReader}

/-- A batch takes the routed rows of the records it reads, and one that has none reads all. -/
theorem nextBatch_ahead (hfits : ∀ t∈ts,Fits t) {bound bytes : ℕ} {rows rows' : List SpoolTuple}
    (hbytes : rows=[]→bytes=0)
    (h : nextBatch p bound (ahead ts) rows bytes=some (rows',r')) :
    ∃ k, r'=ahead (ts.drop k) ∧ rows'=rows++(ts.take k).filter p.routes ∧
      (rows'=[]→ts.drop k=[]) := by
  induction bound generalizing ts rows bytes with
  | zero => cases h
  | succ _ ih =>
    unfold nextBatch at h
    split_ifs at h with hroom
    · cases ts with
      | nil =>
        cases h
        exact ⟨0,rfl,(append_nil rows').symm,fun _ => rfl⟩
      | cons t ts =>
        have hrest : ∀ u∈ts,Fits u := fun u hu => hfits u (mem_cons_of_mem t hu)
        have hnext : (ahead (t::ts)).next=.ok (some (t,ahead ts)) :=
          next_file (hfits t mem_cons_self) ts []
        rw [hnext] at h
        dsimp only at h
        split_ifs at h with hroutes
        · split at h
          case h_1 => cases h
          case h_2 =>
            obtain ⟨k,hr,hrows,hend⟩ :=
              ih hrest (fun hnil => absurd hnil (append_ne_nil_of_right_ne_nil rows (by simp))) h
            refine ⟨k+1,hr,?_,hend⟩
            rw [hrows,take_succ_cons,filter_cons_of_pos hroutes,append_assoc,singleton_append]
        · obtain ⟨k,hr,hrows,hend⟩ := ih hrest hbytes h
          refine ⟨k+1,hr,?_,hend⟩
          rw [hrows,take_succ_cons,filter_cons_of_neg hroutes]
    · cases h
      refine ⟨0,rfl,(append_nil rows').symm,fun hnil => ?_⟩
      refine absurd ⟨?_,?_⟩ hroom
      · rw [hnil]
        decide
      · rw [hbytes hnil]
        decide

variable {ready : Option (List SpoolTuple)}

/-- Reading ahead from a record: the batch has the routed rows up to the next one, and where
there is none all of them are before. -/
theorem prepareBatch_ahead (hfits : ∀ t∈ts,Fits t) {m : ℕ}
    (h : prepareBatch p (ahead (ts.drop m))=some (ready,r')) :
    ∃ m', r'=ahead (ts.drop m') ∧
      (∀ batch, ready=some batch→∀ t∈ts.take m',p.routes t=true→t∈ts.take m ∨ t∈batch) ∧
      (ready=none→∀ t∈ts,p.routes t=true→t∈ts.take m) ∧
      (ready.isSome→ts.length-m'<ts.length-m) := by
  unfold prepareBatch at h
  cases hbatch : nextBatch p ((ahead (ts.drop m)).remainingFileBytes+1) (ahead (ts.drop m)) [] 0 with
  | none =>
    rw [hbatch] at h
    cases h
  | some found =>
    obtain ⟨rows,_⟩ := found
    obtain ⟨k,hr,hrows,hend⟩ :=
      nextBatch_ahead (fun t ht => hfits t (mem_of_mem_drop ht)) (fun _ => rfl) hbatch
    have hread : ∀ t∈(ts.drop m).take k,p.routes t=true→t∈rows := by
      intro t ht hroutes
      rw [hrows]
      exact mem_filter.mpr ⟨ht,hroutes⟩
    rw [hbatch] at h
    cases rows with
    | nil =>
      cases h
      refine ⟨m+k,by rw [hr,drop_drop],nofun,fun _ t ht hroutes => ?_,nofun⟩
      rw [←take_append_drop m ts,←take_append_drop k (ts.drop m),hend rfl,append_nil] at ht
      obtain ht | ht := mem_append.mp ht
      · exact ht
      · exact absurd (hread t ht hroutes) not_mem_nil
    | cons =>
      dsimp only at h
      split_ifs at h
      cases h
      refine ⟨m+k,by rw [hr,drop_drop],fun batch hready t ht hroutes => ?_,nofun,fun _ => ?_⟩
      · cases hready
        rw [take_add] at ht
        exact (mem_append.mp ht).imp id (hread t · hroutes)
      · have hsome : 0<((ts.drop m).take k).length :=
          length_pos_of_mem (mem_of_mem_filter (hrows ▸ mem_cons_self))
        rw [length_take,length_drop] at hsome
        omega

/-- What holds of a running replay that has sent the routed rows of `k` records and read `m`. -/
structure Running.Valid (p : Pass) (ts acked : List SpoolTuple) (r : Running) (k m : ℕ) : Prop where
  reader : r.reader=ahead (ts.drop m)
  sent : ∀ t∈ts.take k,p.routes t=true→t∈acked ∨ ∃ seq, (seq,t)∈r.inflight
  /-- The batch read ahead has what is read and not sent. -/
  batch : ∀ batch, r.ready=some batch →
    ∀ t∈ts.take m,p.routes t=true→t∈ts.take k ∨ t∈batch
  /-- Without one there is nothing to send, unless it could not be prepared. -/
  ended : r.ready=none → r.failed=false→∀ t∈ts,p.routes t=true→t∈ts.take k
  remaining : ∀ n, r.remaining=some n→n=(framed (ts.drop k)).length
  seqs : ∀ row∈r.inflight,row.1 < r.nextSeq

/-- Where every sequence arrived, the rows sent are acknowledged. -/
theorem Running.Valid.acked {acked : List SpoolTuple} {r : Running} {k m : ℕ}
    (h : r.Valid p ts acked k m) (hproven : r.proven=true) :
    ∀ t∈ts.take k,p.routes t=true→t∈acked := by
  intro t ht hroutes
  refine (h.sent t ht hroutes).resolve_right fun ⟨seq,hseq⟩ => ?_
  have hle := of_decide_eq_true (all_eq_true.mp hproven _ hseq)
  have hlt := h.seqs _ hseq
  omega

/-- What holds in every state. -/
structure World.Valid (p : Pass) (ts : List SpoolTuple) (w : World) : Prop where
  /-- The saved offset is behind records whose rows are acknowledged. -/
  saved : ∃ n, w.saved=(framed (ts.take n)).length ∧
    ∀ t∈ts.take n,p.routes t=true→t∈w.acked
  done : w.done=true→∀ t∈ts,p.routes t=true→t∈w.acked
  live : ∀ r, w.live=some r→∃ k m, r.Valid p ts w.acked k m

variable {w : World} {s : Session}

theorem World.Valid.down (h : w.Valid p ts) : World.Valid p ts {w with live := none} :=
  {h with live := nofun}

/-- An attempt starts behind the saved offset. -/
theorem World.Valid.begin (h : w.Valid p ts) (hfits : ∀ t∈ts,Fits t) {n : ℕ}
    (hn : ∀ t∈ts.take n,p.routes t=true→t∈w.acked) (firstSeq : ℕ) :
    (begin p w firstSeq (.ok (ahead (ts.drop n)))).Valid p ts := by
  unfold DeferredReplay.begin
  dsimp only
  cases hbatch : prepareBatch p (ahead (ts.drop n)) with
  | none => exact h
  | some found =>
    obtain ⟨_,_⟩ := found
    obtain ⟨m,hreader,hready,hend,-⟩ := prepareBatch_ahead hfits hbatch
    refine {h with live := fun r hr => ?_}
    cases hr
    exact ⟨n,m,hreader,fun t ht hroutes => .inl (hn t ht hroutes),hready,fun hnone _ => hend hnone,
      nofun,nofun⟩

section

variable {acked batch : List SpoolTuple} {r : Running} {k m : ℕ}

/-- A batch is sent. -/
theorem Running.Valid.send (h : r.Valid p ts acked k m) (hbatch : r.ready=some batch) :
    (r.sent batch).Valid p ts acked m m := by
  refine ⟨h.reader,fun t ht hroutes => ?_,nofun,nofun,fun n hn => ?_,fun row hrow => ?_⟩
  · obtain hsent | hnew := h.batch batch hbatch t ht hroutes
    · exact (h.sent t hsent hroutes).imp id fun ⟨seq,hseq⟩ => ⟨seq,mem_append_left _ hseq⟩
    · exact .inr ⟨r.nextSeq,mem_append_right _ (mem_map.mpr ⟨t,hnew,rfl⟩)⟩
  · cases hn
    rw [h.reader]
    rfl
  · obtain hrow | hrow := mem_append.mp hrow
    · exact Nat.lt_succ_of_lt (h.seqs row hrow)
    · obtain ⟨_,-,rfl⟩ := mem_map.mp hrow
      exact Nat.lt_succ_self _

/-- The next batch is read. -/
theorem Running.Valid.read (h : r.Valid p ts acked m m) (hfits : ∀ t∈ts,Fits t)
    {reader : DeferredReader} (hnext : prepareBatch p r.reader=some (ready,reader)) :
    ∃ m', Running.Valid p ts acked {r with reader := reader, ready := ready, failed := false} m m' ∧
      (ready.isSome→ts.length-m'<ts.length-m) := by
  rw [h.reader] at hnext
  obtain ⟨m',hreader,hready,hend,hless⟩ := prepareBatch_ahead hfits hnext
  exact ⟨m',{h with reader := hreader, batch := hready, ended := fun hnone _ => hend hnone},hless⟩

end

/-- A row arrives. -/
theorem Running.Valid.ack {acked : List SpoolTuple} {r : Running} {k m i : ℕ} {row : ℕ×SpoolTuple}
    (h : r.Valid p ts acked k m) (hrow : r.inflight[i]?=some row) :
    Running.Valid p ts (acked++[row.2]) {r with inflight := r.inflight.eraseIdx i} k m := by
  refine {h with
    sent := fun t ht hroutes => ?_
    seqs := fun other hother => h.seqs other (mem_of_mem_eraseIdx hother)}
  obtain hacked | ⟨seq,hseq⟩ := h.sent t ht hroutes
  · exact .inl (mem_append_left _ hacked)
  · obtain ⟨j,hj⟩ := mem_iff_getElem?.mp hseq
    by_cases hij : j=i
    · rw [hij,hrow] at hj
      cases hj
      exact .inl (mem_append_right _ (mem_singleton_self t))
    · exact .inr ⟨seq,mem_eraseIdx_iff_getElem?.mpr ⟨j,hij,hj⟩⟩

theorem bytes_sub (hs : Sealed s ts) (k : ℕ) :
    (s.savedMark 0).1.bytes-(framed (ts.drop k)).length=(framed (ts.take k)).length := by
  have hsplit : (framed ts).length=(framed (ts.take k)).length+(framed (ts.drop k)).length := by
    rw [←length_append,←framed_append,take_append_drop]
  rw [hs.mark,hsplit,Nat.add_sub_cancel]

section

variable (h : w.Valid p ts)

include h

/-- A step of the running replay. -/
theorem World.Valid.live_step {f : Running→World}
    (hf : ∀ r k m, r.Valid p ts w.acked k m→(f r).Valid p ts) : (w.live.elim w f).Valid p ts := by
  cases hlive : w.live with
  | none => exact h
  | some r =>
    obtain ⟨k,m,hr⟩ := h.live r hlive
    exact hf r k m hr

theorem World.Valid.sendBatch (hfits : ∀ t∈ts,Fits t) {r : Running} {k m : ℕ}
    (hr : r.Valid p ts w.acked k m) (answers : Bool) : (sendBatch p answers w r).Valid p ts := by
  unfold DeferredReplay.sendBatch
  cases hready : r.ready with
  | none => exact h
  | some =>
    have hsent := hr.send hready
    dsimp only
    split
    · refine {h with live := fun r' hlive => ?_}
      cases hlive
      exact ⟨m,m,hsent⟩
    · rename_i hnext
      cases answers with
      | false => cases hnext
      | true =>
        obtain ⟨m',hr',-⟩ := hsent.read hfits hnext
        refine {h with live := fun r' hlive => ?_}
        cases hlive
        exact ⟨m,m',hr'⟩

theorem World.Valid.arrive {r : Running} {k m : ℕ}
    (hr : r.Valid p ts w.acked k m) (i : ℕ) : (arrive i w r).Valid p ts := by
  unfold DeferredReplay.arrive
  cases hrow : r.inflight[i]? with
  | none => exact h
  | some =>
    obtain ⟨n,hsaved,hacked⟩ := h.saved
    refine ⟨⟨n,hsaved,fun t ht hroutes => mem_append_left _ (hacked t ht hroutes)⟩,
      fun hdone t ht hroutes => mem_append_left _ (h.done hdone t ht hroutes),
      fun r' hlive => ?_⟩
    cases hlive
    exact ⟨k,m,hr.ack hrow⟩

theorem World.Valid.save (hs : Sealed s ts) {r : Running} {k m : ℕ}
    (hr : r.Valid p ts w.acked k m) : (save (s.savedMark 0).1.bytes w r).Valid p ts := by
  unfold DeferredReplay.save
  cases hremaining : r.remaining with
  | none => exact h
  | some remaining =>
    split_ifs with hproven
    · refine {h with saved := ⟨k,?_,hr.acked hproven⟩}
      rw [hr.remaining remaining hremaining]
      exact bytes_sub hs k
    · exact h

theorem World.Valid.conclude (hs : Sealed s ts) {r : Running} {k m : ℕ}
    (hr : r.Valid p ts w.acked k m) : (conclude (s.savedMark 0).1.bytes w r).Valid p ts := by
  unfold DeferredReplay.conclude
  split_ifs with hend
  · obtain ⟨hready,hproven⟩ := Bool.and_eq_true_iff.mp hend
    obtain ⟨hready,hfailed⟩ := Bool.and_eq_true_iff.mp hready
    have hended := hr.ended (Option.isNone_iff_eq_none.mp hready) (Bool.not_eq_true' _ ▸ hfailed)
    have hall : ∀ t∈ts,p.routes t=true→t∈w.acked := fun t ht hroutes =>
      hr.acked hproven t (hended t ht hroutes) hroutes
    refine ⟨⟨ts.length,?_,fun t ht => hall t (mem_of_mem_take ht)⟩,fun _ => hall,nofun⟩
    rw [take_length,hs.mark]
  · exact h

end

section

variable (hs : Sealed s ts) (hopen : s.spool.intoReader s.disk=.ok (ahead ts))
  (hfits : ∀ t∈ts,Fits t) (h : w.Valid p ts)

include hs hopen hfits h

/-- One step. -/
theorem step_valid (e : Step) : (step p s w e).Valid p ts := by
  cases e with
  | opened firstSeq =>
    dsimp only [step]
    split_ifs
    · rw [hopen]
      exact @World.Valid.begin _ _ _ h hfits 0 nofun firstSeq
    · exact h
  | resumed firstSeq =>
    dsimp only [step]
    split_ifs
    · obtain ⟨n,hsaved,hacked⟩ := h.saved
      have hresume : s.resumeAt w.saved=.ok (ahead (ts.drop n)) := by
        rw [hsaved]
        exact hs.resumeAt n
      rw [hresume]
      exact h.begin hfits hacked firstSeq
    · exact h
  | turn answers => exact h.live_step fun r k m hr => h.sendBatch hfits hr answers
  | ack i => exact h.live_step fun r k m hr => h.arrive hr i
  | tick => exact h.live_step fun r k m hr => h.save hs hr
  | finish => exact h.live_step fun r k m hr => h.conclude hs hr
  | crash => exact h.down

theorem run_valid (es : List Step) : (run p s w es).Valid p ts := by
  induction es generalizing w with
  | nil => exact h
  | cons e _ ih => exact ih (step_valid hs hopen hfits h e)

end

theorem start_valid (p : Pass) (ts : List SpoolTuple) : World.start.Valid p ts :=
  ⟨⟨0,rfl,nofun⟩,nofun,nofun⟩

/-- Records that end by the offset of others are among them. -/
theorem take_of_framed_le {k n : ℕ} (h : (framed (ts.take k)).length≤(framed (ts.take n)).length)
    : ∀ t∈ts.take k,t∈ts.take n := by
  intro t ht
  obtain hkn | hnk := Nat.le_total k n
  · rw [←Nat.min_eq_left hkn,←take_take] at ht
    exact mem_of_mem_take ht
  · have hsplit : ts.take k=ts.take n++(ts.drop n).take (k-n) := by
      rw [←take_add,Nat.add_sub_cancel' hnk]
    rw [hsplit,framed_append,length_append] at h
    have hnil : (ts.drop n).take (k-n)=[] := framed_eq_nil (by omega)
    rwa [hsplit,hnil,append_nil] at ht

section Progress

/-- Rows that are sent have values within their caps, which resolve. -/
def Pass.Takes (p : Pass) (ts : List SpoolTuple) : Prop :=
  ∀ t∈ts,p.routes t=true→(p.weight t).isSome ∧ p.resolves t=true

variable (hfits : ∀ t∈ts,Fits t) (htakes : p.Takes ts)

include hfits htakes

/-- The bound of a read is enough. -/
theorem nextBatch_isSome {bound : ℕ} (hbound : ts.length<bound) (rows : List SpoolTuple) (bytes : ℕ) :
    (nextBatch p bound (ahead ts) rows bytes).isSome := by
  induction bound generalizing ts rows bytes with
  | zero => exact absurd hbound (Nat.not_lt_zero _)
  | succ _ ih =>
    unfold nextBatch
    split_ifs
    · cases ts with
      | nil => rfl
      | cons t ts =>
        have hnext : (ahead (t::ts)).next=.ok (some (t,ahead ts)) :=
          next_file (hfits t mem_cons_self) ts []
        have hrest := ih (fun u hu => hfits u (mem_cons_of_mem t hu))
          (fun u hu => htakes u (mem_cons_of_mem t hu)) (Nat.lt_of_succ_lt_succ hbound)
        rw [hnext]
        dsimp only
        split_ifs with hroutes
        · obtain ⟨_,hn⟩ := Option.isSome_iff_exists.mp (htakes t mem_cons_self hroutes).1
          rw [hn]
          exact hrest _ _
        · exact hrest _ _
    · rfl

theorem prepareBatch_isSome (m : ℕ) : ∃ found, prepareBatch p (ahead (ts.drop m))=some found := by
  have hbound : (ts.drop m).length<(ahead (ts.drop m)).remainingFileBytes+1 :=
    Nat.lt_succ_of_le (length_le_framed _)
  have hdrop : ∀ t∈ts.drop m,Fits t := fun t ht => hfits t (mem_of_mem_drop ht)
  obtain ⟨⟨rows,_⟩,hbatch⟩ := Option.isSome_iff_exists.mp
    (nextBatch_isSome hdrop (fun t ht => htakes t (mem_of_mem_drop ht)) hbound [] 0)
  obtain ⟨k,-,hrows,-⟩ := nextBatch_ahead hdrop (fun _ => rfl) hbatch
  have hresolve : rows.all p.resolves=true := by
    rw [hrows,nil_append,all_eq_true]
    intro t ht
    obtain ⟨ht,hroutes⟩ := mem_filter.mp ht
    exact (htakes t (mem_of_mem_drop (mem_of_mem_take ht)) hroutes).2
  unfold prepareBatch
  rw [hbatch]
  cases rows with
  | nil => exact ⟨_,rfl⟩
  | cons => exact ⟨_,if_pos hresolve⟩

end Progress

/-- A replay that is left alone receives its acknowledgements. -/
theorem exists_proven {r : Running} (hlive : w.live=some r) :
    ∃ es w', run p s w es=w' ∧ w'.live=some {r with inflight := []} := by
  obtain ⟨_,_,_,_,inflight,_⟩ := r
  induction inflight generalizing w with
  | nil => exact ⟨[],w,rfl,hlive⟩
  | cons row _ ih =>
    obtain ⟨es,w',hrun,hw'⟩ := @ih {w with acked := w.acked++[row.2], live := some _} rfl
    refine ⟨.ack 0::es,w',?_,hw'⟩
    rw [←hrun]
    unfold run
    rw [foldl_cons]
    congr 1
    dsimp only [step]
    rw [hlive]
    rfl

theorem exists_done_of_ended {r : Running} (hlive : w.live=some r) (hready : r.ready=none)
    (hfailed : r.failed=false) : ∃ es, (run p s w es).done=true := by
  obtain ⟨es,_,hrun,hw'⟩ := @exists_proven p w s r hlive
  refine ⟨es++[.finish],?_⟩
  unfold run at hrun ⊢
  rw [foldl_append,hrun,foldl_cons,step,hw']
  rw [hready,hfailed]
  rfl

/-- A replay that is left alone ends. -/
theorem exists_done (hfits : ∀ t∈ts,Fits t) (htakes : p.Takes ts) {r : Running} {k m : ℕ}
    (hlive : w.live=some r) (hfailed : r.failed=false) (hr : r.Valid p ts w.acked k m) :
    ∃ es, (run p s w es).done=true := by
  induction hn : ts.length-m using Nat.strong_induction_on generalizing w r k m with
  | _ _ ih =>
    cases hready : r.ready with
    | none => exact exists_done_of_ended hlive hready hfailed
    | some =>
      obtain ⟨⟨ready,reader⟩,hnext⟩ := prepareBatch_isSome hfits htakes m
      rw [←hr.reader] at hnext
      obtain ⟨_,hr',hless⟩ := (hr.send hready).read hfits hnext
      obtain ⟨w',hstep,hlive',hacked⟩ : ∃ w', step p s w (.turn true)=w' ∧ w'.live=some _ ∧
          w'.acked=w.acked := by
        refine ⟨_,rfl,?_,?_⟩
        · rw [step,hlive,Option.elim_some,sendBatch,hready]
          rw [if_pos rfl,hnext]
        · rw [step,hlive,Option.elim_some,sendBatch,hready]
          rw [if_pos rfl,hnext]
      have hrest : ∃ es, (run p s w' es).done=true := by
        cases ready with
        | none => exact exists_done_of_ended hlive' rfl rfl
        | some => exact ih _ (hn ▸ hless rfl) hlive' rfl (hacked ▸ hr') rfl
      obtain ⟨es,hdone⟩ := hrest
      exact ⟨.turn true::es,by rw [←hstep] at hdone; exact hdone⟩

/-- An attempt from the saved offset ends. -/
theorem World.Valid.exists_done (h : w.Valid p ts) (hs : Sealed s ts) (hfits : ∀ t∈ts,Fits t)
    (htakes : p.Takes ts) : ∃ es, (run p s w es).done=true := by
  obtain ⟨n,hsaved,hacked⟩ := h.saved
  obtain ⟨⟨ready,reader⟩,hbatch⟩ := prepareBatch_isSome hfits htakes n
  have hresume : s.resumeAt w.saved=.ok (ahead (ts.drop n)) := by
    rw [hsaved]
    exact hs.resumeAt n
  have hbegun : step p s {w with live := none} (.resumed 0) =
      {w with live := some ⟨reader,ready,false,none,[],0⟩} := by
    dsimp only [step]
    rw [if_pos Option.isNone_none,hresume,DeferredReplay.begin,hbatch]
  have hvalid := h.down.begin hfits hacked 0
  rw [DeferredReplay.begin,hbatch] at hvalid
  obtain ⟨k,m,hr⟩ := hvalid.live _ rfl
  obtain ⟨es,hdone⟩ := @DeferredReplay.exists_done p ts _ s hfits htakes _ k m rfl rfl hr
  refine ⟨.crash::.resumed 0::es,?_⟩
  unfold run at hdone ⊢
  rw [foldl_cons,foldl_cons]
  have hcrash : step p s w .crash={w with live := none} := rfl
  rw [hcrash,hbegun]
  exact hdone

/-- For every spool content, sealed and replayed with any checkpoints, acknowledgements and
crashes: the rows of records behind the saved offset are acknowledged, all rows are once an
attempt succeeds, and where values are within their caps and resolve an attempt that is left
alone does. Rows are owed for records whose relation is walked and mapped. -/
theorem deferred_replay_covers (p : Pass) (c : Config) (es : List Event)
    (hfit : ∀ t, Event.push t∈es→(encodeRecord t).length<2^32) {s s' : Session}
    (hrun : Session.start.run c es=.ok s) (hseal : s.step c .checkpoint=.ok s')
    (steps : List Step) :
    (∀ k, (framed (s.contents.take k)).length≤(run p s' .start steps).saved →
      ∀ t∈s.contents.take k,p.routes t=true→t∈(run p s' .start steps).acked) ∧
    ((run p s' .start steps).done=true →
      ∀ t∈s.contents,p.routes t=true→t∈(run p s' .start steps).acked) ∧
    (s.contents≠[]→p.Takes s.contents →
      ∃ more, (run p s' .start (steps++more)).done=true) := by
  obtain ⟨found,hfound,hkept⟩ := (Kept.start c).run es hfit
  obtain rfl := Except.ok.inj (hrun.symm.trans hfound)
  obtain ⟨_,hstep,hsealed⟩ := hkept.sealed
  obtain rfl := Except.ok.inj (hseal.symm.trans hstep)
  by_cases hne : s.contents=[]
  · rw [hne]
    refine ⟨fun k _ t ht => ?_,nofun,fun h => absurd rfl h⟩
    rw [take_nil] at ht
    cases ht
  obtain ⟨hs,hopen⟩ := hsealed hne
  have hvalid := run_valid hs hopen hkept.fits (start_valid p s.contents) steps
  refine ⟨fun k hk t ht hroutes => ?_,hvalid.done,fun _ htakes => ?_⟩
  · obtain ⟨_,hsaved,hacked⟩ := hvalid.saved
    rw [hsaved] at hk
    exact hacked t (take_of_framed_le hk t ht) hroutes
  · obtain ⟨more,hmore⟩ := hvalid.exists_done hs hkept.fits htakes
    refine ⟨more,?_⟩
    unfold run at hmore ⊢
    rw [foldl_append]
    exact hmore

/-- A pass that routes tuples by their transaction. -/
def byXid (xid : UInt32) : Pass :=
  ⟨fun t => decide (t.xid=xid),fun _ => some 1,fun _ => [.assembled true],true⟩

/-- Two records are spooled. -/
def spooled : List Event := [.push (single [1]),.push (single [2])]

theorem deferred_replay_covers_spooled :
    ∃ s s' steps, Session.start.run unbuffered spooled=.ok s ∧
      s.step unbuffered .checkpoint=.ok s' ∧ s.contents=[single [1],single [2]] ∧
      (run (byXid 0) s' .start ([.opened 3,.turn true,.ack 1,.crash]++steps)).done=true ∧
      single [2]∈(run (byXid 0) s' .start ([.opened 3,.turn true,.ack 1,.crash]++steps)).acked := by
  have hfit : ∀ t, Event.push t∈spooled→(encodeRecord t).length<2^32 := by
    intro t ht
    simp only [spooled,mem_cons,Event.push.injEq,not_mem_nil,or_false] at ht
    rcases ht with rfl | rfl
    · decide
    · decide
  obtain ⟨s,hrun,hkept⟩ := (Kept.start unbuffered).run spooled hfit
  obtain ⟨s',hseal,-⟩ := hkept.sealed
  have hcontents : s.contents=[single [1],single [2]] := by
    have heq := congrArg (fun found => found.toOption.map Session.contents) hrun
    exact (Option.some.inj heq).symm
  have hcovers := deferred_replay_covers (byXid 0) unbuffered spooled hfit hrun hseal
  obtain ⟨more,hdone⟩ := (hcovers [.opened 3,.turn true,.ack 1,.crash]).2.2
    (by rw [hcontents]; exact cons_ne_nil _ _) (fun _ _ _ => ⟨rfl,rfl⟩)
  refine ⟨s,s',more,hrun,hseal,hcontents,hdone,(hcovers _).2.1 hdone _ ?_ rfl⟩
  rw [hcontents]
  exact mem_cons_of_mem _ mem_cons_self

/-- Replay of records from the start, once they are sealed. -/
def replayed (p : Pass) (es : List Event) (steps : List Step) : Except SpoolError World :=
  match Session.start.run unbuffered (es++[.checkpoint]) with
  | .error e => .error e
  | .ok s => .ok (run p s .start steps)

/-- Records of a relation that is no longer mapped are passed over, and the replay succeeds. -/
theorem unmapped_records_passed :
    (replayed (byXid 1) spooled [.opened 3,.finish]).toOption.map
      (fun w => (w.saved,w.done,w.acked.length))=some (102,true,0) := by
  decide +kernel

end Walshadow.DeferredReplay
