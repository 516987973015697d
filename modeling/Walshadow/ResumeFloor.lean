import Walshadow.BufferAccounting

/-!
# The resume floor

A restart may resume at the durable ack only if nothing undurable lies below it.
The buffer knows the position that opened each transaction and the first position
of each drained commit the ack does not cover; the floor is the least of these and
the ack. It is compared with the history itself: all positions buffered for
transactions that are in flight, or committed and not covered.

The position of a state is that of the call that opened it and is never lowered.
The worker sees a transaction's records in order, but the pump, which runs ahead,
queues schema events under the same xid, so a later call can carry an earlier
position.
-/

namespace Walshadow.ResumeFloor

open Records CommitDrain KeyedMap FinMap VersionChain TransactionBuffer BufferRuns BufferAccounting List

variable {Ev : Type}

/-- Positions a call buffers something for. -/
def touch : Op Ev→Option (Xid×Lsn)
  | .onHeap _ h => some (h.decoded.xid,h.decoded.sourceLsn)
  | .onToastChunk _ c xid => some (xid,c.sourceLsn)
  | .onToastDelete _ d xid => some (xid,d.sourceLsn)
  | .stashRaw _ xid raw => raw.rfn.map (fun _ => (xid,raw.sourceLsn))
  | .noteSmgrCreate xid _ lsn => if xid≠0 then some (xid,lsn) else none
  | .trackUnresolvable xid lsn _ => some (xid,lsn)
  | .pushDrainEntry xid lsn _ => some (xid,lsn)
  | _ => none

/-- History of the buffered positions. -/
structure Ledger where
  /-- Positions of transactions in flight, with their xid. -/
  inflight : List (Xid×Lsn)
  /-- Positions of committed transactions, with their commit. -/
  committed : List (Lsn×Lsn)
  /-- Commits below this position have nothing to make durable. -/
  start : Lsn

/-- No history. -/
def Ledger.empty : Ledger := ⟨[],[],0⟩

/-- The transactions leave without a commit. -/
def Ledger.drop (l : Ledger) (xids : List Xid) : Ledger :=
  {l with inflight := l.inflight.filter (fun r => decide (r.1∉xids))}

/-- The transactions commit. -/
def Ledger.commit (l : Ledger) (xids : List Xid) (commitLsn : Lsn) : Ledger :=
  {l.drop xids with committed := l.committed++
    (l.inflight.filter (fun r => decide (r.1∈xids))).map (fun r => (r.2,commitLsn))}

/-- History after one call. -/
def Ledger.step (l : Ledger) (op : Op Ev) : Ledger :=
  match op with
  | .drain stash commitLsn subxids _ =>
    if commitLsn<l.start then l.drop (stash.topXid::subxids)
    else l.commit (stash.topXid::subxids) commitLsn
  | .abort xid _ subxids => l.drop (xid::subxids)
  | .setMinCommitLsn lsn => {l with start := lsn}
  | op => (touch op).elim l (fun r => {l with inflight := r::l.inflight})

/-- History after a sequence of calls. -/
def history (ops : List (Op Ev)) : Ledger := ops.foldl Ledger.step .empty

/-- Positions of every transaction the ack does not make durable. -/
def Ledger.undurable (l : Ledger) (ack : Lsn) : List Lsn :=
  l.inflight.map Prod.snd++(l.committed.filter (fun r => decide (ack < r.2))).map Prod.fst

/-- Least position a restart has to re-read, the ack when there is none below. -/
def Ledger.floor (l : Ledger) (ack : Lsn) : Lsn := (l.undurable ack).foldl min ack

theorem min_eq (a b : Lsn) : min a b=a ∧ a≤b ∨ min a b=b ∧ b≤a := by
  have hmin : min a b=if a≤b then a else b := rfl
  by_cases hab : a≤b
  · exact .inl ⟨hmin.trans (if_pos hab),hab⟩
  · exact .inr ⟨hmin.trans (if_neg hab),UInt64.le_of_lt (UInt64.not_le.mp hab)⟩

variable (xs : List Lsn)

/-- A fold of `min` is below its start and below every member. -/
theorem foldl_min_le (a : Lsn) : xs.foldl min a≤a ∧ ∀ x∈xs,xs.foldl min a≤x := by
  induction xs generalizing a with
  | nil => exact ⟨UInt64.le_refl a,nofun⟩
  | cons y _ ih =>
    obtain ⟨hstart,hall⟩ := ih (min a y)
    have hmin : min a y≤a ∧ min a y≤y := by
      rcases min_eq a y with ⟨heq,hle⟩|⟨heq,hle⟩
      · rw [heq]
        exact ⟨UInt64.le_refl a,hle⟩
      · rw [heq]
        exact ⟨hle,UInt64.le_refl y⟩
    refine ⟨UInt64.le_trans hstart hmin.1,fun x hx => ?_⟩
    rcases mem_cons.mp hx with rfl|hx
    · exact UInt64.le_trans hstart hmin.2
    · exact hall x hx

/-- A fold of `min` is its start or a member. -/
theorem foldl_min_mem (a : Lsn) : xs.foldl min a=a ∨ xs.foldl min a∈xs := by
  induction xs generalizing a with
  | nil => exact .inl rfl
  | cons y _ ih =>
    rcases ih (min a y) with heq|hmem
    · rcases min_eq a y with ⟨hmin,-⟩|⟨hmin,-⟩
      · exact .inl (heq.trans hmin)
      · exact .inr (mem_cons.mpr (.inl (heq.trans hmin)))
    · exact .inr (mem_cons_of_mem _ hmem)

variable {a lsn : Lsn} {xid : Xid} {xids : List Xid} {p : PendingDurable} {x : PendingDurableXact}

/-- Two folds agree when each list is covered by the other. -/
theorem foldl_min_eq {xs ys : List Lsn} (hxy : ∀ x∈xs,a≤x ∨ ∃ y∈ys,y≤x)
    (hyx : ∀ y∈ys,a≤y ∨ ∃ x∈xs,x≤y) : xs.foldl min a=ys.foldl min a := by
  have hle : ∀ {us vs : List Lsn}, (∀ v∈vs,a≤v ∨ ∃ u∈us,u≤v) →
      us.foldl min a≤vs.foldl min a := by
    intro us vs h
    obtain ⟨hstart,hall⟩ := foldl_min_le us a
    rcases foldl_min_mem vs a with heq|hmem
    · rw [heq]
      exact hstart
    · rcases h _ hmem with hlow|⟨u,hu,huv⟩
      · exact UInt64.le_trans hstart hlow
      · exact UInt64.le_trans (hall u hu) huv
  exact UInt64.le_antisymm (hle hyx) (hle hxy)

/-- Position that opened the state of an xid. -/
def firstOf (b : XactBuffer Ev) (xid : Xid) : Option Lsn :=
  (b.inflight.get xid).map XactState.firstLsn

/-- What the floor reads off the buffer: the opening positions move to `firsts`,
the drained commits and the start position stay. -/
structure Moves (b b' : XactBuffer Ev) (firsts : Xid→Option Lsn) : Prop where
  /-- Opening positions afterwards. -/
  firsts : ∀ xid, firstOf b' xid=firsts xid
  pending : b'.pendingDurable=b.pendingDurable
  start : b'.minCommitLsn=b.minCommitLsn

/-- Opening positions once an xid was touched. -/
def touched (b : XactBuffer Ev) (xid : Xid) (lsn : Lsn) (x : Xid) : Option Lsn :=
  if x=xid then some ((firstOf b xid).getD lsn) else firstOf b x

/-- Opening positions once xids were dropped. -/
def dropped (b : XactBuffer Ev) (xids : List Xid) (x : Xid) : Option Lsn :=
  if x∈xids then none else firstOf b x

theorem Moves.trans_same {b b' b'' : XactBuffer Ev} {firsts : Xid→Option Lsn}
    (h : Moves b b' firsts) (hs : Moves b' b'' (firstOf b')) : Moves b b'' firsts where
  firsts x := (hs.firsts x).trans (h.firsts x)
  pending := hs.pending.trans h.pending
  start := hs.start.trans h.start

/-- Touching an xid twice at one position is touching it once. -/
theorem Moves.touch_twice {b b' b'' : XactBuffer Ev} (h : Moves b b' (touched b xid lsn))
    (h' : Moves b' b'' (touched b' xid lsn)) :
    Moves b b'' (touched b xid lsn) where
  firsts x := by
    rw [h'.firsts,touched,h.firsts,h.firsts]
    by_cases hx : x=xid
    · simp [touched,hx]
    · simp [touched,hx]
  pending := h'.pending.trans h.pending
  start := h'.start.trans h.start

theorem moves_stateFor (b : XactBuffer Ev) (xid : Xid) (lsn : Lsn)
    {f : XactState Ev→XactState Ev} (hf : ∀ st, (f st).firstLsn=st.firstLsn) :
    Moves b (stateFor b xid lsn f) (touched b xid lsn) where
  firsts x := by
    rw [firstOf,inflight_stateFor,get_put]
    by_cases hx : x=xid
    · rw [if_pos hx,touched,if_pos hx,Option.map_some,hf,current,firstOf]
      cases b.inflight.get xid with
      | none => rfl
      | some => rfl
    · rw [if_neg hx,touched,if_neg hx,firstOf]
  pending := by
    unfold stateFor
    cases b.inflight.get xid with
    | none => rfl
    | some => rfl
  start := by
    unfold stateFor
    cases b.inflight.get xid with
    | none => rfl
    | some => rfl

theorem moves_markStash (b : XactBuffer Ev) (xid : Xid) (lsn : Lsn) (rfn : RelFileNode)
    (payloadFree : Bool) : Moves b (markStash b xid lsn rfn payloadFree) (touched b xid lsn) := by
  have h := moves_stateFor b xid lsn (f := fun st => {st with
    stashRfns := st.stashRfns.put rfn ((st.stashRfns.get rfn).elim ⟨lsn,payloadFree⟩
      (fun m => m.merge ⟨lsn,payloadFree⟩))}) (fun _ => rfl)
  exact {h with}

theorem moves_refl (b : XactBuffer Ev) : Moves b b (firstOf b) := ⟨fun _ => rfl,rfl,rfl⟩

theorem moves_evictXact (b : XactBuffer Ev) (xid : Xid) :
    Moves b (evictXact b xid) (firstOf b) := by
  unfold evictXact
  cases hget : b.inflight.get xid with
  | none => exact moves_refl b
  | some =>
    refine ⟨fun x => ?_,rfl,rfl⟩
    unfold firstOf
    rw [get_put]
    by_cases hx : x=xid
    · rw [if_pos hx,hx,hget]
      rfl
    · rw [if_neg hx]

variable (cfg : XactBufferConfig) (it : Iteration)

theorem moves_maybeEvict (n : ℕ) (b : XactBuffer Ev) :
    Moves b (maybeEvict cfg it n b) (firstOf b) :=
  maybeEvict_induct (P := fun c => Moves b c (firstOf b))
    (fun c xid hc => hc.trans_same (moves_evictXact c xid)) it n (moves_refl b)

theorem moves_absorb (b : XactBuffer Ev) (xid : Xid) (lsn : Lsn) (entry : SpillEntry) :
    Moves b (absorb cfg it b xid lsn entry) (touched b xid lsn) := by
  have h := moves_stateFor b xid lsn (f := fun st => {st with
    plain := st.plain && isPlain entry
    inMem := st.inMem++[entry]
    inMemBytes := st.inMemBytes+approximateSize cfg.sizes entry}) (fun _ => rfl)
  have hpush : Moves b (pushEntry cfg b xid lsn entry) (touched b xid lsn) :=
    {h with}
  exact hpush.trans_same (moves_maybeEvict cfg it _ _)

theorem moves_discardStates (b : XactBuffer Ev) (xids : List Xid) :
    Moves b (discardStates b xids).2 (dropped b xids) := by
  induction xids generalizing b with
  | nil => exact ⟨fun x => by simp [dropped,discardStates,firstOf],rfl,rfl⟩
  | cons a _ ih =>
    unfold discardStates
    cases hget : b.inflight.get a with
    | none =>
      have h := ih b
      refine {h with firsts := fun x => ?_}
      rw [h.firsts]
      by_cases hx : x=a
      · simp [dropped,hx,firstOf,hget]
      · simp [dropped,hx]
    | some st =>
      have h := ih (discardState b a st)
      refine {h with firsts := fun x => ?_}
      have herase : firstOf (discardState b a st) x=if x=a then none else firstOf b x := by
        have hin : (discardState b a st).inflight=b.inflight.erase a := rfl
        rw [firstOf,hin,get_erase]
        split_ifs with hx
        · rfl
        · rfl
      rw [h.firsts,dropped,herase,dropped]
      by_cases hx : x=a
      · simp [hx]
      · simp [hx]

/-- The buffer holds what the history needs: each transaction in flight is opened
at its least position, and every uncovered commit waits under its least one. -/
structure Tracks (b : XactBuffer Ev) (l : Ledger) (ack : Lsn) : Prop where
  start : b.minCommitLsn=l.start
  /-- Waiting commits are in heap order. -/
  sorted : SortedBy PendingDurableXact.key b.pendingDurable
  /-- Opening positions were buffered. -/
  opened : ∀ xid first, firstOf b xid=some first→(xid,first)∈l.inflight
  /-- And lie below everything buffered. -/
  least : ∀ xid lsn, (xid,lsn)∈l.inflight→∃ first, firstOf b xid=some first ∧ first≤lsn
  /-- Waiting first positions were committed. -/
  waiting : ∀ p∈b.pendingDurable,(p.firstLsn,p.commitLsn)∈l.committed
  /-- Every commit is covered by the ack or waits below its positions. -/
  covered : ∀ lsn commitLsn, (lsn,commitLsn)∈l.committed →
    commitLsn≤ack ∨ ∃ p∈b.pendingDurable,p.commitLsn=commitLsn ∧ p.firstLsn≤lsn

variable {b b' : XactBuffer Ev} {l : Ledger} {ack : Lsn}

section

variable (h : Tracks b l ack)

include h

theorem Tracks.same (hm : Moves b b' (firstOf b)) : Tracks b' l ack where
  start := hm.start.trans h.start
  sorted := hm.pending ▸ h.sorted
  opened xid first hf := h.opened xid first (hm.firsts xid ▸ hf)
  least xid lsn hl := by
    rw [hm.firsts]
    exact h.least xid lsn hl
  waiting := hm.pending ▸ h.waiting
  covered := hm.pending ▸ h.covered

/-- A position at or above the opening one may be buffered. -/
theorem Tracks.touch (hlow : ∀ first, firstOf b xid=some first→first≤lsn)
    (hm : Moves b b' (touched b xid lsn)) :
    Tracks b' {l with inflight := (xid,lsn)::l.inflight} ack where
  start := hm.start.trans h.start
  sorted := hm.pending ▸ h.sorted
  opened x first hf := by
    rw [hm.firsts,touched] at hf
    split_ifs at hf with hx
    · subst hx
      cases hold : firstOf b x with
      | none =>
        rw [hold] at hf
        exact Option.some.inj hf ▸ mem_cons_self
      | some old =>
        rw [hold] at hf
        exact Option.some.inj hf ▸ mem_cons_of_mem _ (h.opened x old hold)
    · exact mem_cons_of_mem _ (h.opened x first hf)
  least x at' hl := by
    rw [hm.firsts,touched]
    rcases mem_cons.mp hl with heq|hl
    · obtain ⟨rfl,rfl⟩ := Prod.mk.inj heq
      refine ⟨_,if_pos rfl,?_⟩
      cases hold : firstOf b x with
      | none => exact UInt64.le_refl _
      | some old => exact hlow old hold
    · obtain ⟨first,hfirst,hle⟩ := h.least x at' hl
      by_cases hx : x=xid
      · subst hx
        refine ⟨first,?_,hle⟩
        rw [if_pos rfl,hfirst]
        rfl
      · exact ⟨first,(if_neg hx).trans hfirst,hle⟩
  waiting := hm.pending ▸ h.waiting
  covered := hm.pending ▸ h.covered

theorem opened_drop {first : Lsn} (hf : dropped b xids xid=some first) :
    (xid,first)∈(l.drop xids).inflight := by
  unfold dropped at hf
  split_ifs at hf with hx
  exact mem_filter.mpr ⟨h.opened xid first hf,decide_eq_true hx⟩

theorem least_drop (hl : (xid,lsn)∈(l.drop xids).inflight) :
    ∃ first, dropped b xids xid=some first ∧ first≤lsn := by
  obtain ⟨hmem,hx⟩ := mem_filter.mp hl
  obtain ⟨first,hfirst,hle⟩ := h.least xid lsn hmem
  exact ⟨first,(if_neg (of_decide_eq_true hx)).trans hfirst,hle⟩

theorem Tracks.drop (hm : Moves b b' (dropped b xids)) : Tracks b' (l.drop xids) ack where
  start := hm.start.trans h.start
  sorted := hm.pending ▸ h.sorted
  opened xid first hf := opened_drop h (hm.firsts xid ▸ hf)
  least xid lsn hl := by
    rw [hm.firsts]
    exact least_drop h hl
  waiting := hm.pending ▸ h.waiting
  covered := hm.pending ▸ h.covered

end

/-- The least first position is one of them and below all. -/
theorem minFirst_spec (states : List (XactState Ev)) :
    match minFirst states with
    | none => states=[]
    | some first => (∃ st∈states,st.firstLsn=first) ∧ ∀ st∈states,first ≤ st.firstLsn := by
  induction states with
  | nil => rfl
  | cons st states ih =>
    unfold minFirst
    cases hrest : minFirst states with
    | none =>
      rw [hrest] at ih
      subst ih
      simp only [mem_singleton,exists_eq_left,forall_eq,true_and]
      exact UInt64.le_refl _
    | some lsn =>
      rw [hrest] at ih
      obtain ⟨⟨s,hs,hlsn⟩,hall⟩ := ih
      have hmin := foldl_min_le [lsn] st.firstLsn
      have hbound : min st.firstLsn lsn≤lsn := hmin.2 lsn mem_cons_self
      refine ⟨?_,fun x hx => ?_⟩
      · rcases min_eq st.firstLsn lsn with ⟨heq,-⟩|⟨heq,-⟩
        · exact ⟨st,mem_cons_self,heq.symm⟩
        · exact ⟨s,mem_cons_of_mem _ hs,hlsn.trans heq.symm⟩
      · rcases mem_cons.mp hx with rfl|hx
        · exact hmin.1
        · exact UInt64.le_trans hbound (hall x hx)

/-- A commit takes its tree out and waits under the tree's least position. -/
theorem Tracks.commit (h : Tracks b l ack) {commitLsn : Lsn}
    {r : Except XactBufferError (CommittedDrain Ev)×XactBuffer Ev}
    (hr : TreeDrained b xids commitLsn r) : Tracks r.2 (l.commit xids commitLsn) ack := by
  have hfirsts : ∀ x, firstOf r.2 x=dropped b xids x := by
    intro x
    rw [firstOf,hr.inflight,get_takeAll,dropped]
    split_ifs with hx
    · rfl
    · rfl
  have hmin := minFirst_spec (b.inflight.takeAll xids).1
  have hkept : ∀ p∈b.pendingDurable,p∈r.2.pendingDurable := by
    intro p hp
    rw [hr.pending]
    cases minFirst (b.inflight.takeAll xids).1 with
    | none => exact hp
    | some => exact mem_insertSorted.mpr (.inr hp)
  constructor
  case start => exact hr.start.trans h.start
  case sorted =>
    rw [hr.pending]
    cases minFirst (b.inflight.takeAll xids).1 with
    | none => exact h.sorted
    | some => exact h.sorted.insertSorted _
  case opened => exact fun x first hf => opened_drop h (hfirsts x ▸ hf)
  case least =>
    intro x lsn hl
    rw [hfirsts]
    exact least_drop h hl
  case waiting =>
    intro p hp
    rw [hr.pending] at hp
    cases hfound : minFirst (b.inflight.takeAll xids).1 with
    | none =>
      rw [hfound] at hp
      exact mem_append_left _ (h.waiting p hp)
    | some first =>
      rw [hfound] at hp hmin
      rcases mem_insertSorted.mp hp with rfl|hp
      · obtain ⟨⟨_,hst,hfirst⟩,-⟩ := hmin
        obtain ⟨x,hx,hget⟩ := (mem_takeAll _ _ _).mp hst
        have hopen : (x,first)∈l.inflight := h.opened x first (by rw [firstOf,hget,←hfirst]; rfl)
        refine mem_append_right _ (mem_map.mpr ⟨(x,first),?_,rfl⟩)
        exact mem_filter.mpr ⟨hopen,decide_eq_true hx⟩
      · exact mem_append_left _ (h.waiting p hp)
  case covered =>
    intro lsn c hc
    rcases mem_append.mp hc with hold|hnew
    · rcases h.covered lsn c hold with hack|⟨p,hp,hcommit,hle⟩
      · exact .inl hack
      · exact .inr ⟨p,hkept p hp,hcommit,hle⟩
    · obtain ⟨rec,hrec,heq⟩ := mem_map.mp hnew
      obtain ⟨rfl,rfl⟩ := Prod.mk.inj heq
      obtain ⟨hmem,hx⟩ := mem_filter.mp hrec
      obtain ⟨_,hfirst,hle⟩ := h.least rec.1 rec.2 hmem
      obtain ⟨st,hget,rfl⟩ := Option.map_eq_some_iff.mp hfirst
      have hst := (mem_takeAll _ xids st).mpr ⟨rec.1,of_decide_eq_true hx,hget⟩
      split at hmin
      case h_1 =>
        rw [hmin] at hst
        cases hst
      case h_2 low hfound =>
        refine .inr ⟨⟨low,commitLsn⟩,?_,rfl,UInt64.le_trans (hmin.2 st hst) hle⟩
        rw [hr.pending,hfound]
        exact mem_insertSorted.mpr (.inl rfl)

theorem prune_cons (y : PendingDurableXact) (p : PendingDurable) (a : Lsn) :
    PendingDurable.prune (y::p) a=if y.commitLsn≤a then p.prune a else y::p := by
  by_cases hy : y.commitLsn≤a
  · simp [PendingDurable.prune,hy]
  · simp [PendingDurable.prune,hy]

theorem mem_prune (hx : x∈p) (ha : a<x.commitLsn) : x∈p.prune a := by
  induction p with
  | nil => cases hx
  | cons _ _ ih =>
    rw [prune_cons]
    split_ifs with hy
    · rcases mem_cons.mp hx with rfl|hx
      · exact absurd hy (UInt64.not_le.mpr ha)
      · exact ih hx
    · exact hx

theorem prune_sublist (p : PendingDurable) (a : Lsn) : List.Sublist (p.prune a) p :=
  dropWhile_sublist _

/-- What prune leaves on top is not covered by the ack. -/
theorem prune_head (h : (p.prune a).head?=some x) : a<x.commitLsn := by
  induction p with
  | nil => cases h
  | cons _ _ ih =>
    rw [prune_cons] at h
    split_ifs at h with hy
    · exact ih h
    · cases h
      exact UInt64.not_le.mp hy

/-- The top of a sorted heap has the least first position. -/
theorem head_least (h : SortedBy PendingDurableXact.key p) (hx : x∈p) :
    ∃ top, p.head?=some top ∧ top.firstLsn≤x.firstLsn := by
  cases p with
  | nil => cases hx
  | cons top =>
    refine ⟨top,rfl,?_⟩
    rcases mem_cons.mp hx with rfl|hx
    · exact UInt64.le_refl _
    · have hkey := (pairwise_cons.mp h).1 x hx
      rcases Prod.Lex.le_iff.mp hkey with hlt|heq
      · exact UInt64.le_of_lt (UInt64.lt_iff_toNat_lt.mpr hlt)
      · exact UInt64.le_iff_toNat_le.mpr heq.1.le

theorem Tracks.prune (h : Tracks b l ack) (ha : ack≤a) : Tracks (resumeSafeLsn b a).2 l a where
  start := h.start
  sorted := h.sorted.sublist (prune_sublist _ a)
  opened := h.opened
  least := h.least
  waiting p hp := h.waiting p ((prune_sublist _ a).subset hp)
  covered lsn c hc := by
    by_cases hca : c≤a
    · exact .inl hca
    · rcases h.covered lsn c hc with hack|⟨p,hp,rfl,hle⟩
      · exact absurd (UInt64.le_trans hack ha) hca
      · exact .inr ⟨p,mem_prune hp (UInt64.not_le.mp hca),rfl,hle⟩

/-- The floor the buffer computes is the floor of the history. -/
theorem Tracks.floor_eq (h : Tracks b l ack) (ha : ack≤a) :
    (resumeSafeLsn b a).1=l.floor a := by
  refine foldl_min_eq (fun x hx => .inr ?_) (fun y hy => .inr ?_)
  · rcases mem_append.mp hx with hopen|hwait
    · obtain ⟨e,he,rfl⟩ := mem_map.mp hopen
      have hfirst : firstOf b e.1=some e.2.firstLsn := by
        rw [firstOf,get_eq_some.mpr he]
        rfl
      refine ⟨e.2.firstLsn,mem_append_left _ ?_,UInt64.le_refl _⟩
      exact mem_map.mpr ⟨_,h.opened e.1 _ hfirst,rfl⟩
    · obtain ⟨top,htop,rfl⟩ := Option.map_eq_some_iff.mp (Option.mem_toList.mp hwait)
      have hmem := (prune_sublist _ a).subset (mem_of_head? htop)
      refine ⟨top.firstLsn,mem_append_right _ ?_,UInt64.le_refl _⟩
      refine mem_map.mpr ⟨_,mem_filter.mpr ⟨h.waiting top hmem,?_⟩,rfl⟩
      exact decide_eq_true (prune_head htop)
  · rcases mem_append.mp hy with hopen|hdone
    · obtain ⟨rec,hrec,rfl⟩ := mem_map.mp hopen
      obtain ⟨_,hfirst,hle⟩ := h.least rec.1 rec.2 hrec
      obtain ⟨st,hget,rfl⟩ := Option.map_eq_some_iff.mp hfirst
      refine ⟨st.firstLsn,mem_append_left _ ?_,hle⟩
      exact mem_map.mpr ⟨(rec.1,st),get_eq_some.mp hget,rfl⟩
    · obtain ⟨rec,hrec,rfl⟩ := mem_map.mp hdone
      obtain ⟨hmem,hlate⟩ := mem_filter.mp hrec
      have hlate := of_decide_eq_true hlate
      rcases h.covered rec.1 rec.2 hmem with hack|⟨_,hp,hcommit,hle⟩
      · exact absurd (UInt64.le_trans hack ha) (UInt64.not_le.mpr hlate)
      · have hstay := mem_prune hp (hcommit ▸ hlate)
        obtain ⟨top,htop,hlow⟩ := head_least (h.sorted.sublist (prune_sublist _ a)) hstay
        refine ⟨top.firstLsn,mem_append_right _ ?_,UInt64.le_trans hlow hle⟩
        rw [PendingDurable.minFirstLsn,htop]
        exact mem_cons_self

/-- Durable ack after a call. -/
def ackAfter (ack : Lsn) : Op Ev→Lsn
  | .resumeSafe a => a
  | _ => ack

/-- A call is in order: what it buffers for an open transaction does not lie below
the position that opened it, and the durable ack does not go back. -/
def InOrder (b : XactBuffer Ev) (ack : Lsn) (op : Op Ev) : Prop :=
  (touch op).all (fun r => (firstOf b r.1).all (fun first => decide (first ≤ r.2)))=true ∧
    ack≤ackAfter ack op

instance (b : XactBuffer Ev) (ack : Lsn) (op : Op Ev) : Decidable (InOrder b ack op) :=
  inferInstanceAs (Decidable (_ ∧ _))

theorem InOrder.first_le {b : XactBuffer Ev} {ack : Lsn} {op : Op Ev} (h : InOrder b ack op)
    (r : Xid×Lsn) (hr : touch op=some r) (first : Lsn) (hfirst : firstOf b r.1=some first) :
    first ≤ r.2 := by
  have hall := h.1
  rw [hr,Option.all_some,hfirst] at hall
  exact of_decide_eq_true hall

/-- Every call of a run is in order. -/
def AllInOrder (cfg : XactBufferConfig) : World Ev→Lsn→List (Op Ev)→Prop
  | _,_,[] => True
  | w,ack,op::ops => InOrder w.buffer ack op ∧ AllInOrder cfg (step cfg w op) (ackAfter ack op) ops

instance decidableAllInOrder (cfg : XactBufferConfig) :
    (w : World Ev)→(ack : Lsn)→(ops : List (Op Ev))→Decidable (AllInOrder cfg w ack ops)
  | _,_,[] => inferInstanceAs (Decidable True)
  | w,ack,op::ops =>
    have := decidableAllInOrder cfg (step cfg w op) (ackAfter ack op) ops
    inferInstanceAs (Decidable (InOrder w.buffer ack op ∧ _))

/-- Last durable ack of a run. -/
def lastAck (ops : List (Op Ev)) : Lsn := ops.foldl ackAfter 0

theorem Tracks.step {w : World Ev} (h : Tracks w.buffer l ack) (cfg : XactBufferConfig)
    (op : Op Ev) (hop : InOrder w.buffer ack op) :
    Tracks (step cfg w op).buffer (l.step op) (ackAfter ack op) := by
  have hlow := hop.first_le
  cases op with
  | onHeap it heap | onToastChunk it c xid | onToastDelete it d xid =>
    exact h.touch (hlow _ rfl) (moves_absorb ..)
  | stashRaw _ xid raw =>
    simp only [BufferRuns.step,stashRaw,Ledger.step,ResumeFloor.touch]
    cases hrfn : raw.rfn with
    | none => exact h
    | some =>
      have hbelow := hlow (xid,raw.sourceLsn) (by simp [ResumeFloor.touch,hrfn])
      exact h.touch hbelow ((moves_markStash ..).touch_twice (moves_absorb ..))
  | noteSmgrCreate xid _ lsn =>
    simp only [BufferRuns.step,noteSmgrCreate,Ledger.step,ResumeFloor.touch]
    by_cases hx : xid≠0
    · have hbelow := hlow (xid,lsn) (if_pos hx)
      rw [if_pos hx,if_pos hx]
      exact h.touch hbelow (moves_markStash ..)
    · rw [if_neg hx,if_neg hx]
      exact h
  | trackUnresolvable => exact h.touch (hlow _ rfl) (moves_markStash ..)
  | pushDrainEntry =>
    exact h.touch (hlow _ rfl) (moves_stateFor _ _ _ (fun _ => rfl))
  | evict => exact h.same (moves_evictXact ..)
  | drain stash commitLsn subxids collectRows =>
    have hr := treeDrained cfg w.buffer stash commitLsn subxids collectRows
    simp only [BufferRuns.step,drainStep,drainCommitted,Ledger.step]
    rw [←h.start]
    split_ifs with hlate
    · have hm := moves_discardStates (noteDrained w.buffer commitLsn) (stash.topXid::subxids)
      have hd : Tracks (discardStates (noteDrained w.buffer commitLsn) (stash.topXid::subxids)).2
          (l.drop (stash.topXid::subxids)) ack := h.drop {hm with}
      exact hd.same ⟨fun _ => rfl,rfl,rfl⟩
    · have hcommit := h.commit hr
      split <;> exact hcommit
  | finish => exact h
  | abort xid lsn subxids =>
    have hm := moves_discardStates (noteDrained w.buffer lsn) (xid::subxids)
    have hd : Tracks (discardStates (noteDrained w.buffer lsn) (xid::subxids)).2
        (l.drop (xid::subxids)) ack := h.drop {hm with}
    simp only [BufferRuns.step,abort]
    split
    · exact hd.same ⟨fun _ => rfl,rfl,rfl⟩
    · exact hd.same ⟨fun _ => rfl,rfl,rfl⟩
  | advanceIdle =>
    simp only [BufferRuns.step,advanceIdle]
    split
    · exact h
    · exact h.same ⟨fun _ => rfl,rfl,rfl⟩
  | setMinCommitLsn => exact {h with start := rfl}
  | resumeSafe => exact h.prune hop.2

theorem Tracks.run (ops : List (Op Ev)) {w : World Ev}
    (h : Tracks w.buffer l ack) (hops : AllInOrder cfg w ack ops) :
    Tracks (run cfg w ops).buffer (ops.foldl Ledger.step l) (ops.foldl ackAfter ack) := by
  induction ops generalizing w l ack with
  | nil => exact h
  | cons op _ ih => exact ih (h.step cfg op hops.1) hops.2

theorem tracks_fresh : Tracks (World.fresh : World Ev).buffer .empty 0 where
  start := rfl
  sorted := List.Pairwise.nil
  opened _ _ h := nomatch h
  least _ _ h := absurd h not_mem_nil
  waiting _ h := absurd h not_mem_nil
  covered _ _ h := absurd h not_mem_nil

/-- In every run whose calls are in order, the resume floor under any ack that has
not gone back is exactly the least of the ack and the positions of all transactions
in flight or committed and not covered, and so lies at or below each of them. -/
theorem resume_floor_exact (cfg : XactBufferConfig) (ops : List (Op Ev))
    (hops : AllInOrder cfg World.fresh 0 ops) (ack : Lsn) (hack : lastAck ops≤ack) :
    let resume := (resumeSafeLsn (run cfg World.fresh ops).buffer ack).1
    resume=(history ops).floor ack ∧ resume≤ack ∧
      ∀ lsn∈(history ops).undurable ack,resume≤lsn := by
  have heq := (tracks_fresh.run cfg ops hops).floor_eq hack
  have hle := foldl_min_le ((history ops).undurable ack) ack
  intro resume
  have hresume : resume=(history ops).floor ack := heq
  rw [hresume]
  exact ⟨rfl,hle⟩

/-- A chunk record of a transaction. -/
def chunkAt (xid : Xid) (lsn : Lsn) : Op Unit := .onToastChunk .inserted ⟨5,99,7,0,lsn,0,1,[]⟩ xid

/-- The pump queues a schema event at 200 before the worker buffers the record at
100 of the same transaction: under an ack of 150 the floor skips that record. -/
theorem early_event_hides_record : let ops := [Op.pushDrainEntry 7 200 (),chunkAt 7 100]
    (resumeSafeLsn (run (smallConfig 10) World.fresh ops).buffer 150).1=150 ∧
      (100 : Lsn)∈(history ops).undurable 150 ∧ (history ops).floor 150=100 := by
  decide +kernel

/-- One transaction stays open, another commits and is not covered yet. -/
def openAndCommitted : List (Op Unit) :=
  [chunkAt 7 100,.pushDrainEntry 7 120 (),chunkAt 8 150,.drain ⟨8,none⟩ 200 [] false,
    .resumeSafe 160,.abort 7 210 []]

theorem resume_floor_exact_openAndCommitted :
    AllInOrder (smallConfig 10) World.fresh 0 openAndCommitted ∧
      (resumeSafeLsn (run (smallConfig 10) World.fresh openAndCommitted).buffer 180).1 =
        (history openAndCommitted).floor 180 ∧
      (history openAndCommitted).floor 180=150 := by
  have hops : AllInOrder (smallConfig 10) World.fresh 0 openAndCommitted := by decide +kernel
  have hack : lastAck openAndCommitted≤180 := by decide +kernel
  have hfloor : (history openAndCommitted).floor 180=150 := by decide +kernel
  exact ⟨hops,(resume_floor_exact (smallConfig 10) openAndCommitted hops 180 hack).1,hfloor⟩

end Walshadow.ResumeFloor
