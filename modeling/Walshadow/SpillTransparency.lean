import Walshadow.BufferAccounting
import Walshadow.DrainCompleteness
import Walshadow.SpillRoundTrip

/-!
# Spilling does not show

The buffer next to one that never evicts, fed the same calls. A transaction of the
first is a spill file for a front part of its entries and the rest in memory; the
second holds all of them. Reading the file back gives the front part, so the
sources of a drain show the same entries and the merge yields the same items,
whatever was evicted and when. A drain that skips the merge for a lone resident
transaction yields what the merge would.
-/

namespace Walshadow.SpillTransparency

open Records CommitDrain DrainMerge DrainContents DrainCompleteness KeyedMap FinMap SpillFile List
open SpillRoundTrip TransactionBuffer BufferRuns BufferAccounting

variable {Ev : Type}

/-- One call into a buffer that never evicts. -/
def unlimitedStep (cfg : XactBufferConfig) (b : XactBuffer Ev) : Op Ev→XactBuffer Ev
  | .onHeap _ h => pushEntry cfg b h.decoded.xid h.decoded.sourceLsn (.heap h)
  | .onToastChunk _ c xid => pushEntry cfg b xid c.sourceLsn (.chunk c)
  | .onToastDelete _ d xid => pushEntry cfg b xid d.sourceLsn (.toastDelete d)
  | .stashRaw _ xid raw =>
    match raw.rfn with
    | none => b
    | some rfn =>
      pushEntry cfg (markStash b xid raw.sourceLsn rfn false) xid raw.sourceLsn (.raw raw)
  | .noteSmgrCreate xid rfn lsn => noteSmgrCreate b xid rfn lsn
  | .trackUnresolvable xid lsn rfn => trackUnresolvable b xid lsn rfn
  | .pushDrainEntry xid lsn entry => pushDrainEntry b xid lsn entry
  | .evict _ => b
  | .drain stash commitLsn subxids collectRows =>
    (drainCommitted cfg b stash commitLsn subxids collectRows).2
  | .finish _ => b
  | .abort xid lsn subxids => abort b xid lsn subxids
  | .advanceIdle lsn => advanceIdle b lsn
  | .setMinCommitLsn lsn => setMinCommitLsn b lsn
  | .resumeSafe ack => (resumeSafeLsn b ack).2

/-- Buffer that never evicted, after a sequence of calls. -/
def unlimited (cfg : XactBufferConfig) (ops : List (Op Ev)) : XactBuffer Ev :=
  ops.foldl (unlimitedStep cfg) .new

/-- Spill file holding some entries. -/
def writerOf (es : List SpillEntry) : SpillWriter := ⟨spillFile es,(writeBatch [] es).2⟩

theorem writeBatch_append (dict : WriterDict) (es more : List SpillEntry) :
    writeBatch dict (es++more) =
      ((writeBatch dict es).1++(writeBatch (writeBatch dict es).2 more).1,
        (writeBatch (writeBatch dict es).2 more).2) := by
  induction es generalizing dict with
  | nil => rfl
  | cons _ _ ih => simp only [cons_append,writeBatch,ih,append_assoc]

theorem writerOf_writeBatch (es more : List SpillEntry) :
    (writerOf es).writeBatch more=writerOf (es++more) := by
  simp only [writerOf,SpillWriter.writeBatch,spillFile,writeBatch_append,append_assoc]

/-- A state shows the entries of its unspilled twin: `front` in its file, the rest
in memory, and everything else alike. -/
structure Shows (st twin : XactState Ev) (front : List SpillEntry) : Prop where
  plain : st.plain=twin.plain
  events : st.events=twin.events
  stash : st.stashRfns=twin.stashRfns
  /-- The twin never spilled. -/
  resident : twin.spill=none
  /-- The file goes before the resident entries. -/
  entries : twin.inMem=front++st.inMem
  /-- The file holds the front, and without a file nothing is missing. -/
  file : st.spill=some (writerOf front) ∨
    st.spill=none ∧ front=[] ∧ st.inMemBytes=twin.inMemBytes

/-- A state shows the entries of its twin for some front part. -/
def Twin (st twin : XactState Ev) : Prop := ∃ front, Shows st twin front

theorem twin_new (lsn lsn' : Lsn) : Twin (XactState.new lsn : XactState Ev) (.new lsn') :=
  ⟨[],rfl,rfl,rfl,rfl,rfl,.inr ⟨rfl,rfl,rfl⟩⟩

theorem twin_self {st : XactState Ev} (h : st.spill=none) : Twin st st :=
  ⟨[],rfl,rfl,rfl,h,rfl,.inr ⟨h,rfl,rfl⟩⟩

variable {st twin : XactState Ev}

theorem Twin.push (h : Twin st twin) (cfg : XactBufferConfig) (entry : SpillEntry) : Twin {st with
        plain := st.plain && isPlain entry
        inMem := st.inMem++[entry]
        inMemBytes := st.inMemBytes+approximateSize cfg.sizes entry}
      {twin with
        plain := twin.plain && isPlain entry
        inMem := twin.inMem++[entry]
        inMemBytes := twin.inMemBytes+approximateSize cfg.sizes entry} := by
  obtain ⟨front,hs⟩ := h
  refine ⟨front,congrArg (· && isPlain entry) hs.plain,hs.events,hs.stash,hs.resident,?_,?_⟩
  · simp only [hs.entries,append_assoc]
  · rcases hs.file with hfile|⟨hnone,hfront,hbytes⟩
    · exact .inl hfile
    · exact .inr ⟨hnone,hfront,congrArg (·+approximateSize cfg.sizes entry) hbytes⟩

/-- Eviction moves the boundary between file and memory. -/
theorem Twin.evicted (h : Twin st twin) : Twin st.evicted twin := by
  obtain ⟨front,hs⟩ := h
  refine ⟨front++st.inMem,{hs with entries := ?_, file := .inl ?_}⟩
  · rw [hs.entries]
    exact (append_nil _).symm
  · have hwriter : st.spill.getD .create=writerOf front := by
      rcases hs.file with hfile|⟨hnone,rfl,-⟩
      · rw [hfile]
        rfl
      · rw [hnone]
        rfl
    have hnew : st.evicted.spill=some ((st.spill.getD .create).writeBatch st.inMem) := rfl
    rw [hnew,hwriter,writerOf_writeBatch]

/-- Two buffers whose transactions are twins. -/
structure Alike (b u : XactBuffer Ev) : Prop where
  /-- The same xids, with twin states. -/
  states : ∀ xid, Option.Rel Twin (b.inflight.get xid) (u.inflight.get xid)
  start : b.minCommitLsn=u.minCommitLsn

variable {cfg : XactBufferConfig} {b u : XactBuffer Ev}

/-- Only the states and the start position matter. -/
theorem Alike.congr (h : Alike b u) {b' u' : XactBuffer Ev} (hb : b'.inflight=b.inflight)
    (hu : u'.inflight=u.inflight) (hstart : b'.minCommitLsn=b.minCommitLsn)
    (hstart' : u'.minCommitLsn=u.minCommitLsn) : Alike b' u' where
  states xid := by
    rw [hb,hu]
    exact h.states xid
  start := hstart.trans (h.start.trans hstart'.symm)

theorem start_stateFor (b : XactBuffer Ev) (xid : Xid) (lsn : Lsn)
    (f : XactState Ev→XactState Ev) : (stateFor b xid lsn f).minCommitLsn=b.minCommitLsn := by
  unfold stateFor
  cases b.inflight.get xid with
  | none | some st => rfl

theorem rel_getD {α β : Type} {R : α→β→Prop} {a : Option α} {a' : Option β}
    (h : Option.Rel R a a') {x : α} {y : β} (hxy : R x y) : R (a.getD x) (a'.getD y) := by
  cases h with
  | none => exact hxy
  | some hr => exact hr

variable {f : XactState Ev→XactState Ev}

section

variable (h : Alike b u) (xid : Xid) (lsn : Lsn)

include h xid lsn

/-- A call that updates twins to twins. -/
theorem Alike.stateFor (hf : ∀ st twin, Twin st twin→Twin (f st) (f twin)) :
    Alike (stateFor b xid lsn f) (stateFor u xid lsn f) where
  states x := by
    rw [inflight_stateFor,inflight_stateFor,get_put,get_put]
    split_ifs with hx
    · exact .some (hf _ _ (rel_getD (h.states xid) (twin_new lsn lsn)))
    · exact h.states x
  start := by
    rw [start_stateFor,start_stateFor]
    exact h.start

theorem Alike.pushEntry (entry : SpillEntry) :
    Alike (pushEntry cfg b xid lsn entry) (pushEntry cfg u xid lsn entry) :=
  {h.stateFor xid lsn (fun _ _ htwin => htwin.push cfg entry) with}

theorem Alike.markStash (rfn : RelFileNode) (payloadFree : Bool) :
    Alike (markStash b xid lsn rfn payloadFree) (markStash u xid lsn rfn payloadFree) := by
  refine Alike.congr (h.stateFor xid lsn ?_) rfl rfl rfl rfl
  rintro _ _ ⟨front,hs⟩
  refine ⟨front,{hs with stash := ?_}⟩
  simp only [hs.stash]

theorem Alike.pushDrainEntry (entry : Ev) :
    Alike (pushDrainEntry b xid lsn entry) (pushDrainEntry u xid lsn entry) := by
  refine h.stateFor xid lsn ?_
  rintro _ _ ⟨front,hs⟩
  exact ⟨front,{hs with events := congrArg (·++[(lsn,entry)]) hs.events}⟩

end

/-- Evicting on one side only keeps the buffers alike. -/
theorem Alike.evictXact (h : Alike b u) (xid : Xid) : Alike (evictXact b xid) u := by
  unfold TransactionBuffer.evictXact
  cases hget : b.inflight.get xid with
  | none => exact h
  | some =>
    refine ⟨fun x => ?_,h.start⟩
    rw [get_put]
    by_cases hx : x=xid
    · have hold := h.states xid
      rw [hget] at hold
      rw [if_pos hx,hx]
      revert hold
      cases u.inflight.get xid with
      | none => exact nofun
      | some =>
        rintro ⟨htwin⟩
        exact .some htwin.evicted
    · rw [if_neg hx]
      exact h.states x

theorem Alike.maybeEvict (it : Iteration) (n : ℕ) (h : Alike b u) :
    Alike (maybeEvict cfg it n b) u :=
  maybeEvict_induct (P := (Alike · u)) (fun _ xid hb => hb.evictXact xid) it n h

theorem Alike.absorb (h : Alike b u) (it : Iteration) (xid : Xid) (lsn : Lsn) (entry : SpillEntry) :
    Alike (absorb cfg it b xid lsn entry) (TransactionBuffer.pushEntry cfg u xid lsn entry) :=
  (h.pushEntry xid lsn entry).maybeEvict it _

theorem Alike.erase (h : Alike b u) (xid x : Xid) :
    Option.Rel Twin ((b.inflight.erase xid).get x) ((u.inflight.erase xid).get x) := by
  rw [get_erase,get_erase]
  split_ifs with hx
  · exact .none
  · exact h.states x

theorem Alike.discardStates (h : Alike b u) (xids : List Xid) :
    Alike (discardStates b xids).2 (discardStates u xids).2 := by
  induction xids generalizing b u with
  | nil => exact {h with}
  | cons a _ ih =>
    have ha := h.states a
    unfold TransactionBuffer.discardStates
    revert ha
    cases b.inflight.get a with
    | none =>
      cases u.inflight.get a with
      | none => exact fun _ => ih h
      | some => exact fun ha => by cases ha
    | some =>
      cases u.inflight.get a with
      | none => exact fun ha => by cases ha
      | some => exact fun _ => ih ⟨h.erase a,h.start⟩

theorem Alike.drainCommitted (h : Alike b u) (stash : StashResolved) (commitLsn : Lsn)
    (subxids : List Xid) (collectRows : Bool) :
    Alike (drainCommitted cfg b stash commitLsn subxids collectRows).2
      (drainCommitted cfg u stash commitLsn subxids collectRows).2 := by
  have hb := treeDrained cfg b stash commitLsn subxids collectRows
  have hu := treeDrained cfg u stash commitLsn subxids collectRows
  unfold TransactionBuffer.drainCommitted
  rw [←h.start]
  split
  · have hnoted : Alike (noteDrained b commitLsn) (noteDrained u commitLsn) :=
      {h with}
    exact {hnoted.discardStates (stash.topXid::subxids) with}
  · refine ⟨fun x => ?_,hb.start.trans (h.start.trans hu.start.symm)⟩
    rw [hb.inflight,hu.inflight,get_takeAll,get_takeAll]
    split_ifs with hx
    · exact .none
    · exact h.states x

theorem inflight_advanceIdle (b : XactBuffer Ev) (lsn : Lsn) :
    (advanceIdle b lsn).inflight=b.inflight ∧
      (advanceIdle b lsn).minCommitLsn=b.minCommitLsn := by
  unfold advanceIdle
  split
  · exact ⟨rfl,rfl⟩
  · exact ⟨rfl,rfl⟩

theorem Alike.abort (h : Alike b u) (xid : Xid) (lsn : Lsn) (subxids : List Xid) :
    Alike (abort b xid lsn subxids) (abort u xid lsn subxids) := by
  have hnoted : Alike (noteDrained b lsn) (noteDrained u lsn) := {h with}
  have hdone := hnoted.discardStates (xid::subxids)
  have hsame : ∀ b : XactBuffer Ev,
      (TransactionBuffer.abort b xid lsn subxids).inflight =
          (TransactionBuffer.discardStates (noteDrained b lsn) (xid::subxids)).2.inflight ∧
        (TransactionBuffer.abort b xid lsn subxids).minCommitLsn =
          (TransactionBuffer.discardStates (noteDrained b lsn) (xid::subxids)).2.minCommitLsn := by
    intro b
    unfold TransactionBuffer.abort
    dsimp only
    split
    · exact ⟨rfl,rfl⟩
    · exact ⟨rfl,rfl⟩
  exact hdone.congr (hsame b).1 (hsame u).1 (hsame b).2 (hsame u).2

/-- The same call keeps a buffer and its never-evicting twin alike. -/
theorem Alike.step {w : World Ev} (h : Alike w.buffer u) (op : Op Ev) :
    Alike (step cfg w op).buffer (unlimitedStep cfg u op) := by
  cases op with
  | onHeap it heap | onToastChunk it c xid | onToastDelete it d xid => exact h.absorb it _ _ _
  | stashRaw it xid raw =>
    simp only [BufferRuns.step,stashRaw,unlimitedStep]
    cases raw.rfn with
    | none => exact h
    | some rfn => exact (h.markStash xid _ rfn false).absorb it _ _ _
  | noteSmgrCreate xid rfn lsn =>
    simp only [BufferRuns.step,unlimitedStep,noteSmgrCreate]
    split_ifs with hx
    · exact h.markStash xid lsn rfn false
    · exact h
  | trackUnresolvable xid lsn rfn => exact h.markStash xid lsn rfn true
  | pushDrainEntry xid lsn entry => exact h.pushDrainEntry xid lsn entry
  | evict xid => exact h.evictXact xid
  | drain stash commitLsn subxids collectRows =>
    have hd := fun cfg => @Alike.drainCommitted Ev cfg w.buffer u h stash commitLsn subxids collectRows
    simp only [BufferRuns.step,drainStep,unlimitedStep]
    split
    · exact hd cfg
    · split <;> exact hd cfg
  | finish => exact h
  | abort xid lsn subxids => exact h.abort xid lsn subxids
  | advanceIdle lsn =>
    obtain ⟨hb,hstart⟩ := inflight_advanceIdle w.buffer lsn
    obtain ⟨hu,hstart'⟩ := inflight_advanceIdle u lsn
    exact h.congr hb hu hstart hstart'
  | setMinCommitLsn => exact ⟨h.states,rfl⟩
  | resumeSafe => exact {h with}

theorem alike_run (cfg : XactBufferConfig) (ops : List (Op Ev)) :
    Alike (run cfg World.fresh ops).buffer (unlimited cfg ops) := by
  have hrun : ∀ (w : World Ev) (u : XactBuffer Ev), Alike w.buffer u →
      Alike (run cfg w ops).buffer (ops.foldl (unlimitedStep cfg) u) := by
    induction ops with
    | nil => exact fun _ _ h => h
    | cons op _ ih => exact fun w u h => ih _ _ (h.step op)
  exact hrun World.fresh .new ⟨fun _ => .none,rfl⟩

/-- Entries the spill format carries: each fits its frame, the descriptor table has
room, and rows that share a descriptor key share the descriptor. -/
structure Codable (es : List SpillEntry) : Prop where
  /-- Every entry fits. -/
  fits : ∀ e∈es,Fits e
  /-- Descriptor ids do not run out. -/
  room : es.length≤2^32
  /-- Keys determine descriptors. -/
  same : SameDescriptors es

theorem Codable.left {front rest : List SpillEntry} (h : Codable (front++rest)) : Codable front where
  fits e he := h.fits e (mem_append_left _ he)
  room := by
    have hroom := h.room
    rw [length_append] at hroom
    omega
  same x y hx hy := h.same x y (mem_append_left _ hx) (mem_append_left _ hy)

variable {es : List SpillEntry}

theorem reads_writerOf (h : Codable es) : (writerOf es).reads=es.map .ok := by
  have hread : readFile (writerOf es).bytes=(es,none) := readFile_whole h.fits h.room h.same
  rw [SpillWriter.reads,hread]
  exact append_nil _

/-- The sources of a drain show the entries of the twins. -/
theorem openSources_view {states twins : List (XactState Ev)} (h : List.Forall₂ Twin states twins)
    (hcod : ∀ twin∈twins,Codable twin.inMem) :
    ∃ sources, openSources states=.ok sources ∧
      sources.map MergeSource.view=twins.map (fun twin => twin.inMem.map .ok) := by
  induction h with
  | nil => exact ⟨[],rfl,rfl⟩
  | cons htwin hrest ih =>
    rename_i st twin states twins
    obtain ⟨sources,hopen,hview⟩ := ih (fun t ht => hcod t (mem_cons_of_mem _ ht))
    obtain ⟨front,hs⟩ := htwin
    have hown := hcod twin mem_cons_self
    unfold openSources
    rcases hs.file with hfile|⟨hnone,rfl,-⟩
    · have hcodable : Codable front := by
        rw [hs.entries] at hown
        exact hown.left
      rcases openSpilled_view (writerOf front).reads st.inMem with ⟨_,_,hbad,-⟩|⟨s,hok,hsview⟩
      · rw [reads_writerOf hcodable] at hbad
        cases front with
        | nil | cons e front => cases hbad
      · refine ⟨s::sources,?_,?_⟩
        · simp only [hfile,hok,hopen]
          rfl
        · rw [map_cons,map_cons,hview,hsview,reads_writerOf hcodable,hs.entries,map_append]
    · refine ⟨MergeSource.openMem st.inMem::sources,?_,?_⟩
      · simp only [hnone,hopen]
        rfl
      · rw [map_cons,map_cons,hview,openMem_view,hs.entries,nil_append]

/-- A merge depends on what its sources show. -/
theorem contents_congr {sources sources' : List MergeSource}
    (h : sources.map MergeSource.view=sources'.map MergeSource.view)
    (events : List (List (ℕ×Ev))) (drain : DrainConfig) :
    contents (freshMerge sources events drain)=contents (freshMerge sources' events drain) := by
  have helements : elements (freshMerge sources events drain) =
      elements (freshMerge sources' events drain) := by
    unfold elements
    rw [remaining_eq,remaining_eq]
    simp only [freshMerge,h]
  unfold contents
  rw [helements]
  rfl

/-- A lone source without events is merged in its own order. -/
theorem mergeOrder_single (es : List SpillEntry) (n : ℕ) (hn : es.length≤n) :
    mergeOrder n ([[]] : List (List (ℕ×Ev))) [es.map .ok]=es.map .entry := by
  induction es generalizing n with
  | nil =>
    cases n with
    | zero | succ n => rfl
  | cons e es ih =>
    cases n with
    | zero => exact absurd hn (Nat.not_succ_le_zero _)
    | succ n =>
      have hrest := ih n (Nat.le_of_succ_le_succ hn)
      cases es with
      | nil | cons e' es => exact congrArg (Element.entry e::·) hrest

/-- Owned rows are yielded as they come. -/
theorem expand_rows (cfg : DrainConfig) (f : ToastFold) (hs : List DescribedHeap)
    (hown : ∀ h∈hs,h.decoded.xid∈cfg.allowedXids) :
    expand cfg f ((hs.map SpillEntry.heap).map (Element.entry : SpillEntry→Element Ev)) =
      .ok (hs.map .heap,f) := by
  induction hs with
  | nil => rfl
  | cons h _ ih =>
    have hrest := ih (fun x hx => hown x (mem_cons_of_mem _ hx))
    have hcheck : checkOwned cfg h=.ok () := if_pos (hown h mem_cons_self)
    simp only [map_cons,expand,foldEntry,Except.bind,yieldAll,hcheck,hrest,Except.map]

/-- Items of a drain over the states it claimed. -/
def treeItems (cfg : XactBufferConfig) (stash : StashResolved) (subxids : List Xid)
    (collectRows : Bool) (states : List (XactState Ev)) :
    Except XactBufferError (List (MergeItem Ev)×ChunkRefMap×List ToastRowRef) :=
  if states.isEmpty then .ok ([],[],[])
  else
    match resolution stash states with
    | none => .error (.missingStashResolution stash.topXid)
    | some res =>
      match fastHeaps cfg states with
      | some heaps => .ok (heaps.map .heap,[],[])
      | none =>
        match openSources states with
        | .error e => .error (.spill e)
        | .ok sources =>
          (contents (freshMerge sources (states.map sortedEvents)
            (drainConfig cfg res stash.topXid subxids collectRows))).map
              (fun p => (p.1,p.2.chunks,p.2.rows))

/-- Items a drain yields, or the error it ends with. -/
def drainedItems (drained : Except XactBufferError (CommittedDrain Ev)) :
    Except XactBufferError (List (MergeItem Ev)×ChunkRefMap×List ToastRowRef) :=
  drained.bind drainContents

theorem drainedItems_drainTree (cfg : XactBufferConfig) (b : XactBuffer Ev) (stash : StashResolved)
    (commitLsn : Lsn) (subxids : List Xid) (collectRows : Bool) :
    drainedItems (drainTree cfg b stash commitLsn subxids collectRows).1 =
      treeItems cfg stash subxids collectRows (b.inflight.takeAll (stash.topXid::subxids)).1 := by
  have hclaim : (claimStates b (stash.topXid::subxids) commitLsn).1 =
      (b.inflight.takeAll (stash.topXid::subxids)).1 := rfl
  unfold drainTree treeItems
  dsimp only
  rw [hclaim]
  split
  · rfl
  · cases resolution stash (b.inflight.takeAll (stash.topXid::subxids)).1 with
    | none => rfl
    | some =>
      cases fastHeaps cfg (b.inflight.takeAll (stash.topXid::subxids)).1 with
      | some => rfl
      | none =>
        unfold openDrain
        cases openSources (b.inflight.takeAll (stash.topXid::subxids)).1 with
        | error e | ok sources => rfl

/-- Elements of a lone source without events. -/
theorem elements_single {sources : List MergeSource}
    (hview : sources.map MergeSource.view=[es.map .ok]) (drain : DrainConfig) :
    elements (freshMerge sources ([[]] : List (List (ℕ×Ev))) drain)=es.map .entry := by
  unfold elements
  rw [remaining_eq]
  simp only [freshMerge,hview]
  refine mergeOrder_single es _ ?_
  simp [unmerged]

/-- What the rows of a state owe to the calls that buffered them. -/
structure Owned (xid : Xid) (st : XactState Ev) : Prop where
  /-- Rows are buffered under their own xid. -/
  rows : ∀ h, SpillEntry.heap h∈st.inMem→h.decoded.xid=xid
  /-- The plain flag holds only while every entry is a plain row. -/
  plain : st.plain=true→∀ e∈st.inMem,isPlain e=true

/-- Plain entries are the rows found in them. -/
theorem map_heap_of_plain (h : ∀ e∈es,isPlain e=true) :
    es=(es.filterMap entryHeap).map .heap := by
  induction es with
  | nil => rfl
  | cons e _ ih =>
    have hrest := ih (fun x hx => h x (mem_cons_of_mem _ hx))
    cases e with
    | heap row => exact congrArg (SpillEntry.heap row::·) hrest
    | chunk c | toastDelete d | raw r => exact absurd (h _ mem_cons_self) Bool.false_ne_true

section

variable {heaps : List DescribedHeap} (ht : Fast cfg [twin] twin heaps) {xid : Xid}
  (howned : Owned xid twin) {sources : List MergeSource}
  (hview : sources.map MergeSource.view=[twin.inMem.map .ok])

include ht howned hview

/-- Merging the state alone would give the rows handed over without a merge. -/
theorem elements_fast (drain : DrainConfig) :
    elements (freshMerge sources ([twin].map sortedEvents) drain) =
      (heaps.map SpillEntry.heap).map .entry := by
  have hquiet : [twin].map sortedEvents=[[]] := by
    simp only [map_cons,sortedEvents,ht.quiet]
    rfl
  rw [hquiet,elements_single hview,ht.rows,←map_heap_of_plain (howned.plain ht.plain)]

/-- Their rows pass the ownership check of the merge. -/
theorem contents_fast {drain : DrainConfig} (hxid : xid∈drain.allowedXids) :
    contents (freshMerge sources ([twin].map sortedEvents) drain) =
      .ok (heaps.map .heap,.empty) := by
  unfold contents
  rw [elements_fast ht howned hview]
  refine expand_rows drain _ heaps fun row hrow => ?_
  rw [ht.rows] at hrow
  obtain ⟨e,he,hheap⟩ := mem_filterMap.mp hrow
  cases e with
  | heap r =>
    obtain rfl := Option.some.inj hheap
    rw [howned.rows r he]
    exact hxid
  | chunk c | toastDelete d | raw r => cases hheap

end

section Twins

variable {states twins : List (XactState Ev)}

section

variable (h : List.Forall₂ Twin states twins)

include h

theorem isEmpty_twins : states.isEmpty=twins.isEmpty := by
  cases h with
  | nil | cons _ _ => rfl

theorem resolution_twins (stash : StashResolved) :
    resolution stash states=resolution stash twins := by
  have hall : states.all (fun st => decide (st.stashRfns.size=0)) =
      twins.all (fun st => decide (st.stashRfns.size=0)) := by
    induction h with
    | nil => rfl
    | cons htwin _ ih =>
      obtain ⟨_,hs⟩ := htwin
      rw [all_cons,all_cons,ih,hs.stash]
  unfold resolution
  rw [hall]

theorem sortedEvents_twins : states.map sortedEvents=twins.map sortedEvents := by
  induction h with
  | nil => rfl
  | cons htwin _ ih =>
    obtain ⟨_,hs⟩ := htwin
    rw [map_cons,map_cons,ih]
    unfold sortedEvents
    rw [hs.events]

theorem twins_self : List.Forall₂ Twin twins twins := by
  induction h with
  | nil => exact .nil
  | cons htwin _ ih =>
    obtain ⟨_,hs⟩ := htwin
    exact .cons (twin_self hs.resident) ih

/-- A state handed over without a merge is its twin. -/
theorem fastHeaps_twins {heaps : List DescribedHeap}
    (hfast : fastHeaps cfg states=some heaps) : fastHeaps cfg twins=some heaps := by
  obtain ⟨st,hst⟩ := fastHeaps_some hfast
  obtain rfl := hst.lone
  cases h with
  | cons htwin hrest =>
    rename_i twin twins
    cases hrest
    obtain ⟨_,hs⟩ := htwin
    rcases hs.file with hfile|⟨-,rfl,hbytes⟩
    · rw [hst.unspilled] at hfile
      cases hfile
    · rw [←hfast]
      have hmem : twin.inMem=st.inMem := hs.entries
      simp only [fastHeaps,←hs.plain,←hs.events,hst.unspilled,hs.resident,hmem,hbytes]

/-- Claimed states yield what their twins yield. -/
theorem treeItems_twins
    (hcod : ∀ twin∈twins,Codable twin.inMem) (stash : StashResolved) (subxids : List Xid)
    (hown : ∀ twin∈twins,∃ xid∈stash.topXid::subxids,Owned xid twin) (collectRows : Bool) :
    treeItems cfg stash subxids collectRows states =
      treeItems cfg stash subxids collectRows twins := by
  unfold treeItems
  rw [isEmpty_twins h,resolution_twins h stash]
  split
  · rfl
  · cases resolution stash twins with
    | none => rfl
    | some =>
      obtain ⟨_,hopen,hview⟩ := openSources_view h hcod
      cases hfast : fastHeaps cfg states with
      | some => rw [fastHeaps_twins h hfast]
      | none =>
        cases hfast' : fastHeaps cfg twins with
        | none =>
          obtain ⟨_,hopen',hview'⟩ := openSources_view (twins_self h) hcod
          simp only [hopen,hopen']
          rw [sortedEvents_twins h,contents_congr (hview.trans hview'.symm)]
        | some =>
          obtain ⟨twin,ht⟩ := fastHeaps_some hfast'
          obtain rfl := ht.lone
          obtain ⟨_,hxid,howned⟩ := hown twin mem_cons_self
          simp only [hopen]
          rw [sortedEvents_twins h,contents_fast ht howned hview hxid]
          rfl

end

end Twins

/-- Every state is owned. -/
def AllOwned (u : XactBuffer Ev) : Prop := ∀ xid st, u.inflight.get xid=some st→Owned xid st

theorem owned_new (xid : Xid) (lsn : Lsn) : Owned xid (XactState.new lsn : XactState Ev) where
  rows _ h := absurd h not_mem_nil
  plain _ _ h := absurd h not_mem_nil

section

variable (h : AllOwned u) (xid : Xid) (lsn : Lsn)

include h xid lsn

theorem AllOwned.stateFor
    (hf : ∀ st, Owned xid st→Owned xid (f st)) : AllOwned (stateFor u xid lsn f) := by
  intro x st hget
  rw [inflight_stateFor,get_put] at hget
  split_ifs at hget with hx
  · rw [←Option.some.inj hget,hx]
    refine hf _ ?_
    unfold current
    cases hold : u.inflight.get xid with
    | none => exact owned_new xid lsn
    | some old => exact h xid old hold
  · exact h x st hget

theorem AllOwned.pushEntry {entry : SpillEntry}
    (hentry : ∀ row, entry=.heap row → row.decoded.xid=xid) :
    AllOwned (pushEntry cfg u xid lsn entry) := by
  refine h.stateFor xid lsn (f := fun st => {st with
    plain := st.plain && isPlain entry
    inMem := st.inMem++[entry]
    inMemBytes := st.inMemBytes+approximateSize cfg.sizes entry}) ?_
  intro st hst
  refine ⟨fun row hrow => ?_,fun hplain e he => ?_⟩
  · rcases mem_append.mp hrow with hold|hnew
    · exact hst.rows row hold
    · exact hentry row (mem_singleton.mp hnew).symm
  · obtain ⟨hwas,hnow⟩ := Bool.and_eq_true_iff.mp hplain
    rcases mem_append.mp he with hold|hnew
    · exact hst.plain hwas e hold
    · exact mem_singleton.mp hnew ▸ hnow

theorem AllOwned.markStash (rfn : RelFileNode)
    (payloadFree : Bool) : AllOwned (markStash u xid lsn rfn payloadFree) :=
  h.stateFor xid lsn (f := fun st => {st with
    stashRfns := st.stashRfns.put rfn ((st.stashRfns.get rfn).elim ⟨lsn,payloadFree⟩
      (fun m => m.merge ⟨lsn,payloadFree⟩))}) (fun _ hst => ⟨hst.rows,hst.plain⟩)

end

theorem AllOwned.of_subset (h : AllOwned u) {u' : XactBuffer Ev}
    (hsub : ∀ xid st, u'.inflight.get xid=some st→u.inflight.get xid=some st) : AllOwned u' :=
  fun xid st hget => h xid st (hsub xid st hget)

theorem get_discardStates (u : XactBuffer Ev) (xids : List Xid) (x : Xid) (st : XactState Ev)
    (hget : (discardStates u xids).2.inflight.get x=some st) : u.inflight.get x=some st := by
  induction xids generalizing u with
  | nil => exact hget
  | cons a _ ih =>
    unfold discardStates at hget
    split at hget
    case h_1 => exact ih u hget
    case h_2 =>
      have herase : (u.inflight.erase a).get x=some st := ih _ hget
      rw [get_erase] at herase
      split_ifs at herase with hx
      exact herase

theorem get_drainCommitted (cfg : XactBufferConfig) (u : XactBuffer Ev) (stash : StashResolved)
    (commitLsn : Lsn) (subxids : List Xid) (collectRows : Bool) (x : Xid) (st : XactState Ev)
    (hget : (drainCommitted cfg u stash commitLsn subxids collectRows).2.inflight.get x=some st) :
    u.inflight.get x=some st := by
  have hr := treeDrained cfg u stash commitLsn subxids collectRows
  unfold drainCommitted at hget
  split at hget
  · exact get_discardStates (noteDrained u commitLsn) _ x st hget
  · rw [hr.inflight,get_takeAll] at hget
    split_ifs at hget with hx
    exact hget

theorem AllOwned.step (h : AllOwned u) (op : Op Ev) : AllOwned (unlimitedStep cfg u op) := by
  cases op with
  | onHeap _ heap =>
    refine h.pushEntry _ _ (fun row hrow => ?_)
    obtain rfl := SpillEntry.heap.inj hrow
    rfl
  | onToastChunk it c xid | onToastDelete it d xid =>
    exact h.pushEntry _ _ (fun row hrow => nomatch hrow)
  | stashRaw _ xid raw =>
    simp only [unlimitedStep]
    cases raw.rfn with
    | none => exact h
    | some rfn =>
      exact (h.markStash xid _ rfn false).pushEntry _ _ (fun row hrow => nomatch hrow)
  | noteSmgrCreate xid rfn lsn =>
    simp only [unlimitedStep,noteSmgrCreate]
    split_ifs with hx
    · exact h.markStash xid lsn rfn false
    · exact h
  | trackUnresolvable xid lsn rfn => exact h.markStash xid lsn rfn true
  | pushDrainEntry xid lsn =>
    exact h.stateFor xid lsn (fun _ hst => ⟨hst.rows,hst.plain⟩)
  | evict => exact h
  | drain stash commitLsn subxids collectRows =>
    exact h.of_subset (get_drainCommitted cfg u stash commitLsn subxids collectRows)
  | finish => exact h
  | abort xid lsn subxids =>
    refine h.of_subset fun x st hget => get_discardStates (noteDrained u lsn) (xid::subxids) x st ?_
    simp only [unlimitedStep,abort] at hget
    split at hget <;> exact hget
  | advanceIdle lsn =>
    refine h.of_subset fun x st hget => ?_
    have hget' : (advanceIdle u lsn).inflight.get x=some st := hget
    rw [(inflight_advanceIdle u lsn).1] at hget'
    exact hget'
  | setMinCommitLsn lsn | resumeSafe ack => exact h

theorem allOwned_unlimited (cfg : XactBufferConfig) (ops : List (Op Ev)) :
    AllOwned (unlimited cfg ops) := by
  have hrun : ∀ u : XactBuffer Ev, AllOwned u→AllOwned (ops.foldl (unlimitedStep cfg) u) := by
    induction ops with
    | nil => exact fun _ h => h
    | cons op _ ih => exact fun u h => ih _ (h.step op)
  exact hrun .new nofun

/-- Whatever the memory limit, the iteration order of the map and the evictions,
the drain of a transaction tree yields the items, with their positions, descriptors
and order, that it yields when nothing is ever evicted, provided the entries
buffered for the tree are carried by the spill format. -/
theorem spill_transparent (cfg : XactBufferConfig) (ops : List (Op Ev)) (stash : StashResolved)
    (commitLsn : Lsn) (subxids : List Xid) (collectRows : Bool)
    (hcod : ∀ xid∈stash.topXid::subxids,∀ st,
      (unlimited cfg ops).inflight.get xid=some st → Codable st.inMem) :
    drainedItems (drainCommitted cfg (run cfg World.fresh ops).buffer stash commitLsn subxids
        collectRows).1 =
      drainedItems (drainCommitted cfg (unlimited cfg ops) stash commitLsn subxids
        collectRows).1 := by
  have halike := alike_run cfg ops
  have howned := allOwned_unlimited cfg ops
  have htwins := FinMap.forall₂_takeAll halike.states (stash.topXid::subxids)
  unfold drainCommitted
  rw [halike.start]
  split
  · rfl
  · rw [drainedItems_drainTree,drainedItems_drainTree]
    refine treeItems_twins htwins (fun twin ht => ?_) stash subxids (fun twin ht => ?_) collectRows
    · obtain ⟨xid,hxid,hget⟩ := (mem_takeAll _ _ _).mp ht
      exact hcod xid hxid twin hget
    · obtain ⟨xid,hxid,hget⟩ := (mem_takeAll _ _ _).mp ht
      exact ⟨xid,hxid,howned xid twin hget⟩

/-- Row of a transaction decoded against a descriptor of position 10. -/
def rowAt (lsn : Lsn) (descriptor : RelDescriptor) : DescribedHeap :=
  ⟨⟨⟨1663,5,7000⟩,7,lsn,.update,some ⟨[some (.text "x"),none],true⟩,none⟩,descriptor,10⟩

/-- Two rows of one transaction, the second with its column called `column`. -/
def twoRows (column : String) : List (Op Unit) :=
  [.onHeap .inserted (rowAt 20 (namedTable "a")),.onHeap .inserted (rowAt 30 (namedTable column))]

/-- Two descriptors under one filenode and position: spilled, the second row is
drained with the first row's descriptor; resident, with its own. -/
theorem shared_key_shows_spill :
    drainedItems (drainCommitted (smallConfig 0) (run (smallConfig 0) World.fresh (twoRows "b")).buffer
        ⟨7,none⟩ 40 [] false).1 =
      .ok ([.heap (rowAt 20 (namedTable "a")),.heap (rowAt 30 (namedTable "a"))],[],[]) ∧
    drainedItems (drainCommitted (smallConfig 0) (unlimited (smallConfig 0) (twoRows "b"))
        ⟨7,none⟩ 40 [] false).1 =
      .ok ([.heap (rowAt 20 (namedTable "a")),.heap (rowAt 30 (namedTable "b"))],[],[]) := by
  constructor <;> decide +kernel

theorem codable_twoRows :
    Codable [.heap (rowAt 20 (namedTable "a")),.heap (rowAt 30 (namedTable "a"))] where
  fits e he := by
    simp only [mem_cons,not_mem_nil,or_false] at he
    rcases he with rfl|rfl
    · exact fits_spilledRow 20
    · exact fits_spilledRow 30
  room := by decide
  same h h' hh hh' _ := by
    simp only [mem_cons,not_mem_nil,or_false,SpillEntry.heap.injEq] at hh hh'
    rcases hh with rfl|rfl <;> rcases hh' with rfl|rfl <;> rfl

/-- Two rows, both spilled, drain as if they had stayed in memory. -/
theorem spill_transparent_twoRows :
    ((run (smallConfig 0) World.fresh (twoRows "a")).buffer.inflight.get 7).map XactState.inMem =
      some [] ∧
    drainedItems (drainCommitted (smallConfig 0) (run (smallConfig 0) World.fresh (twoRows "a")).buffer
        ⟨7,none⟩ 40 [] false).1 =
      drainedItems (drainCommitted (smallConfig 0) (unlimited (smallConfig 0) (twoRows "a"))
        ⟨7,none⟩ 40 [] false).1 := by
  refine ⟨by decide +kernel,spill_transparent (smallConfig 0) (twoRows "a") ⟨7,none⟩ 40 [] false ?_⟩
  intro xid hxid st hget
  obtain rfl := mem_singleton.mp hxid
  have hmem : ((unlimited (smallConfig 0) (twoRows "a")).inflight.get 7).map XactState.inMem =
      some [.heap (rowAt 20 (namedTable "a")),.heap (rowAt 30 (namedTable "a"))] := by
    decide +kernel
  rw [hget,Option.map_some] at hmem
  rw [Option.some.inj hmem]
  exact codable_twoRows

end Walshadow.SpillTransparency
