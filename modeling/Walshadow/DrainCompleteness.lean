import Walshadow.DrainContents

/-!
# Completeness of a sliced commit drain

The commit path pulls slices until the first one flagged final. What it pulls is
compared with the whole contents of the drain: rows and control events in merge
order, mirror rows and chunk insertions. The final flag asks only whether every
head and event queue is empty, so the comparison comes out exactly when no slice
boundary falls inside the fan-out of the last record.
-/

namespace Walshadow.DrainCompleteness

open Records CommitDrain DrainMerge DrainContents ListUpdate List

variable {Ev : Type}

/-- Merge order of a slice's rows and events: an event fires before the row it
is stamped with, as the apply plan walks them. -/
def interleave : Nat→List DescribedHeap→List (OrderedEvent Ev)→List (MergeItem Ev)
  | _,[],evs => evs.map (fun e => .event e.event)
  | i,h::hs,evs =>
    (evs.takeWhile (fun e => e.heapIdx ≤ i)).map (fun e => .event e.event)++
      .heap h::interleave (i+1) hs (evs.dropWhile (fun e => e.heapIdx ≤ i))

/-- Rows and events of a slice, in order. -/
def items (b : DrainedBatch Ev) : List (MergeItem Ev) := interleave 0 b.heaps b.orderedEvents

/-- An event stamped past every row goes to the end. -/
theorem interleave_event (i : Nat) (hs : List DescribedHeap) (evs : List (OrderedEvent Ev))
    (e : OrderedEvent Ev) (he : i+hs.length≤e.heapIdx) :
    interleave i hs (evs++[e])=interleave i hs evs++[.event e.event] := by
  induction hs generalizing i evs with
  | nil => simp [interleave]
  | cons _ _ ih =>
    simp only [length_cons] at he
    have hno : decide (e.heapIdx ≤ i)=false := by simp; omega
    have hnext := ih (i+1) (evs.dropWhile (fun e => e.heapIdx ≤ i)) (by omega)
    simp only [interleave]
    rw [takeWhile_snoc _ evs e hno,dropWhile_snoc _ evs e hno,hnext]
    simp

/-- A row behind every stamped event goes to the end. -/
theorem interleave_heap (i : Nat) (hs : List DescribedHeap) (evs : List (OrderedEvent Ev))
    (h : DescribedHeap) (he : ∀ e∈evs,e.heapIdx ≤ i+hs.length) :
    interleave i (hs++[h]) evs=interleave i hs evs++[.heap h] := by
  induction hs generalizing i evs with
  | nil =>
    have hall : ∀ e∈evs,decide (e.heapIdx ≤ i)=true := by simpa using he
    simp [interleave,takeWhile_eq_self_iff.mpr hall,dropWhile_eq_nil_iff.mpr hall]
  | cons _ hs ih =>
    have hdrop : ∀ e∈evs.dropWhile (fun e => decide (e.heapIdx ≤ i)),e.heapIdx ≤ i+1+hs.length := by
      intro e hmem
      have := he e ((dropWhile_sublist _).subset hmem)
      simp only [length_cons] at this
      omega
    simp only [cons_append,interleave]
    rw [ih (i+1) _ hdrop]
    simp

/-- Rows and events gathered so far. -/
def accItems (a : SliceAcc Ev) : List (MergeItem Ev) := interleave 0 a.heaps a.orderedEvents

/-- Gathered events are stamped within the gathered rows. -/
def Stamped (a : SliceAcc Ev) : Prop := ∀ e∈a.orderedEvents,e.heapIdx≤a.heaps.length

variable (a : SliceAcc Ev) (rows : Nat) (i : MergeItem Ev)

theorem accItems_push (h : Stamped a) : accItems (a.push rows i)=accItems a++[i] := by
  cases i with
  | event => exact interleave_event 0 a.heaps a.orderedEvents _ (by simp)
  | heap row => exact interleave_heap 0 a.heaps a.orderedEvents row (by simpa [Stamped] using h)

/-- Gathering an item keeps the stamps within the rows. -/
theorem stamped_push (h : Stamped a) : Stamped (a.push rows i) := by
  cases i with
  | event =>
    intro x hx
    simp only [SliceAcc.push,mem_append,mem_singleton] at hx
    rcases hx with hx|rfl
    · exact h x hx
    · exact le_rfl
  | heap =>
    intro x hx
    simp only [SliceAcc.push,length_append]
    exact Nat.le_succ_of_le (h x hx)

/-- What is left behind each slice boundary of a list of items, from `rows` rows
and `bytes` bytes already in the slice: a slice closes at the first row that
brings it to either budget. -/
def cutsAfter (maxRows maxBytes : Nat) : Nat→Nat→List (MergeItem Ev)→List Nat
  | _,_,[] => []
  | rows,bytes,.event _::is => cutsAfter maxRows maxBytes rows bytes is
  | rows,bytes,.heap h::is =>
    if rows+1 < max maxRows 1 ∧ bytes+h.approxBytes < max maxBytes 1 then
      cutsAfter maxRows maxBytes (rows+1) (bytes+h.approxBytes) is
    else is.length::cutsAfter maxRows maxBytes 0 0 is

/-- Put items in front of later contents. -/
def prepend (taken : List (MergeItem Ev))
    (k : Contents Ev) :
    Contents Ev :=
  k.map (fun p => (taken++p.1,p.2))

theorem prepend_cons (taken : List (MergeItem Ev))
    (k : Contents Ev) :
    consItem i (prepend taken k)=prepend (i::taken) k := by
  cases k <;> rfl

/-- What the slice loop does to the contents. -/
inductive SliceCase (maxRows maxBytes n : Nat) (a : SliceAcc Ev) (d : MergedDrain Ev)
    (r : Except XactBufferError (SliceAcc Ev×MergedDrain Ev)) : Prop where
  | failed (x : XactBufferError) (hr : r=.error x) (hc : contents d=.error x)
  | ended (a' : SliceAcc Ev) (d' : MergedDrain Ev) (taken : List (MergeItem Ev)) (hr : r=.ok (a',d'))
      (ha : accItems a'=accItems a++taken) (hc : contents d=.ok (taken,d'.fold))
      (hp : d'.pendingHeaps=[]) (he : elements d'=[]) (hx : d'.isExhausted=true)
      (hcut : cutsAfter maxRows maxBytes a.heaps.length a.bytes taken=[])
  | cut (a' : SliceAcc Ev) (d' : MergedDrain Ev) (taken : List (MergeItem Ev)) (hr : r=.ok (a',d'))
      (ha : accItems a'=accItems a++taken) (hc : contents d=prepend taken (contents d'))
      (ht : taken≠[]) (hs : Settled n d') (hw : d'.weight<d.weight)
      (hcut : ∀ rest, cutsAfter maxRows maxBytes a.heaps.length a.bytes (taken++rest) =
        rest.length::cutsAfter maxRows maxBytes 0 0 rest)

theorem sliceLoop_stop (maxRows maxBytes k : Nat) (a : SliceAcc Ev) (d : MergedDrain Ev)
    (h : ¬a.admits maxRows maxBytes) : sliceLoop maxRows maxBytes k a d=.ok (a,d) := by
  cases k with
  | zero => rfl
  | succ => simp only [sliceLoop,if_neg h]

variable {maxRows maxBytes n : Nat}

/-- The slice loop takes items off the contents until a row reaches a budget or
nothing is left. -/
theorem sliceLoop_cases (k : Nat) (a : SliceAcc Ev) (d : MergedDrain Ev)
    (hadm : a.admits maxRows maxBytes) (hk : max maxRows 1+eventCount d≤k+a.heaps.length)
    (hal : Aligned n d) (hst : Stamped a) :
    SliceCase maxRows maxBytes n a d (sliceLoop maxRows maxBytes k a d) := by
  induction k generalizing a d with
  | zero =>
    have := hadm.1
    omega
  | succ k ih =>
    simp only [sliceLoop,if_pos hadm]
    cases next_cases d hal with
    | failed x hr hc => exact .failed x (by rw [hr]) hc
    | ended d' hr hc hp he hx =>
      exact .ended a d' [] (by rw [hr]) (by simp) hc hp he hx rfl
    | item i d' hr hc hs hw he =>
      rw [hr]
      have hitems := accItems_push a d'.fold.rows.length i hst
      have hstamp := stamped_push a d'.fold.rows.length i hst
      by_cases hmore : (a.push d'.fold.rows.length i).admits maxRows maxBytes
      · have hstep : ∀ is, cutsAfter maxRows maxBytes a.heaps.length a.bytes (i::is) =
            cutsAfter maxRows maxBytes (a.push d'.fold.rows.length i).heaps.length
              (a.push d'.fold.rows.length i).bytes is := by
          intro is
          cases i with
          | event => rfl
          | heap =>
            simp only [SliceAcc.admits,SliceAcc.push,length_append,length_singleton] at hmore
            simp only [cutsAfter,if_pos hmore,SliceAcc.push,length_append,length_singleton]
        have hfuel : max maxRows 1+eventCount d'≤k+(a.push d'.fold.rows.length i).heaps.length := by
          cases i with
          | event => simp only [eventUnit,SliceAcc.push] at he ⊢; omega
          | heap =>
            simp only [SliceAcc.push,length_append,length_singleton] at he ⊢
            omega
        cases ih _ d' hmore hfuel hs.toAligned hstamp with
        | failed x hr' hc' => exact .failed x hr' (by rw [hc,hc']; rfl)
        | ended a' d'' taken hr' ha' hc' hp' he' hx' hcut =>
          refine .ended a' d'' (i::taken) hr' ?_ (by rw [hc,hc']; rfl) hp' he' hx' ?_
          · rw [ha',hitems,append_assoc]
            rfl
          · rw [hstep,hcut]
        | cut a' d'' taken hr' ha' hc' _ hs' hw' hcut =>
          refine .cut a' d'' (i::taken) hr' ?_ (by rw [hc,hc',prepend_cons]) (by simp) hs'
            (lt_trans hw' hw) ?_
          · rw [ha',hitems,append_assoc]
            rfl
          · intro rest
            rw [cons_append,hstep,hcut]
      · refine .cut _ d' [i] (sliceLoop_stop maxRows maxBytes k _ d' hmore) hitems hc (by simp) hs
          hw ?_
        intro rest
        cases i with
        | event => exact absurd hadm hmore
        | heap =>
          simp only [SliceAcc.admits,SliceAcc.push,length_append,length_singleton] at hmore
          simp only [singleton_append,cutsAfter,if_neg hmore]

/-- Items, chunk insertions and mirror rows of a drain, or why it fails. -/
abbrev Handout (Ev : Type) :=
  Except XactBufferError (List (MergeItem Ev)×ChunkRefMap×List ToastRowRef)

/-- What a drain has not handed out. -/
def drainContents (c : CommittedDrain Ev) : Handout Ev :=
  match c.merged with
  | none => .ok ([],[],[])
  | some (.heaps hs) => .ok (hs.map .heap,[],[])
  | some (.merged m) => (contents m).map (fun p => (p.1,p.2.chunks,p.2.rows))

/-- Pulled slices against the contents they were pulled from: the same failure,
or every item, chunk insertion and mirror row once and in order with nothing
left. -/
def PulledWhole (r : Except XactBufferError (List (DrainedBatch Ev)×CommittedDrain Ev))
    (generations : List ChunkRefMap)
    (k : Handout Ev) : Prop :=
  match r with
  | .error x => k=.error x
  | .ok (bs,c) => ∃ chunks, k=.ok (bs.flatMap items,chunks,bs.flatMap DrainedBatch.newRows) ∧
      c.generations.flatten=generations.flatten++chunks ∧ drainContents c=.ok ([],[],[])

/-- No slice boundary leaves some but fewer than `n` items. -/
def Uncut (maxRows maxBytes n : Nat) (is : List (MergeItem Ev)) : Prop :=
  ∀ left∈cutsAfter maxRows maxBytes 0 0 is,left=0 ∨ n≤left

instance (maxRows maxBytes n : Nat) (is : List (MergeItem Ev)) :
    Decidable (Uncut maxRows maxBytes n is) :=
  inferInstanceAs (Decidable (∀ left∈_,_))

variable (generations : List ChunkRefMap)

variable {m : MergedDrain Ev}

/-- A slice that gathered nothing and folded nothing is no batch. -/
theorem sealBatch_none {a : SliceAcc Ev}
    (h : accItems a=[]) (hch : m.fold.chunks=[]) (hrows : m.fold.rows=[]) :
    sealBatch a m generations=(none,⟨some (.merged {m with fold := m.fold.take}),generations⟩) := by
  obtain ⟨heaps,evs,_,_⟩ := a
  cases heaps with
  | cons h => simp [accItems,interleave] at h
  | nil =>
    have hevs : evs=[] := by simpa [accItems,interleave] using h
    simp [sealBatch,hevs,hch,hrows]

/-- Generations after a slice: the live one is sealed unless it is empty. -/
def sealedGenerations (m : MergedDrain Ev) (generations : List ChunkRefMap) : List ChunkRefMap :=
  if m.fold.chunks.isEmpty then generations else generations++[m.fold.chunks]

theorem sealedGenerations_flatten (m : MergedDrain Ev) (generations : List ChunkRefMap) :
    (sealedGenerations m generations).flatten=generations.flatten++m.fold.chunks := by
  unfold sealedGenerations
  cases h : m.fold.chunks with
  | nil | cons c cs => simp

/-- A slice that gathered or folded something is a batch. -/
theorem sealBatch_some {a : SliceAcc Ev}
    (h : accItems a≠[] ∨ m.fold.chunks≠[] ∨ m.fold.rows≠[]) :
    ∃ b, sealBatch a m generations =
        (some b,⟨some (.merged {m with fold := m.fold.take}),sealedGenerations m generations⟩) ∧
      items b=accItems a ∧ b.newRows=m.fold.rows ∧ b.isFinal=m.isExhausted := by
  have hne : ¬((a.heaps.isEmpty && a.orderedEvents.isEmpty && m.fold.chunks.isEmpty &&
      m.fold.rows.isEmpty)=true) := by
    simp only [Bool.and_eq_true,List.isEmpty_iff]
    rintro ⟨⟨⟨hh,he⟩,hch⟩,hrows⟩
    rcases h with h|h|h
    · exact h (by simp [accItems,interleave,hh,he])
    · exact h hch
    · exact h hrows
  refine ⟨⟨a.heaps,a.orderedEvents,sealedGenerations m generations,m.fold.rows,a.truncateRows,
    m.isExhausted⟩,?_,rfl,rfl,rfl⟩
  simp only [sealBatch,if_neg hne,sealedGenerations]

variable (d : MergedDrain Ev)

/-- The merge order is empty exactly when the exhaustion test passes. -/
theorem elements_nil_iff : elements d=[] ↔ d.isExhausted=true := by
  rw [isExhausted_iff_pick]
  constructor
  · intro he
    cases outlook d.events (d.sources.map MergeSource.view) with
    | ended h => exact h
    | event _ _ _ _ h hq =>
      rw [elements_eq d (d.remaining+1) (Nat.le_succ _),mergeOrder_event _ h hq] at he
      cases he
    | failed _ _ _ _ h hv =>
      rw [elements_eq d (d.remaining+1) (Nat.le_succ _),mergeOrder_failed _ h hv] at he
      cases he
    | entry _ _ _ h hv hr =>
      rw [elements_eq d (d.remaining+1) (Nat.le_succ _),mergeOrder_entry _ h hv hr] at he
      cases he
  · exact mergeOrder_ended _

variable {chunks : ChunkRefMap}

/-- A slice pulled in front of the rest moves the comparison to the rest. -/
theorem pulledWhole_cons {r : Except XactBufferError (List (DrainedBatch Ev)×CommittedDrain Ev)}
    {generations generations' : List ChunkRefMap} {b : DrainedBatch Ev}
    {k k' : Handout Ev}
    (hk : k=k'.map (fun p => (items b++p.1,chunks++p.2.1,b.newRows++p.2.2)))
    (hg : generations'.flatten=generations.flatten++chunks) :
    PulledWhole (r.map (fun p => (b::p.1,p.2))) generations k ↔ PulledWhole r generations' k' := by
  cases r with
  | error =>
    cases k' with
    | error y | ok p => simp [PulledWhole,Except.map,hk]
  | ok =>
    cases k' with
    | error => simp [PulledWhole,Except.map,hk]
    | ok q =>
      obtain ⟨_,chunks',_⟩ := q
      simp only [PulledWhole,Except.map,hk,Except.ok.injEq,Prod.mk.injEq,hg]
      constructor
      · rintro ⟨_,⟨hi,hc,hr⟩,hgen,hleft⟩
        refine ⟨chunks',⟨append_cancel_left hi,rfl,append_cancel_left hr⟩,?_,hleft⟩
        rw [hgen,←hc,append_assoc]
      · rintro ⟨_,⟨rfl,rfl,rfl⟩,hgen,hleft⟩
        exact ⟨chunks++chunks',⟨rfl,rfl,rfl⟩,by rw [hgen,append_assoc],hleft⟩

/-- Handing out the side tables splits the contents of a drain. -/
theorem drainContents_take (generations generations' : List ChunkRefMap) :
    drainContents ⟨some (.merged d),generations⟩ =
      (drainContents ⟨some (.merged {d with fold := d.fold.take}),generations'⟩).map
        (fun p => (p.1,d.fold.chunks++p.2.1,d.fold.rows++p.2.2)) := by
  simp only [drainContents]
  rw [contents_take]
  cases contents {d with fold := d.fold.take} <;> rfl

/-- Taken items are the first items of a drain's contents. -/
theorem drainContents_prepend {d d' : MergedDrain Ev} {taken : List (MergeItem Ev)}
    (generations generations' : List ChunkRefMap) (h : contents d=prepend taken (contents d')) :
    drainContents ⟨some (.merged d),generations⟩ =
      (drainContents ⟨some (.merged d'),generations'⟩).map (fun p => (taken++p.1,p.2.1,p.2.2)) := by
  simp only [drainContents,h]
  cases contents d' <;> rfl

/-- An exhausted merge with nothing queued has nothing left once its side tables
are handed out. -/
theorem drainContents_exhausted {d : MergedDrain Ev} (hp : d.pendingHeaps=[]) (he : elements d=[])
    (generations : List ChunkRefMap) :
    drainContents ⟨some (.merged {d with fold := d.fold.take}),generations⟩=.ok ([],[],[]) := by
  have hcont : contents {d with fold := d.fold.take}=.ok ([],d.fold.take) := by
    change yieldAll d.cfg d.pendingHeaps (expand d.cfg d.fold.take (elements d))=_
    rw [hp,he]
    rfl
  simp only [drainContents]
  rw [hcont]
  rfl

/-- Handing out the side tables keeps a merge's place. -/
theorem settled_take {n : Nat} {d : MergedDrain Ev} (h : Settled n d) :
    Settled n {d with fold := d.fold.take} :=
  ⟨{h with},h.begun,h.owned⟩

/-- What pulling one slice does to the contents of a merge. -/
inductive BatchCase (maxRows maxBytes n : Nat) (m : MergedDrain Ev) (generations : List ChunkRefMap)
    (r : Except XactBufferError (Option (DrainedBatch Ev)×CommittedDrain Ev)) : Prop where
  | failed (x : XactBufferError) (hr : r=.error x)
      (hc : drainContents ⟨some (.merged m),generations⟩=.error x)
  | empty (c : CommittedDrain Ev) (hr : r=.ok (none,c)) (hg : c.generations=generations)
      (hc : drainContents ⟨some (.merged m),generations⟩=.ok ([],[],[]))
      (hleft : drainContents c=.ok ([],[],[]))
  | ended (b : DrainedBatch Ev) (c : CommittedDrain Ev) (chunks : ChunkRefMap)
      (hr : r=.ok (some b,c)) (hb : b.isFinal=true)
      (hg : c.generations.flatten=generations.flatten++chunks)
      (hc : drainContents ⟨some (.merged m),generations⟩=.ok (items b,chunks,b.newRows))
      (hleft : drainContents c=.ok ([],[],[]))
      (hcut : cutsAfter maxRows maxBytes 0 0 (items b)=[])
  | cut (b : DrainedBatch Ev) (d : MergedDrain Ev) (generations' : List ChunkRefMap)
      (chunks : ChunkRefMap) (hr : r=.ok (some b,⟨some (.merged d),generations'⟩))
      (hb : b.isFinal=d.isExhausted) (hg : generations'.flatten=generations.flatten++chunks)
      (hc : drainContents ⟨some (.merged m),generations⟩ =
        (drainContents ⟨some (.merged d),generations'⟩).map
          (fun p => (items b++p.1,chunks++p.2.1,b.newRows++p.2.2)))
      (hs : Settled n d) (hw : d.weight < m.weight) (hch : d.fold.chunks=[]) (hrows : d.fold.rows=[])
      (hcut : ∀ rest, cutsAfter maxRows maxBytes 0 0 (items b++rest) =
        rest.length::cutsAfter maxRows maxBytes 0 0 rest)

/-- The inversion of pulling one slice off a merge. -/
theorem nextBatch_cases (maxRows maxBytes : Nat) {n : Nat} (m : MergedDrain Ev)
    (generations : List ChunkRefMap) (hal : Aligned n m) :
    BatchCase maxRows maxBytes n m generations
      (CommittedDrain.nextBatch maxRows maxBytes ⟨some (.merged m),generations⟩) := by
  have hstart : (⟨[],[],[],0⟩ : SliceAcc Ev).admits maxRows maxBytes :=
    ⟨Nat.le_max_right _ _,Nat.le_max_right _ _⟩
  have hslice := sliceLoop_cases (max maxRows 1+eventCount m) ⟨[],[],[],0⟩ m hstart
    (le_rfl) hal (by simp [Stamped])
  change BatchCase maxRows maxBytes n m generations (nextBatchMerged maxRows maxBytes m generations)
  unfold nextBatchMerged
  unfold eventCount at hslice
  cases hslice with
  | failed x hr hc =>
    rw [hr]
    refine .failed x rfl ?_
    simp only [drainContents,hc]
    rfl
  | ended a d taken hr ha hc hp he hx hcut =>
    have hitems : accItems a=taken := ha
    have hcont : drainContents ⟨some (.merged m),generations⟩ =
        .ok (taken,d.fold.chunks,d.fold.rows) := by
      simp only [drainContents,hc]
      rfl
    rw [hr]
    dsimp only
    by_cases hany : accItems a≠[] ∨ d.fold.chunks≠[] ∨ d.fold.rows≠[]
    · obtain ⟨b,hb,hbi,hbr,hbf⟩ := sealBatch_some generations hany
      rw [hb]
      refine .ended b _ d.fold.chunks rfl (by rw [hbf,hx]) (sealedGenerations_flatten d generations)
        ?_ (drainContents_exhausted hp he _) ?_
      · rw [hcont,hbi,hbr,hitems]
      · rw [hbi,hitems]
        exact hcut
    · simp only [not_or,not_not] at hany
      obtain ⟨hi,hch,hrows⟩ := hany
      rw [sealBatch_none generations hi hch hrows]
      refine .empty _ rfl rfl ?_ (drainContents_exhausted hp he _)
      rw [hcont,←hitems,hi,hch,hrows]
  | cut a d taken hr ha hc ht hs hw hcut =>
    have hitems : accItems a=taken := ha
    obtain ⟨b,hb,hbi,hbr,hbf⟩ :=
      sealBatch_some (a := a) (m := d) generations (.inl (hitems ▸ ht))
    rw [hr]
    dsimp only
    rw [hb]
    refine .cut b _ _ d.fold.chunks rfl hbf (sealedGenerations_flatten d generations) ?_
      (settled_take hs) hw rfl rfl ?_
    · rw [drainContents_prepend generations generations hc,
        drainContents_take d generations (sealedGenerations d generations),hbi,hbr,hitems]
      cases drainContents ⟨some (.merged {d with fold := d.fold.take}),
        sealedGenerations d generations⟩ <;> rfl
    · intro rest
      rw [hbi,hitems]
      exact hcut rest

/-- Items left in a merge, in front of its side tables. -/
theorem contents_of_drain {generations : List ChunkRefMap}
    {is : List (MergeItem Ev)} {rows : List ToastRowRef}
    (h : drainContents ⟨some (.merged m),generations⟩=.ok (is,chunks,rows)) :
    ∃ f, contents m=.ok (is,f) := by
  simp only [drainContents] at h
  cases hc : contents m with
  | error => simp [hc,Except.map] at h
  | ok p =>
    simp only [hc,Except.map,Except.ok.injEq,Prod.mk.injEq] at h
    exact ⟨p.2,by rw [←h.1]⟩

/-- No slice boundary of a drain's contents leaves part of a fan-out of `n`. -/
def UncutContents (maxRows maxBytes n : Nat)
    (k : Handout Ev) : Prop :=
  ∀ is chunks rows, k=.ok (is,chunks,rows)→Uncut maxRows maxBytes n is

/-- The pulled slices are whole exactly when no slice boundary falls inside the
last fan-out. -/
theorem pullFuel_whole_iff (k : Nat) (m : MergedDrain Ev)
    (generations : List ChunkRefMap) (hw : m.weight<k) (hal : Aligned n m) :
    PulledWhole (pullFuel maxRows maxBytes k ⟨some (.merged m),generations⟩) generations
        (drainContents ⟨some (.merged m),generations⟩) ↔
      UncutContents maxRows maxBytes n (drainContents ⟨some (.merged m),generations⟩) := by
  induction k generalizing m generations with
  | zero => omega
  | succ _ ih =>
    cases nextBatch_cases maxRows maxBytes m generations hal with
    | failed _ hr hc =>
      rw [hc]
      simp only [pullFuel,hr]
      exact iff_of_true rfl nofun
    | empty _ hr hg hc hleft =>
      rw [hc]
      simp only [pullFuel,hr]
      refine iff_of_true ⟨[],rfl,by simp [hg],hleft⟩ ?_
      intro is chunks rows h left hmem
      obtain ⟨rfl,-⟩ := Prod.mk.inj (Except.ok.inj h)
      cases hmem
    | ended _ _ chunks hr hb hg hc hleft hcut =>
      rw [hc]
      simp only [pullFuel,hr,hb]
      refine iff_of_true ⟨chunks,by simp,hg,hleft⟩ ?_
      intro is chunks' rows h left hmem
      obtain ⟨rfl,-⟩ := Prod.mk.inj (Except.ok.inj h)
      rw [hcut] at hmem
      cases hmem
    | cut b d generations' chunks hr hb hg hc hs _ hch hrows hcut =>
      have hcuts : ∀ is chunks' rows,
          drainContents ⟨some (.merged d),generations'⟩=.ok (is,chunks',rows) →
          (UncutContents maxRows maxBytes n (drainContents ⟨some (.merged m),generations⟩) ↔
            (is.length=0 ∨ n ≤ is.length) ∧ Uncut maxRows maxBytes n is) := by
        intro is chunks' rows hd
        rw [hc,hd]
        simp only [UncutContents,Except.map,Except.ok.injEq,Prod.mk.injEq]
        constructor
        · intro h
          have hall := h _ _ _ ⟨rfl,rfl,rfl⟩
          simpa [Uncut,hcut] using hall
        · simp [Uncut,hcut]
      by_cases he : elements d=[]
      · have hfinal : b.isFinal=true := hb.trans ((elements_nil_iff d).mp he)
        have hleft : drainContents ⟨some (.merged d),generations'⟩ =
            .ok (d.pendingHeaps.map .heap,[],[]) := by
          simp only [drainContents,contents_queue hs he,Except.map,hch,hrows]
        rw [hcuts _ _ _ hleft]
        simp only [pullFuel,hr,hfinal,length_map]
        cases hp : d.pendingHeaps with
        | nil =>
          rw [hp] at hleft
          refine iff_of_true ⟨chunks,?_,hg,hleft⟩ ⟨.inl rfl,by simp [Uncut,cutsAfter]⟩
          rw [hc,hleft]
          simp [Except.map]
        | cons =>
          have hlt := hs.begun he (by simp [hp])
          rw [hp] at hleft hlt
          refine iff_of_false ?_ ?_
          · rintro ⟨-,-,-,hnone⟩
            rw [hleft] at hnone
            simp at hnone
          · rintro ⟨h0|_,-⟩
            · simp at h0
            · omega
      · have hopen : b.isFinal=false := by
          rw [hb,Bool.eq_false_iff]
          exact fun hx => he ((elements_nil_iff d).mpr hx)
        simp only [pullFuel,hr,hopen,Bool.false_eq_true,if_false]
        rw [pulledWhole_cons hc hg,ih d generations' (by omega) hs.toAligned]
        cases hd : drainContents ⟨some (.merged d),generations'⟩ with
        | error =>
          rw [hc,hd]
          exact iff_of_true nofun nofun
        | ok p =>
          obtain ⟨is,chunks',rows⟩ := p
          obtain ⟨_,hf⟩ := contents_of_drain hd
          have hlen := contents_last_le hs he hf
          rw [hcuts is chunks' rows hd]
          constructor
          · intro h
            exact ⟨.inr hlen,h is chunks' rows rfl⟩
          · rintro ⟨-,h⟩ _ _ _ heq
            obtain ⟨rfl,-⟩ := Prod.mk.inj (Except.ok.inj heq)
            exact h

/-- What a commit drain is opened over: nothing buffered, the rows of a lone
unspilled transaction, or a merge of any sources and event queues. -/
inductive Opened (Ev : Type) where
  | nothing
  | heaps (hs : List DescribedHeap)
  | merge (sources : List MergeSource) (events : List (List (Nat×Ev))) (cfg : DrainConfig)

/-- The merge of freshly opened sources. -/
def freshMerge (sources : List MergeSource) (events : List (List (Nat×Ev))) (cfg : DrainConfig) :
    MergedDrain Ev := ⟨sources,events,[],.empty,cfg⟩

/-- The opened commit drain. -/
def Opened.drain : Opened Ev → CommittedDrain Ev
  | .nothing => ⟨none,[]⟩
  | .heaps hs => ⟨some (.heaps hs),[]⟩
  | .merge sources events cfg => ⟨some (.merged (freshMerge sources events cfg)),[]⟩

/-- Rows the last element in merge order fans out to: none unless it is a
stashed record of an ordinary relation. -/
def Opened.lastFanout : Opened Ev→Nat
  | .merge sources events cfg =>
    ((elements (freshMerge sources events cfg)).getLast?.map (elementFanout cfg)).getD 0
  | _ => 0

/-- A fresh merge stands before its last fan-out. -/
theorem aligned_fresh (sources : List MergeSource) (events : List (List (Nat×Ev)))
    (cfg : DrainConfig) :
    Aligned (Opened.merge sources events cfg).lastFanout (freshMerge sources events cfg) := by
  refine (settled_of_empty rfl ?_).toAligned
  intro e he
  simp only [Opened.lastFanout,Option.mem_def.mp he]
  rfl

/-- Rows handed over without a merge are pulled whole. -/
theorem pulledWhole_heaps (hs : List DescribedHeap) : PulledWhole
    (pullAll maxRows maxBytes (⟨some (.heaps hs),[]⟩ : CommittedDrain Ev)) []
    (.ok (hs.map .heap,[],[])) := by
  cases hs with
  | nil => exact ⟨[],rfl,rfl,rfl⟩
  | cons h hs =>
    refine ⟨[],?_,rfl,rfl⟩
    have hi : ∀ (i : Nat) (hs : List DescribedHeap),
        interleave i hs ([] : List (OrderedEvent Ev))=hs.map .heap := by
      intro i hs
      induction hs generalizing i with
      | nil => rfl
      | cons _ _ ih => simp [interleave,ih]
    simp [items,hi]

/-- The commit path's slices hold every item, chunk insertion and mirror row of
the drain exactly once and in merge order, with nothing left behind, exactly
when no slice boundary leaves some but not all rows of the last fan-out. -/
theorem pullAll_whole_iff (o : Opened Ev) (maxRows maxBytes : Nat) :
    PulledWhole (pullAll maxRows maxBytes o.drain) [] (drainContents o.drain) ↔
      UncutContents maxRows maxBytes o.lastFanout (drainContents o.drain) := by
  cases o with
  | nothing =>
    refine iff_of_true ⟨[],rfl,rfl,rfl⟩ ?_
    intro is chunks rows _ left _
    exact .inr (Nat.zero_le _)
  | heaps hs =>
    refine iff_of_true (pulledWhole_heaps hs) ?_
    intro is chunks rows _ left _
    exact .inr (Nat.zero_le _)
  | merge sources events cfg =>
    exact pullFuel_whole_iff _ _ _ (Nat.lt_succ_self _) (aligned_fresh sources events cfg)

/-- Filenode of the stashed relation in the two-row insert below. -/
def stashedRfn : RelFileNode := ⟨1663,5,16384⟩

/-- Commit-time descriptor of that relation. -/
def stashedRel : RelDescriptor :=
  ⟨⟨stashedRfn,16384,0,2200,⟨"public","t"⟩,'r','p',.nothing,[]⟩,[]⟩

/-- A stashed MULTI_INSERT record that carries its tuples. -/
def multiInsert : RawRecord :=
  ⟨700,rmHeap2,0x50,1000,0xD116,[xlhInsertContainsNewTuple],
    [⟨0,bkpBlockHasData,4,0,0,0,0,1663,5,16384,0,[],[1,2,3,4]⟩]⟩

/-- Decoder reading two inserted tuples out of every record. -/
def pairDecoder : HeapDecoder where
  decodeHeapRecord raw rel :=
    let row : DecodedHeap := ⟨rel.rfn,raw.xid,raw.sourceLsn,.insert,some ⟨[],false⟩,none⟩
    .ok [row,row]
  decodeStashedToast _ _ := .ok []
  xid_eq := by
    intro raw rel hs h
    cases h
    simp

/-- Commit of a transaction whose only entry is that record. -/
def multiInsertCommit : Opened Unit :=
  .merge [.openMem [.raw multiInsert]] []
    ⟨false,fun rfn => if rfn=stashedRfn then some (.ordinary stashedRel 900 [] []) else none,
      [700],700,16,64,pairDecoder⟩

/-- With slices of one row the first slice of a two-row MULTI_INSERT is flagged
final, and its second row is never pulled. -/
theorem pullAll_not_whole_multiInsert :
    ¬PulledWhole (pullAll 1 4096 multiInsertCommit.drain) []
      (drainContents multiInsertCommit.drain) := by
  rintro ⟨_,_,_,hleft⟩
  cases hleft

end Walshadow.DrainCompleteness
