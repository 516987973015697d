import Walshadow.ListUpdate
import Walshadow.CommitDrain

/-!
# Merge order of a commit drain

The specification side of the merge: the flat list of events and entries the
picks produce from the undelivered contents alone, the items that list expands
to, and one inversion theorem for a turn of the loop. Heads, refills and the
split between the spill file and the in-memory tail do not appear in it.
-/

namespace Walshadow.DrainMerge

open Records CommitDrain ListUpdate List

variable {Ev : Type}

/-- One element of the merge order. -/
inductive Element (Ev : Type) where
  | event (e : Ev)
  | entry (e : SpillEntry)
  | failed (e : SpillError)

/-- Position of the next entry of an undelivered list. -/
def viewLsn : List (Except SpillError SpillEntry)→Option Nat
  | .ok e::_ => some (entryLsn e)
  | _ => none

/-- Position of the next event of a queue. -/
def queueLsn (q : List (Nat×Ev)) : Option Nat := q.head?.map Prod.fst

/-- Merge order of event queues and undelivered entries. Reading past an entry
comes before delivering it, so an entry in front of a failed read is lost to
the failure. -/
def mergeOrder : Nat→List (List (Nat×Ev))→List (List (Except SpillError SpillEntry)) →
    List (Element Ev)
  | 0,_,_ => []
  | n+1,events,views =>
    match pick (events.map queueLsn) (views.map viewLsn) with
    | none => []
    | some (.event i) =>
      match events[i]? with
      | some ((_,ev)::rest) => .event ev::mergeOrder n (events.set i rest) views
      | _ => []
    | some (.data i) =>
      match views[i]? with
      | some (.ok _::.error x::_) => [.failed x]
      | some (.ok e::rest) => .entry e::mergeOrder n events (views.set i rest)
      | _ => []

/-- Undelivered events and entries. -/
def unmerged (events : List (List (Nat×Ev))) (views : List (List (Except SpillError SpillEntry))) :
    Nat := (views.map List.length).sum+(events.map List.length).sum

/-- Elements a merge has not taken, in merge order. -/
def elements (d : MergedDrain Ev) : List (Element Ev) :=
  mergeOrder d.remaining d.events (d.sources.map MergeSource.view)

section

variable (mk : Nat→Pick) (wins : Nat→Nat→Bool) (heads : List (Option Nat)) (i : Nat)
  (best : Option (Pick×Nat))

include mk wins heads i best

/-- A scan finds nothing exactly when it starts with nothing and every head is
empty. -/
theorem scanHeads_none :
    scanHeads mk wins heads i best=none ↔ best=none ∧ ∀ h∈heads,h=none := by
  induction heads generalizing i best with
  | nil => simp [scanHeads]
  | cons head _ ih =>
    cases head with
    | none => simp [scanHeads,ih]
    | some => cases best <;> simp [scanHeads,ih,ite_eq_iff]

/-- A scan's result is the head it started from or one of the scanned heads. -/
theorem scanHeads_some (p : Pick) (lsn : Nat) (h : scanHeads mk wins heads i best=some (p,lsn)) :
    best=some (p,lsn) ∨ ∃ k, p=mk (i+k) ∧ heads[k]?=some (some lsn) := by
  induction heads generalizing i best with
  | nil => exact .inl h
  | cons head rest ih =>
    have shift : (∃ k, p=mk (i+1+k) ∧ rest[k]?=some (some lsn)) →
        ∃ k, p=mk (i+k) ∧ (head::rest)[k]?=some (some lsn) := by
      rintro ⟨k,hp,hk⟩
      exact ⟨k+1,by rw [hp,show i+1+k=i+(k+1) by omega],by simpa using hk⟩
    cases head with
    | none => exact (ih (i+1) best h).imp_right shift
    | some =>
      rcases ih (i+1) _ h with hb|hk
      · split at hb
        · simp only [Option.some.injEq,Prod.mk.injEq] at hb
          exact .inr ⟨0,by simp [hb.1],by simp [hb.2]⟩
        · exact .inl hb
      · exact .inr (shift hk)

end

theorem pick_none (events sources : List (Option Nat)) :
    pick events sources=none ↔ (∀ h∈events,h=none) ∧ ∀ h∈sources,h=none := by
  simp [pick,scanSources,scanEvents,scanHeads_none]

variable {i lsn : Nat} {events : List (List (Nat×Ev))}
  {views : List (List (Except SpillError SpillEntry))} {rest : List (Except SpillError SpillEntry)}

/-- A picked event head exists. -/
theorem pick_event {events sources : List (Option Nat)} (h : pick events sources=some (.event i))
    : ∃ lsn, events[i]?=some (some lsn) := by
  obtain ⟨⟨_,lsn⟩,hs,rfl⟩ := Option.map_eq_some_iff.mp h
  rcases scanHeads_some _ _ _ _ _ _ _ hs with hb|⟨k,hk,-⟩
  · rcases scanHeads_some _ _ _ _ _ _ _ hb with hn|⟨_,hk,hlsn⟩
    · cases hn
    · simp only [zero_add,Pick.event.injEq] at hk
      exact ⟨lsn,hk ▸ hlsn⟩
  · cases hk

/-- A picked source head exists. -/
theorem pick_data {events sources : List (Option Nat)} (h : pick events sources=some (.data i)) :
    ∃ lsn, sources[i]?=some (some lsn) := by
  obtain ⟨⟨_,lsn⟩,hs,rfl⟩ := Option.map_eq_some_iff.mp h
  rcases scanHeads_some _ _ _ _ _ _ _ hs with hb|⟨k,hk,hlsn⟩
  · rcases scanHeads_some _ _ _ _ _ _ _ hb with hn|⟨_,hk,-⟩
    · cases hn
    · cases hk
  · simp only [zero_add,Pick.data.injEq] at hk
    exact ⟨lsn,hk ▸ hlsn⟩

/-- A queue with a head position is not empty. -/
theorem queueLsn_some {q : List (Nat×Ev)} (h : queueLsn q=some lsn) :
    ∃ ev rest, q=(lsn,ev)::rest := by
  cases q with
  | nil => simp [queueLsn] at h
  | cons x rest =>
    simp only [queueLsn,head?_cons,Option.map_some,Option.some.injEq] at h
    exact ⟨x.2,rest,by rw [←h]⟩

/-- An undelivered list with a head position starts with an entry. -/
theorem viewLsn_some {v : List (Except SpillError SpillEntry)} (h : viewLsn v=some lsn) :
    ∃ e rest, v=.ok e::rest := by
  cases v with
  | nil => simp [viewLsn] at h
  | cons x rest =>
    cases x with
    | error => simp [viewLsn] at h
    | ok e => exact ⟨e,rest,rfl⟩

/-- What the merge finds in front of it. -/
inductive Outlook (events : List (List (Nat×Ev)))
    (views : List (List (Except SpillError SpillEntry))) : Prop where
  | ended (h : pick (events.map queueLsn) (views.map viewLsn)=none)
  | event (i lsn : Nat) (ev : Ev) (rest : List (Nat×Ev))
      (h : pick (events.map queueLsn) (views.map viewLsn)=some (.event i))
      (hq : events[i]?=some ((lsn,ev)::rest))
  | failed (i : Nat) (e : SpillEntry) (x : SpillError) (rest : List (Except SpillError SpillEntry))
      (h : pick (events.map queueLsn) (views.map viewLsn)=some (.data i))
      (hv : views[i]?=some (.ok e::.error x::rest))
  | entry (i : Nat) (e : SpillEntry) (rest : List (Except SpillError SpillEntry))
      (h : pick (events.map queueLsn) (views.map viewLsn)=some (.data i))
      (hv : views[i]?=some (.ok e::rest)) (hr : ∀ x tail, rest≠.error x::tail)

/-- Every merge state has an outlook. -/
theorem outlook (events : List (List (Nat×Ev)))
    (views : List (List (Except SpillError SpillEntry))) : Outlook events views := by
  cases h : pick (events.map queueLsn) (views.map viewLsn) with
  | none => exact .ended h
  | some p =>
    cases p with
    | event i =>
      obtain ⟨lsn,hl⟩ := pick_event h
      obtain ⟨_,hq,hlsn⟩ := Option.map_eq_some_iff.mp (getElem?_map ▸ hl)
      obtain ⟨ev,rest,rfl⟩ := queueLsn_some hlsn
      exact .event i lsn ev rest h hq
    | data i =>
      obtain ⟨_,hl⟩ := pick_data h
      obtain ⟨_,hv,hlsn⟩ := Option.map_eq_some_iff.mp (getElem?_map ▸ hl)
      obtain ⟨e,rest,rfl⟩ := viewLsn_some hlsn
      by_cases hr : ∃ x tail, rest=.error x::tail
      · obtain ⟨x,tail,rfl⟩ := hr
        exact .failed i e x tail h hv
      · exact .entry i e rest h hv (fun x tail hx => hr ⟨x,tail,hx⟩)

variable (n : Nat)

theorem mergeOrder_ended (h : pick (events.map queueLsn) (views.map viewLsn)=none) :
    mergeOrder n events views=[] := by
  cases n with
  | zero => rfl
  | succ => simp only [mergeOrder,h]

theorem mergeOrder_event {ev : Ev} {rest : List (Nat×Ev)}
    (h : pick (events.map queueLsn) (views.map viewLsn)=some (.event i))
    (hq : events[i]?=some ((lsn,ev)::rest)) :
    mergeOrder (n+1) events views=.event ev::mergeOrder n (events.set i rest) views := by
  simp only [mergeOrder,h,hq]

/-- An entry in front of a failed read ends the merge order with the failure. -/
theorem mergeOrder_failed {e : SpillEntry} {x : SpillError}
    (h : pick (events.map queueLsn) (views.map viewLsn)=some (.data i))
    (hv : views[i]?=some (.ok e::.error x::rest)) :
    mergeOrder (n+1) events views=[.failed x] := by
  simp only [mergeOrder,h,hv]

/-- A picked entry leads the merge order. -/
theorem mergeOrder_entry {e : SpillEntry}
    (h : pick (events.map queueLsn) (views.map viewLsn)=some (.data i))
    (hv : views[i]?=some (.ok e::rest)) (hr : ∀ x tail, rest≠.error x::tail) :
    mergeOrder (n+1) events views=.entry e::mergeOrder n events (views.set i rest) := by
  cases rest with
  | nil => simp only [mergeOrder,h,hv]
  | cons r rest =>
    cases r with
    | error x => exact absurd rfl (hr x rest)
    | ok => simp only [mergeOrder,h,hv]

/-- Taking an event leaves one element less. -/
theorem unmerged_event (views : List (List (Except SpillError SpillEntry))) {ev : Ev}
    {rest : List (Nat×Ev)} (hq : events[i]?=some ((lsn,ev)::rest)) :
    unmerged (events.set i rest) views+1=unmerged events views := by
  have hs := sum_map_set length events i _ rest hq
  simp only [length_cons] at hs
  unfold unmerged
  omega

/-- Taking an entry leaves one element less. -/
theorem unmerged_entry (events : List (List (Nat×Ev))) {x : Except SpillError SpillEntry}
    (hv : views[i]?=some (x::rest)) :
    unmerged events (views.set i rest)+1=unmerged events views := by
  have hs := sum_map_set length views i _ rest hv
  simp only [length_cons] at hs
  unfold unmerged
  omega

/-- The merge order does not depend on a bound that covers what is left. -/
theorem mergeOrder_bound (n m : Nat) (events : List (List (Nat×Ev)))
    (views : List (List (Except SpillError SpillEntry))) (hn : unmerged events views≤n)
    (hm : unmerged events views ≤ m) : mergeOrder n events views=mergeOrder m events views := by
  induction n generalizing m events views with
  | zero =>
    cases outlook events views with
    | ended h => rw [mergeOrder_ended 0 h,mergeOrder_ended m h]
    | event _ _ _ _ _ hq => have := unmerged_event views hq; omega
    | failed i e x rest h hv | entry i e rest h hv hr => have := unmerged_entry events hv; omega
  | succ n ih =>
    cases outlook events views with
    | ended h => rw [mergeOrder_ended (n+1) h,mergeOrder_ended m h]
    | event _ _ _ _ h hq =>
      have hlt := unmerged_event views hq
      obtain ⟨m,rfl⟩ : ∃ k, m=k+1 := ⟨m-1,by omega⟩
      rw [mergeOrder_event n h hq,mergeOrder_event m h hq,ih m _ _ (by omega) (by omega)]
    | failed _ _ _ _ h hv =>
      have hlt := unmerged_entry events hv
      obtain ⟨m,rfl⟩ : ∃ k, m=k+1 := ⟨m-1,by omega⟩
      rw [mergeOrder_failed n h hv,mergeOrder_failed m h hv]
    | entry _ _ _ h hv hr =>
      have hlt := unmerged_entry events hv
      obtain ⟨m,rfl⟩ : ∃ k, m=k+1 := ⟨m-1,by omega⟩
      rw [mergeOrder_entry n h hv hr,mergeOrder_entry m h hv hr,ih m _ _ (by omega) (by omega)]

variable (d : MergedDrain Ev)

/-- The turns a merge may still take are its undelivered elements. -/
theorem remaining_eq : d.remaining=unmerged d.events (d.sources.map MergeSource.view) := by
  simp [MergedDrain.remaining,unmerged,Function.comp_def]

variable (s : MergeSource)

theorem headLsn_eq : s.headLsn=viewLsn s.view := by
  cases h : s.head with
  | none | some e => simp [MergeSource.headLsn,MergeSource.view,viewLsn,h]

/-- The pick of a drain depends on its undelivered contents only. -/
theorem pick_view :
    pick (d.events.map (fun q => q.head?.map Prod.fst)) (d.sources.map MergeSource.headLsn) =
      pick (d.events.map queueLsn) ((d.sources.map MergeSource.view).map viewLsn) := by
  simp only [map_map]
  congr 1
  exact map_congr_left (fun s _ => headLsn_eq s)

/-- Taking from memory gives the first in-memory entry. -/
theorem popMem_view (head : Option SpillEntry) (spill : SpillSide) (inMem : List SpillEntry)
    (hs : ∀ reads, spill≠.reading reads) (h : Option SpillEntry) (t : MergeSource)
    (hp : (MergeSource.mk head spill inMem).popMem=(h,t)) :
    {t with head := h}.view=inMem.map .ok := by
  cases inMem with
  | nil =>
    simp only [MergeSource.popMem,Prod.mk.injEq] at hp
    simp [←hp.1,MergeSource.view]
  | cons =>
    obtain ⟨rfl,rfl⟩ := hp
    cases spill with
    | reading reads => exact absurd rfl (hs reads)
    | unspilled | spent => simp [MergeSource.view,MergeSource.unread]

/-- Refilling a source delivers the first unread entry or fails with its read. -/
theorem nextEntry_view : (∃ x tail, s.unread=.error x::tail ∧ s.nextEntry=.error x) ∨
      (∀ x tail, s.unread≠.error x::tail) ∧
        ∃ h t, s.nextEntry=.ok (h,t) ∧ {t with head := h}.view=s.unread := by
  obtain ⟨head,spill,inMem⟩ := s
  have clean : ∀ (x : SpillError) tail, inMem.map Except.ok≠.error x::tail := by
    intro x tail
    cases inMem <;> simp
  cases spill with
  | unspilled =>
    refine .inr ⟨clean,_,_,rfl,?_⟩
    exact popMem_view head .unspilled inMem (by simp) _ _ rfl
  | spent =>
    refine .inr ⟨clean,_,_,rfl,?_⟩
    exact popMem_view head .spent inMem (by simp) _ _ rfl
  | reading reads =>
    cases reads with
    | nil =>
      refine .inr ⟨clean,_,_,rfl,?_⟩
      exact popMem_view head .spent inMem (by simp) _ _ rfl
    | cons r =>
      cases r with
      | error x => exact .inl ⟨x,_,rfl,rfl⟩
      | ok e => exact .inr ⟨by simp [MergeSource.unread],some e,_,rfl,rfl⟩

/-- Popping a source delivers its view's first entry, unless the read behind it
fails. -/
theorem pop_view (e : SpillEntry) (rest : List (Except SpillError SpillEntry))
    (h : s.view=.ok e::rest) :
    (∃ x tail, rest=.error x::tail ∧ s.pop=.error x) ∨
      (∀ x tail, rest≠.error x::tail) ∧ ∃ t, s.pop=.ok (some e,t) ∧ t.view=rest := by
  obtain ⟨head,spill,inMem⟩ := s
  cases head with
  | none => simp [MergeSource.view] at h
  | some =>
    obtain ⟨rfl,rfl⟩ := h
    rcases nextEntry_view ⟨none,spill,inMem⟩ with ⟨x,tail,hx,hn⟩|⟨hc,_,_,hn,ht⟩
    · exact .inl ⟨x,tail,hx,by simp only [MergeSource.pop,hn]; rfl⟩
    · exact .inr ⟨hc,_,by simp only [MergeSource.pop,hn]; rfl,ht⟩

theorem openMem_view (inMem : List SpillEntry) :
    (MergeSource.openMem inMem).view=inMem.map .ok := by
  cases inMem with
  | nil | cons e rest => rfl

/-- Opening a spilled source shows the file's reads and then the tail, or fails
with the first read. -/
theorem openSpilled_view (reads : List (Except SpillError SpillEntry)) (inMem : List SpillEntry) :
    (∃ x tail, reads=.error x::tail ∧ MergeSource.openSpilled reads inMem=.error x) ∨
      ∃ s, MergeSource.openSpilled reads inMem=.ok s ∧ s.view=reads++inMem.map .ok := by
  rcases nextEntry_view ⟨none,.reading reads,inMem⟩ with ⟨x,_,hx,hn⟩|⟨-,_,_,hn,ht⟩
  · cases reads with
    | nil => cases inMem <;> simp [MergeSource.unread] at hx
    | cons _ reads =>
      simp only [MergeSource.unread,cons_append,cons.injEq] at hx
      exact .inl ⟨x,reads,by rw [hx.1],by simp only [MergeSource.openSpilled,hn]; rfl⟩
  · exact .inr ⟨_,by simp only [MergeSource.openSpilled,hn]; rfl,ht⟩

/-- Events a drain has not taken. -/
def eventCount (d : MergedDrain Ev) : Nat := (d.events.map List.length).sum

/-- Entry weights of the undelivered sources. -/
def sourceWeight (d : MergedDrain Ev) : Nat :=
  (d.sources.map (fun s => (s.view.map (entryWeight d.cfg)).sum)).sum

/-- One element taken off a drain with nothing queued. -/
structure Advanced (d d' : MergedDrain Ev) (es : List (Element Ev)) : Prop where
  /-- The rest of the merge order is left. -/
  elements_eq : elements d'=es
  pending_eq : d'.pendingHeaps=[]
  fold_eq : d'.fold=d.fold
  cfg_eq : d'.cfg=d.cfg
  remaining_lt : d'.remaining<d.remaining

/-- What one turn does, by the merge order in front of it. -/
inductive TurnCase (d : MergedDrain Ev) : Prop where
  | queued (h : DescribedHeap) (rest : List DescribedHeap) (hp : d.pendingHeaps=h::rest)
      (ht : d.turn=(checkOwned d.cfg h).map
        (fun _ => (.item (.heap h),{d with pendingHeaps := rest})))
  | ended (hp : d.pendingHeaps=[]) (he : elements d=[]) (ht : d.turn=.ok (.done,d))
      (hx : d.isExhausted=true)
  | event (ev : Ev) (es : List (Element Ev)) (d' : MergedDrain Ev) (hp : d.pendingHeaps=[])
      (he : elements d=.event ev::es) (ht : d.turn=.ok (.item (.event ev),d'))
      (ha : Advanced d d' es) (hc : eventCount d'+1=eventCount d)
      (hw : sourceWeight d'=sourceWeight d)
  | failed (x : SpillError) (hp : d.pendingHeaps=[]) (he : elements d=[.failed x])
      (ht : d.turn=.error (.spill x))
  | entry (e : SpillEntry) (es : List (Element Ev)) (d' : MergedDrain Ev) (hp : d.pendingHeaps=[])
      (he : elements d=.entry e::es) (ht : d.turn=d'.absorb e) (ha : Advanced d d' es)
      (hc : eventCount d'=eventCount d)
      (hw : sourceWeight d'+entryWeight d.cfg (.ok e)=sourceWeight d)

/-- Any bound that covers what is left gives the merge order of a drain. -/
theorem elements_eq (n : Nat) (h : d.remaining≤n) :
    elements d=mergeOrder n d.events (d.sources.map MergeSource.view) := by
  rw [remaining_eq] at h
  exact mergeOrder_bound _ _ _ _ (le_of_eq (remaining_eq d).symm) h

/-- No head in front is exactly the exhaustion test. -/
theorem isExhausted_iff_pick : d.isExhausted=true ↔
      pick (d.events.map queueLsn) ((d.sources.map MergeSource.view).map viewLsn)=none := by
  have hview : ∀ s : MergeSource, viewLsn s.view=none ↔ s.head=none := by
    intro s
    rw [←headLsn_eq,MergeSource.headLsn,Option.map_eq_none_iff]
  have hqueue : ∀ q : List (Nat×Ev), queueLsn q=none ↔ q=[] := by
    intro q
    simp [queueLsn]
  simp only [MergedDrain.isExhausted,pick_none,Bool.and_eq_true,all_eq_true,
    Option.isNone_iff_eq_none,List.isEmpty_iff,forall_mem_map,hview,hqueue]
  exact And.comm

/-- The inversion of a turn: the loop follows the merge order. -/
theorem turn_cases : TurnCase d := by
  cases hp : d.pendingHeaps with
  | cons h rest => exact .queued h rest hp (by simp only [MergedDrain.turn,hp])
  | nil =>
    have hrem := remaining_eq d
    cases outlook d.events (d.sources.map MergeSource.view) with
    | ended h =>
      exact .ended hp (mergeOrder_ended _ h) (by simp only [MergedDrain.turn,hp,pick_view,h])
        ((isExhausted_iff_pick d).mpr h)
    | event i _ ev rest h hq =>
      have hlt := unmerged_event (d.sources.map MergeSource.view) hq
      have hc := sum_map_set length d.events i _ rest hq
      simp only [length_cons] at hc
      let d' : MergedDrain Ev := {d with events := d.events.set i rest}
      have hrem' : d'.remaining=unmerged (d.events.set i rest) (d.sources.map MergeSource.view) :=
        remaining_eq d'
      have he : elements d=.event ev::elements d' := by
        rw [elements_eq d (d.remaining-1+1) (by omega),mergeOrder_event _ h hq,
          elements_eq d' (d.remaining-1) (by omega)]
      have hcount : eventCount d'+1=eventCount d := by
        change ((d.events.set i rest).map length).sum+1=(d.events.map length).sum
        omega
      exact .event ev _ d' hp he (by simp only [MergedDrain.turn,hp,pick_view,h,hq,d'])
        ⟨rfl,hp,rfl,rfl,by omega⟩ hcount rfl
    | failed _ e x rest h hv =>
      obtain ⟨s,hs,hsv⟩ := Option.map_eq_some_iff.mp (getElem?_map ▸ hv)
      have he : elements d=[.failed x] := by
        rw [elements_eq d (d.remaining-1+1) (by omega),mergeOrder_failed _ h hv]
      rcases pop_view s e _ hsv with ⟨_,_,hy,hpop⟩|⟨hclean,-⟩
      · obtain ⟨hxy,-⟩ := cons.inj hy
        refine .failed x hp he ?_
        simp only [MergedDrain.turn,hp,pick_view,h,hs,hpop,Except.error.inj hxy]
      · exact absurd rfl (hclean x rest)
    | entry i e rest h hv hr =>
      have hlt := unmerged_entry d.events hv
      obtain ⟨s,hs,hsv⟩ := Option.map_eq_some_iff.mp (getElem?_map ▸ hv)
      rcases pop_view s e _ hsv with ⟨y,tail,hy,-⟩|⟨-,t,hpop,htv⟩
      · exact absurd hy (hr y tail)
      · let d' : MergedDrain Ev := {d with sources := d.sources.set i t}
        have hviews : d'.sources.map MergeSource.view=(d.sources.map MergeSource.view).set i rest := by
          simp only [d',map_set,htv]
        have hrem' : d'.remaining=unmerged d.events ((d.sources.map MergeSource.view).set i rest) := by
          rw [remaining_eq,hviews]
        have he : elements d=.entry e::elements d' := by
          rw [elements_eq d (d.remaining-1+1) (by omega),mergeOrder_entry _ h hv hr,
            elements_eq d' (d.remaining-1) (by omega),hviews]
        have hw := sum_map_set (fun s => (s.view.map (entryWeight d.cfg)).sum) d.sources i s t hs
        simp only [hsv,htv,map_cons,sum_cons] at hw
        have hweight : sourceWeight d'+entryWeight d.cfg (.ok e)=sourceWeight d := by
          change ((d.sources.set i t).map (fun s => (s.view.map (entryWeight d.cfg)).sum)).sum+_ =
            (d.sources.map (fun s => (s.view.map (entryWeight d.cfg)).sum)).sum
          omega
        exact .entry e _ d' hp he (by simp only [MergedDrain.turn,hp,pick_view,h,hs,hpop,d'])
          ⟨rfl,hp,rfl,rfl,by omega⟩ rfl hweight

end Walshadow.DrainMerge
