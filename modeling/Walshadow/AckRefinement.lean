import Walshadow.AckCollector

/-!
# The ack collector against its full history

A model that forgets nothing: every seq ever registered with its counts, every
seq that ever faulted, and the trailing positions taken while idle. The position
it justifies is the highest commit of the contiguous prefix of finished,
unfaulted seqs. The bounded collector is shown to publish what this history says
as long as faults stay visible in the counts, which is all the collector keeps
of them.
-/

namespace Walshadow.AckRefinement

open AckCollector List

/-- Everything that ever happened to the collector. -/
structure History where
  /-- Every registered seq, in order. -/
  seqs : List Seq
  faulted : List Nat
  trailing : Nat
  /-- Restored durable position. -/
  start : Nat
  /-- Highest trailing position taken while every seq was finished. -/
  idle : Nat

/-- Empty history over a restored durable position. -/
def History.new (start : Nat) : History := ⟨[],[],0,start,0⟩

/-- A seq is registered and all its rows are acked. -/
def History.complete (h : History) (i : Nat) : Bool := h.seqs[i]?.any (fun q => q.progress.isDone)

/-- Leading complete and unfaulted seqs, counted from index `i`. -/
def leading (faulted : List Nat) : Nat→List Seq→Nat
  | _,[] => 0
  | i,q::qs => if q.progress.isDone ∧ i∉faulted then leading faulted (i+1) qs+1 else 0

/-- Length of the contiguous prefix of complete and unfaulted seqs. -/
def History.frontier (h : History) : Nat := leading h.faulted 0 h.seqs

/-- Highest position the given seqs publish. -/
def publishedMax : List Seq→Nat
  | [] => 0
  | q::qs => if q.publish then max q.commitLsn (publishedMax qs) else publishedMax qs

/-- Position the history justifies: the restored one, the highest commit of the
finished prefix, and what idle advances added. -/
def History.ack (h : History) : Nat :=
  max (max h.start (publishedMax (h.seqs.take h.frontier))) h.idle

/-- Remember a fault. -/
def History.fault (h : History) (i : Nat) : History := {h with faulted := i::h.faulted}

/-- Move one seq's counts. Events for seqs of the finished prefix are late and
change nothing. -/
def History.move (h : History) (i : Nat) (f : Progress→Except SeqFault Progress) : History :=
  if i<h.frontier then h
  else
    match h.seqs[i]? with
    | none => h.fault i
    | some q =>
      match f q.progress with
      | .ok p => {h with seqs := h.seqs.set i {q with progress := p}}
      | .error _ => h.fault i

/-- One elementary step of the history. -/
def History.stepPiece (h : History) : Piece→History
  | .register i commitLsn publish =>
    if i=h.seqs.length then {h with seqs := h.seqs++[⟨commitLsn,publish,.default⟩]}
    else h.fault i
  | .placed i rows => h.move i (fun p => p.place rows)
  | .acked i n => h.move i (fun p => p.ack n)
  | .trailing lsn => {h with trailing := max h.trailing lsn}

/-- After an event an idle history takes the trailing position. -/
def History.settle (h : History) : History :=
  if h.frontier=h.seqs.length then {h with idle := max h.idle h.trailing} else h

/-- One event of the history. -/
def History.apply (h : History) (ev : AckEvent) : History :=
  ((pieces ev).foldl History.stepPiece h).settle

/-- The history after a run of events. -/
def History.run (h : History) (evs : List AckEvent) : History := evs.foldl History.apply h

/-- A movement that shows in the counts: a fault hits an incomplete seq, and a
faulted seq is not completed afterwards. -/
def MoveOk (h : History) (i : Nat) (f : Progress→Except SeqFault Progress) : Prop :=
  i<h.frontier ∨
    match h.seqs[i]? with
    | none => True
    | some q =>
      match f q.progress with
      | .ok p => i∈h.faulted→p.isDone=false
      | .error _ => q.progress.isDone=false

instance (h : History) (i : Nat) (f : Progress→Except SeqFault Progress) :
    Decidable (MoveOk h i f) := by
  unfold MoveOk
  cases h.seqs[i]? with
  | none => infer_instance
  | some q =>
    dsimp only
    cases f q.progress <;> infer_instance

/-- An elementary step in order whose faults show in the counts. -/
def PieceOk (h : History) : Piece→Prop
  | .register i _ _ => i=h.seqs.length ∨ i<h.seqs.length ∧ h.complete i=false
  | .placed i rows => MoveOk h i (fun p => p.place rows)
  | .acked i n => MoveOk h i (fun p => p.ack n)
  | .trailing _ => True

instance (h : History) (p : Piece) : Decidable (PieceOk h p) := by
  cases p <;> unfold PieceOk <;> infer_instance

/-- Every elementary step of a list is in order and visible. -/
def PiecesOk (h : History) : List Piece→Prop
  | [] => True
  | p::ps => PieceOk h p ∧ PiecesOk (h.stepPiece p) ps

/-- Every event of a run is in order and visible. -/
def RunOk (h : History) : List AckEvent→Prop
  | [] => True
  | ev::evs => PiecesOk h (pieces ev) ∧ RunOk (h.apply ev) evs

/-- Membership in the leading prefix, index by index. -/
theorem le_leading_iff (faulted : List Nat) (i n : Nat) (qs : List Seq) :
    n≤leading faulted i qs ↔
      ∀ j<n,qs[j]?.any (fun q => q.progress.isDone)=true ∧ i+j∉faulted := by
  induction qs generalizing i n with
  | nil =>
    rw [leading]
    constructor
    · intro hn j hj
      omega
    · intro hall
      by_cases hn : 0<n
      · have hbad := (hall 0 hn).1
        simp at hbad
      · omega
  | cons _ _ ih =>
    rw [leading]
    cases n with
    | zero => simp
    | succ =>
      have hshift (j : Nat) : i+1+j=i+(j+1) := by omega
      split
      case isTrue hq =>
        rw [Nat.add_le_add_iff_right,ih]
        constructor
        · intro hall j hj
          cases j with
          | zero => simpa using hq
          | succ j =>
            have hj' := hall j (by omega)
            rw [hshift] at hj'
            simpa using hj'
        · intro hall j hj
          have hj' := hall (j+1) (by omega)
          rw [hshift]
          simpa using hj'
      case isFalse hq =>
        constructor
        · intro hn
          omega
        · intro hall
          have hzero := hall 0 (by omega)
          exact absurd (by simpa using hzero) hq

theorem le_frontier_iff (h : History) (n : Nat) :
    n≤h.frontier ↔ ∀ j<n,h.complete j=true ∧ j∉h.faulted := by
  have hlead := le_leading_iff h.faulted 0 n h.seqs
  simp only [zero_add] at hlead
  exact hlead

variable {h : History} {i : Nat} {q : Seq} {s : AckState}

theorem complete_of_lt_frontier (hi : i<h.frontier) : h.complete i=true ∧ i∉h.faulted :=
  (le_frontier_iff h h.frontier).mp (le_rfl) i hi

theorem lt_length_of_complete (hi : h.complete i=true) : i<h.seqs.length := by
  by_contra hge
  have hnone : h.seqs[i]?=none := getElem?_eq_none (by omega)
  rw [History.complete,hnone] at hi
  exact Bool.noConfusion hi

theorem frontier_le_length (h : History) : h.frontier≤h.seqs.length := by
  by_contra hlt
  have hc := complete_of_lt_frontier (Nat.lt_of_not_le hlt)
  have hl := lt_length_of_complete hc.1
  omega

/-- Histories that agree below the prefix keep it. -/
theorem frontier_le_of_agree {h' : History} (hc : ∀ j<h.frontier,h'.complete j=h.complete j)
    (hf : ∀ j<h.frontier,j∉h'.faulted) : h.frontier≤h'.frontier := by
  rw [le_frontier_iff]
  intro j hj
  rw [hc j hj]
  exact ⟨(complete_of_lt_frontier hj).1,hf j hj⟩

/-- The published maximum after one more seq. -/
theorem publishedMax_append (qs : List Seq) (q : Seq) :
    publishedMax (qs++[q]) =
      if q.publish then max (publishedMax qs) q.commitLsn else publishedMax qs := by
  induction qs with
  | nil =>
    simp only [nil_append,publishedMax]
    split
    · omega
    · rfl
  | cons _ _ ih =>
    simp only [cons_append,publishedMax,ih]
    split <;> split <;> omega

/-- The published maximum of a longer prefix. -/
theorem publishedMax_take_succ {qs : List Seq} {n : Nat} (hq : qs[n]?=some q) :
    publishedMax (qs.take (n+1))=if q.publish then max (publishedMax (qs.take n)) q.commitLsn
      else publishedMax (qs.take n) := by
  have htake : qs.take (n+1)=qs.take n++[q] := by
    rw [take_add_one,hq]
    rfl
  rw [htake,publishedMax_append]

/-- The published maximum bounds every publishing seq. -/
theorem le_publishedMax {qs : List Seq} (hq : q∈qs) (hp : q.publish=true) :
    q.commitLsn≤publishedMax qs := by
  induction qs with
  | nil => cases hq
  | cons _ _ ih =>
    rw [publishedMax]
    rcases mem_cons.mp hq with rfl | hmem
    · rw [if_pos hp]
      exact le_max_left _ _
    · have htail := ih hmem
      split <;> omega

/-- The bounded state agrees with the history on everything it still keeps. -/
structure Tracks (s : AckState) (h : History) : Prop where
  /-- Every registered seq was counted. -/
  registered_eq : s.registered=h.seqs.length
  /-- Only the finished prefix was retired. -/
  frontier_le : s.frontier≤h.frontier
  /-- Open seqs carry their counts. -/
  map_live : ∀ i,s.frontier ≤ i→s.map i=h.seqs[i]?
  /-- Retired seqs are gone. -/
  map_retired : ∀ i<s.frontier,s.map i=none
  /-- The watermark is what the retired seqs publish. -/
  watermark_eq : s.watermark=publishedMax (h.seqs.take s.frontier)
  trailing_eq : s.trailing=h.trailing
  /-- Above the watermark the published position agrees. -/
  ack_eq : max s.emitterAck s.watermark=max (max h.start s.watermark) h.idle
  /-- Faults show in the counts. -/
  faulted_incomplete : ∀ i∈h.faulted,h.complete i=false

/-- A fault on an incomplete seq is tracked by counting it. -/
theorem Tracks.fault (ht : Tracks s h) (hi : h.complete i=false) (what : String) :
    Tracks (s.wedge i what) (h.fault i) := by
  have hkeep : h.frontier≤(h.fault i).frontier := by
    refine frontier_le_of_agree (fun j _ => rfl) (fun j hj hmem => ?_)
    have hj' := complete_of_lt_frontier hj
    rcases mem_cons.mp hmem with rfl | hold
    · rw [hi] at hj'
      exact Bool.noConfusion hj'.1
    · exact hj'.2 hold
  refine ⟨ht.registered_eq,le_trans ht.frontier_le hkeep,ht.map_live,ht.map_retired,
    ht.watermark_eq,ht.trailing_eq,ht.ack_eq,fun j hj => ?_⟩
  rcases mem_cons.mp hj with rfl | hold
  · exact hi
  · exact ht.faulted_incomplete j hold

/-- An entry above the frontier is written in both states. -/
theorem Tracks.write {seqs : List Seq} {v : Seq} {n : Nat} (ht : Tracks s h)
    (hi : h.frontier ≤ i) (hn : n=seqs.length) (hother : ∀ j≠i,seqs[j]?=h.seqs[j]?)
    (hsame : seqs[i]?=some v) (hv : i∈h.faulted→v.progress.isDone=false) :
    Tracks {s.setSeq i (some v) with registered := n} {h with seqs := seqs} := by
  have hfront := ht.frontier_le
  constructor
  case registered_eq => exact hn
  case frontier_le =>
    refine le_trans hfront (frontier_le_of_agree (fun j hj => ?_) (fun j hj => ?_))
    · rw [History.complete,hother j (by omega)]
      rfl
    · exact (complete_of_lt_frontier hj).2
  case map_live =>
    intro j hj
    by_cases hji : j=i
    · subst hji
      rw [hsame]
      exact if_pos rfl
    · rw [hother j hji]
      exact (if_neg hji).trans (ht.map_live j hj)
  case map_retired =>
    intro j hj
    have hji : j≠i := by
      have hj' : j<s.frontier := hj
      omega
    exact (if_neg hji).trans (ht.map_retired j hj)
  case watermark_eq =>
    have htake : seqs.take s.frontier=h.seqs.take s.frontier := by
      refine ext_getElem? fun j => ?_
      rw [getElem?_take,getElem?_take]
      split_ifs with hj
      · exact hother j (by omega)
      · rfl
    exact ht.watermark_eq.trans (congrArg publishedMax htake.symm)
  case trailing_eq => exact ht.trailing_eq
  case ack_eq => exact ht.ack_eq
  case faulted_incomplete =>
    intro j hj
    by_cases hji : j=i
    · subst hji
      rw [History.complete,hsame]
      exact hv hj
    · rw [History.complete,hother j hji]
      exact ht.faulted_incomplete j hj

/-- New counts of an open seq are tracked in both states. -/
theorem Tracks.set (ht : Tracks s h) (hi : h.frontier ≤ i) (hq : h.seqs[i]?=some q) (p : Progress)
    (hp : i∈h.faulted→p.isDone=false) :
    Tracks (s.setSeq i (some {q with progress := p}))
      {h with seqs := h.seqs.set i {q with progress := p}} := by
  have hlen : i<h.seqs.length := (List.getElem?_eq_some_iff.mp hq).1
  exact ht.write hi (ht.registered_eq.trans length_set.symm)
    (fun j hj => getElem?_set_ne (Ne.symm hj)) (getElem?_set_self hlen) hp

/-- A movement that cannot change finished counts. -/
def Frozen (f : Progress→Except SeqFault Progress) : Prop :=
  ∀ p p',p.isDone=true→f p=.ok p'→p'=p

theorem place_frozen (rows : Nat) : Frozen (fun p => p.place rows) := by
  intro p p' hdone hp
  have hrows : p.rows=some p.acked := by simpa [Progress.isDone] using hdone
  simp [Progress.place,hrows] at hp

/-- Acking finished counts either faults or adds nothing. -/
theorem ack_frozen (n : Nat) : Frozen (fun p => p.ack n) := by
  intro p p' hdone hp
  have hrows : p.rows=some p.acked := by simpa [Progress.isDone] using hdone
  by_cases hn : n=0
  · subst hn
    have hfits : ¬p.rows.any (fun rows => rows<p.acked+0)=true := by
      rw [hrows]
      simp
    have hsame : p.ack 0=.ok p := if_neg hfits
    exact (Except.ok.inj (hsame.symm.trans hp)).symm
  · have hpast : p.acked<p.acked+n := by omega
    simp [Progress.ack,hrows,hpast] at hp

/-- Writing back an entry changes nothing. -/
theorem setSeq_self {v : Option Seq} (hv : s.map i=v) : s.setSeq i v=s := by
  have hmap : (fun k => if k=i then v else s.map k)=s.map := by
    funext k
    by_cases hk : k=i
    · rw [if_pos hk,hk,hv]
    · exact if_neg hk
  rw [AckState.setSeq,hmap]

section

variable (ht : Tracks s h)

include ht

/-- A fault report touches nothing the history tracks. -/
theorem Tracks.wedge (i : Nat) (what : String) : Tracks (s.wedge i what) h :=
  ⟨ht.registered_eq,ht.frontier_le,ht.map_live,ht.map_retired,ht.watermark_eq,ht.trailing_eq,
    ht.ack_eq,ht.faulted_incomplete⟩

variable {f : Progress→Except SeqFault Progress}

/-- An event for a seq of the finished prefix changes nothing tracked. -/
theorem Tracks.late (hi : i<h.frontier) (hf : Frozen f) : Tracks (s.step i f) h := by
  by_cases hret : i<s.frontier
  · rw [AckState.step,ht.map_retired i hret]
    rw [AckState.absent,if_pos hret]
    exact ⟨ht.registered_eq,ht.frontier_le,ht.map_live,ht.map_retired,ht.watermark_eq,
      ht.trailing_eq,ht.ack_eq,ht.faulted_incomplete⟩
  · have hmap := ht.map_live i (by omega)
    have hdone := (complete_of_lt_frontier hi).1
    rw [History.complete] at hdone
    cases hq : h.seqs[i]? with
    | none =>
      rw [hq] at hdone
      exact Bool.noConfusion hdone
    | some q =>
      rw [hq] at hdone hmap
      rw [AckState.step,hmap]
      dsimp only
      cases hp : f q.progress with
      | ok p =>
        have hsame : p=q.progress := hf q.progress p hdone hp
        subst hsame
        have hself : s.setSeq i (some q)=s := setSeq_self hmap
        change Tracks (s.setSeq i (some q)) h
        rw [hself]
        exact ht
      | error => exact ht.wedge i _

/-- A visible movement is tracked. -/
theorem Tracks.move (hf : Frozen f) (hok : MoveOk h i f) : Tracks (s.step i f) (h.move i f) := by
  rw [History.move]
  split_ifs with hi
  · exact ht.late hi hf
  · have hfront := ht.frontier_le
    have hmap := ht.map_live i (by omega)
    replace hok := hok.resolve_left hi
    cases hq : h.seqs[i]? with
    | none =>
      rw [hq] at hmap
      have hincomplete : h.complete i=false := by rw [History.complete,hq]; rfl
      rw [AckState.step,hmap]
      rw [AckState.absent,if_neg (by omega)]
      exact ht.fault hincomplete _
    | some q =>
      rw [hq] at hmap hok
      dsimp only at hok
      rw [AckState.step,hmap]
      dsimp only
      cases hp : f q.progress with
      | ok p =>
        rw [hp] at hok
        exact ht.set (by omega) hq p hok
      | error =>
        rw [hp] at hok
        have hincomplete : h.complete i=false := by rw [History.complete,hq]; exact hok
        exact ht.fault hincomplete _

/-- The next seq is new to the collector. -/
theorem Tracks.unopened :
    ¬(h.seqs.length<s.frontier ∨ (s.map h.seqs.length).isSome=true) := by
  have hfront := ht.frontier_le
  have hlen := frontier_le_length h
  rw [ht.map_live _ (by omega),getElem?_eq_none le_rfl]
  simp
  omega

/-- A registration in order opens the next seq in both states. -/
theorem Tracks.openNext (commitLsn : Nat) (publish : Bool) :
    Tracks (s.openSeq h.seqs.length commitLsn publish)
      {h with seqs := h.seqs++[⟨commitLsn,publish,.default⟩]} := by
  have hlen := frontier_le_length h
  have hreg := ht.registered_eq
  rw [AckState.openSeq,if_neg ht.unopened]
  refine ht.write hlen ?_ (fun j hj => ?_) getElem?_concat_length (fun _ => rfl)
  · simp only [length_append,length_cons,length_nil]
    omega
  · rw [getElem?_append]
    split
    · rfl
    · rw [getElem?_eq_none (by simp; omega),getElem?_eq_none (by omega)]

/-- Every visible elementary step is tracked. -/
theorem Tracks.stepPiece {p : Piece} (hok : PieceOk h p) :
    Tracks (s.stepPiece p) (h.stepPiece p) := by
  cases p with
  | register i commitLsn publish =>
    rw [AckState.stepPiece,History.stepPiece]
    rcases hok with rfl | ⟨hlt,hincomplete⟩
    · rw [if_pos rfl]
      exact ht.openNext commitLsn publish
    · have hfront := ht.frontier_le
      have hopen : ¬i<h.frontier := by
        intro hi
        have hdone := (complete_of_lt_frontier hi).1
        rw [hincomplete] at hdone
        exact Bool.noConfusion hdone
      have hlive : (s.map i).isSome=true := by
        rw [ht.map_live i (by omega),getElem?_eq_getElem hlt]
        rfl
      rw [if_neg (by omega),AckState.openSeq,if_pos (.inr hlive)]
      exact ht.fault hincomplete _
  | placed _ rows => exact ht.move (place_frozen rows) hok
  | acked _ n => exact ht.move (ack_frozen n) hok
  | trailing lsn =>
    exact ⟨ht.registered_eq,ht.frontier_le,ht.map_live,ht.map_retired,ht.watermark_eq,
      congrArg (fun x => max x lsn) ht.trailing_eq,ht.ack_eq,ht.faulted_incomplete⟩

theorem Tracks.foldl {ps : List Piece} (hok : PiecesOk h ps) :
    Tracks (ps.foldl AckState.stepPiece s) (ps.foldl History.stepPiece h) := by
  induction ps generalizing s h with
  | nil => exact ht
  | cons _ _ ih => exact ih (ht.stepPiece hok.1) hok.2

/-- Retiring one finished seq is tracked. -/
theorem Tracks.retireOne (hlt : s.frontier<h.frontier) (hq : h.seqs[s.frontier]?=some q) :
    Tracks {s.setSeq s.frontier none with
      watermark := if q.publish then max s.watermark q.commitLsn else s.watermark
      frontier := s.frontier+1} h := by
  constructor
  case registered_eq => exact ht.registered_eq
  case frontier_le => exact hlt
  case map_live =>
    intro i hi
    have hi' : s.frontier+1 ≤ i := hi
    have hne : i≠s.frontier := by omega
    exact (if_neg hne).trans (ht.map_live i (by omega))
  case map_retired =>
    intro i hi
    have hi' : i<s.frontier+1 := hi
    by_cases hie : i=s.frontier
    · exact if_pos hie
    · exact (if_neg hie).trans (ht.map_retired i (by omega))
  case watermark_eq =>
    rw [publishedMax_take_succ hq,ht.watermark_eq]
  case trailing_eq => exact ht.trailing_eq
  case ack_eq =>
    have hack := ht.ack_eq
    dsimp only [AckState.setSeq]
    split <;> omega
  case faulted_incomplete => exact ht.faulted_incomplete

/-- Retiring with enough fuel reaches the end of the finished prefix. -/
theorem Tracks.retire (n : Nat) (hn : h.frontier-s.frontier≤n) :
    Tracks (AckState.retire n s) h ∧ (AckState.retire n s).frontier=h.frontier ∧
      (AckState.retire n s).frontierCell=s.frontierCell := by
  have hfront := ht.frontier_le
  induction n generalizing s with
  | zero => exact ⟨ht,by rw [AckState.retire]; omega,rfl⟩
  | succ n ih =>
    have hmap := ht.map_live s.frontier (le_rfl)
    rw [AckState.retire,hmap]
    cases hq : h.seqs[s.frontier]? with
    | none =>
      have hend : ¬s.frontier<h.frontier := by
        intro hlt
        have hdone := (complete_of_lt_frontier hlt).1
        rw [History.complete,hq] at hdone
        exact Bool.noConfusion hdone
      exact ⟨ht,by dsimp only; omega,rfl⟩
    | some =>
      dsimp only
      split
      case isTrue hdone =>
        have hcomplete : h.complete s.frontier=true := by
          rw [History.complete,hq]
          exact hdone
        have hsound : s.frontier∉h.faulted := by
          intro hmem
          rw [ht.faulted_incomplete _ hmem] at hcomplete
          exact Bool.noConfusion hcomplete
        have hlt : s.frontier<h.frontier := by
          rw [←Nat.succ_le_iff,le_frontier_iff]
          intro j hj
          by_cases hje : j=s.frontier
          · rw [hje]
            exact ⟨hcomplete,hsound⟩
          · exact complete_of_lt_frontier (by omega)
        have hfuel : h.frontier-(s.frontier+1)≤n := by omega
        exact ih (ht.retireOne hlt hq) hfuel hlt
      case isFalse hopen =>
        have hend : ¬s.frontier<h.frontier := by
          intro hlt
          have hdone := (complete_of_lt_frontier hlt).1
          rw [History.complete,hq] at hdone
          exact hopen hdone
        exact ⟨ht,by omega,rfl⟩

end

theorem settle_eq (h : History) :
    h.settle={h with
      idle := if h.frontier=h.seqs.length then max h.idle h.trailing else h.idle} := by
  rw [History.settle]
  split <;> rfl

/-- What a published state says about its history. -/
structure Published (s : AckState) (h : History) : Prop extends Tracks s h where
  /-- The whole finished prefix is retired. -/
  frontier_eq : s.frontier=h.frontier
  /-- The published position is the one the history justifies. -/
  emitterAck_eq : s.emitterAck=h.ack
  /-- The published frontier is the collector's. -/
  cell_eq : s.frontierCell=s.frontier

/-- Publishing after tracked steps reports exactly what the history justifies. -/
theorem Tracks.publish (ht : Tracks s h) (hcell : s.frontierCell≤h.frontier) :
    Published s.publish h.settle := by
  have hreg := ht.registered_eq
  have hlen := frontier_le_length h
  obtain ⟨hr,hfront,_⟩ := ht.retire (s.registered-s.frontier) (by omega)
  have hack := hr.ack_eq
  have hwater := hr.watermark_eq
  have htrail := hr.trailing_eq
  have hdone : ((AckState.retire (s.registered-s.frontier) s).allDone=true) =
      (h.frontier=h.seqs.length) := by
    rw [AckState.allDone,hfront,hr.registered_eq]
    simp
  have hpub : s.publish.emitterAck =
      max (max h.start s.publish.watermark)
        (if h.frontier=h.seqs.length then max h.idle h.trailing else h.idle) := by
    rw [AckState.publish]
    simp only [hdone]
    split <;> omega
  rw [settle_eq]
  constructor
  case toTracks =>
    refine ⟨hr.registered_eq,hr.frontier_le,hr.map_live,hr.map_retired,hwater,htrail,?_,
      hr.faulted_incomplete⟩
    dsimp only
    omega
  case frontier_eq => exact hfront
  case emitterAck_eq =>
    rw [hfront] at hwater
    rw [hpub]
    exact congrArg (fun w => max (max h.start w) _) hwater
  case cell_eq =>
    rw [AckState.publish]
    dsimp only
    omega

/-- A new collector is published over the empty history. -/
theorem published_new (start : Nat) : Published (AckState.new start) (History.new start) := by
  refine ⟨⟨rfl,le_rfl,fun i _ => rfl,fun i _ => rfl,rfl,rfl,?_,?_⟩,rfl,?_,rfl⟩
  · simp [AckState.new,History.new]
  · intro i hi
    cases hi
  · simp [AckState.new,History.ack,History.new,publishedMax]

/-- A visible event keeps a published state published. -/
theorem Published.apply (hp : Published s h) {ev : AckEvent} (hok : PiecesOk h (pieces ev)) :
    Published (s.apply ev) (h.apply ev) := by
  have htrack := hp.toTracks.foldl hok
  obtain ⟨-,_,_⟩ := foldl_stepPiece_frame s (pieces ev)
  have hle := htrack.frontier_le
  have hcell' := hp.cell_eq
  rw [AckState.apply,stepEvent_pieces]
  exact htrack.publish (by omega)

/-- A visible run keeps a published state published. -/
theorem Published.run (hp : Published s h) {evs : List AckEvent} (hok : RunOk h evs) :
    Published (s.run evs) (h.run evs) := by
  induction evs generalizing s h with
  | nil => exact hp
  | cons _ _ ih => exact ih (hp.apply hok.1) hok.2

/-- A visible run is visible up to any event. -/
theorem runOk_append {evs more : List AckEvent} (hok : RunOk h (evs++more)) :
    RunOk h evs ∧ RunOk (h.run evs) more := by
  induction evs generalizing h with
  | nil => exact ⟨trivial,hok⟩
  | cons _ _ ih =>
    obtain ⟨hev,hrest⟩ := hok
    obtain ⟨hevs,hmore⟩ := ih hrest
    exact ⟨⟨hev,hevs⟩,hmore⟩

/-- What an elementary step can do. -/
theorem stepPiece_cases (h : History) (p : Piece) :
    (∃ i, h.stepPiece p=h.fault i) ∨ (∃ seqs, h.stepPiece p={h with seqs := seqs}) ∨
      ∃ lsn, p=.trailing lsn ∧ h.stepPiece p={h with trailing := max h.trailing lsn} := by
  have hmove (i : Nat) (f : Progress→Except SeqFault Progress) :
      h.move i f=h.fault i ∨ ∃ seqs, h.move i f={h with seqs := seqs} := by
    unfold History.move
    split
    · exact .inr ⟨_,rfl⟩
    · split
      · exact .inl rfl
      · split
        · exact .inr ⟨_,rfl⟩
        · exact .inl rfl
  cases p with
  | register i =>
    rw [History.stepPiece]
    split
    · exact .inr (.inl ⟨_,rfl⟩)
    · exact .inl ⟨i,rfl⟩
  | placed i rows | acked i n =>
    rw [History.stepPiece]
    obtain hfault | hseqs := hmove i _
    · exact .inl ⟨i,hfault⟩
    · exact .inr (.inl hseqs)
  | trailing lsn => exact .inr (.inr ⟨lsn,rfl,rfl⟩)

/-- Elementary steps forget no fault. -/
theorem faulted_stepPiece (h : History) (p : Piece) : h.faulted ⊆ (h.stepPiece p).faulted := by
  obtain ⟨i,hstep⟩ | ⟨_,hstep⟩ | ⟨_,-,hstep⟩ := stepPiece_cases h p <;> rw [hstep]
  · exact subset_cons_self i h.faulted
  · exact List.Subset.refl _
  · exact List.Subset.refl _

/-- No event forgets a fault. -/
theorem faulted_apply (h : History) (ev : AckEvent) : h.faulted ⊆ (h.apply ev).faulted := by
  have hfold (ps : List Piece) (g : History) :
      g.faulted ⊆ (ps.foldl History.stepPiece g).faulted := by
    induction ps generalizing g with
    | nil => exact List.Subset.refl _
    | cons p _ ih => exact List.Subset.trans (faulted_stepPiece g p) (ih _)
  rw [History.apply,settle_eq]
  exact hfold (pieces ev) h

theorem faulted_run (h : History) (evs : List AckEvent) : h.faulted ⊆ (h.run evs).faulted := by
  induction evs generalizing h with
  | nil => exact List.Subset.refl _
  | cons ev _ ih => exact List.Subset.trans (faulted_apply h ev) (ih _)

/-- A published frontier stays at or below every faulted seq. -/
theorem Published.frontier_le_faulted (hp : Published s h) (hi : i∈h.faulted) :
    s.frontier ≤ i := by
  by_contra hlt
  have hfront := hp.frontier_eq
  have hin : i<h.frontier := by omega
  exact (complete_of_lt_frontier hin).2 hi

/-- Once every seq is finished, the published position has reached each of them. -/
theorem Published.all_reached (hp : Published s h) (hall : ∀ i<h.seqs.length,h.complete i=true)
    : s.allDone=true ∧ ∀ q∈h.seqs,q.publish=true→q.commitLsn ≤ s.emitterAck := by
  have hsound (i : Nat) (hi : i<h.seqs.length) : i∉h.faulted := by
    intro hmem
    have hopen := hp.faulted_incomplete i hmem
    rw [hall i hi] at hopen
    exact Bool.noConfusion hopen
  have hge : h.seqs.length≤h.frontier :=
    (le_frontier_iff h _).mpr (fun i hi => ⟨hall i hi,hsound i hi⟩)
  have hend : h.frontier=h.seqs.length := le_antisymm (frontier_le_length h) hge
  constructor
  · rw [AckState.allDone,hp.frontier_eq,hp.registered_eq,hend]
    exact beq_self_eq_true _
  · intro q hq hpub
    have hmax := le_publishedMax hq hpub
    rw [hp.emitterAck_eq,History.ack,hend,take_length]
    omega

/-- In every run whose faults show in the counts the collector publishes what the
full history justifies: at each point the published position and frontier are the
history's, the position never moves back, a faulted seq holds the frontier for
ever after, a prefix finished in any order is retired, and with every seq
finished the last one is reached. -/
theorem run_refines_history (start : Nat) (evs more : List AckEvent)
    (hok : RunOk (History.new start) (evs++more)) :
    Published ((AckState.new start).run evs) ((History.new start).run evs) ∧
      ((AckState.new start).run evs).emitterAck ≤
        ((AckState.new start).run (evs++more)).emitterAck ∧
      (∀ i∈((History.new start).run evs).faulted,
        ((AckState.new start).run (evs++more)).frontier ≤ i) ∧
      (∀ n,(∀ i<n,((History.new start).run evs).complete i=true ∧
          i∉((History.new start).run evs).faulted) →
        n≤((AckState.new start).run evs).frontier) ∧
      ((∀ i<((History.new start).run evs).seqs.length,
          ((History.new start).run evs).complete i=true) →
        ((AckState.new start).run evs).allDone=true ∧
          ∀ q∈((History.new start).run evs).seqs,q.publish=true →
            q.commitLsn≤((AckState.new start).run evs).emitterAck) := by
  obtain ⟨hevs,hmore⟩ := runOk_append hok
  have hp := (published_new start).run hevs
  have hp' := hp.run hmore
  have hs : (AckState.new start).run (evs++more)=((AckState.new start).run evs).run more :=
    foldl_append
  refine ⟨hp,?_,?_,?_,hp.all_reached⟩
  · rw [hs]
    exact emitterAck_le_run _ more
  · intro i hi
    rw [hs]
    exact hp'.frontier_le_faulted (faulted_run _ more hi)
  · intro n hn
    rw [hp.frontier_eq,le_frontier_iff]
    exact hn

/-- A seq is placed a second time. -/
def placedTwice : List AckEvent := [.register 0 100 true,.placed 0 2,.placed 0 5]

/-- A run with a fault that stays visible: the second placement of an open seq
faults and the seq is never acked in full. -/
theorem run_refines_history_pinned :
    RunOk (History.new 7)
        (placedTwice++[.register 1 200 true,.batch [.placed 1 1,.acked [(1,1),(0,1)]]]) ∧
      ((AckState.new 7).run (placedTwice++
        [.register 1 200 true,.batch [.placed 1 1,.acked [(1,1),(0,1)]]])).frontier≤0 := by
  have hok : RunOk (History.new 7)
      (placedTwice++[.register 1 200 true,.batch [.placed 1 1,.acked [(1,1),(0,1)]]]) := by
    refine ⟨⟨?_,trivial⟩,⟨?_,trivial⟩,⟨?_,trivial⟩,⟨?_,trivial⟩,⟨?_,?_,?_,trivial⟩,trivial⟩ <;>
      decide
  have hfaulted : 0∈((History.new 7).run placedTwice).faulted := by decide
  exact ⟨hok,(run_refines_history 7 _ _ hok).2.2.1 0 hfaulted⟩

/-- A second placement faults an open seq, its remaining acks complete it all the
same, and the published position passes the faulted seq. -/
theorem faulted_seq_published :
    ((History.new 0).run (placedTwice++[.acked [(0,2)]])).faulted=[0] ∧
      ((History.new 0).run (placedTwice++[.acked [(0,2)]])).ack=0 ∧
      ((AckState.new 0).run (placedTwice++[.acked [(0,2)]])).wedged=1 ∧
      ((AckState.new 0).run (placedTwice++[.acked [(0,2)]])).emitterAck=100 := by
  decide

end Walshadow.AckRefinement
