import Mathlib

/-!
# Timeline history and the branch a restart resumes on

A history lists the ancestors of one timeline with the positions where they ended. Every
position below the newest one belongs to one branch of the chain; a restart chooses the
branch that continues the WAL its stored floor was read from. The scan of one text line is
left out: a line is what its scan answers.
-/

namespace Walshadow.Timeline

open List

/-- One branch of the chain; the target timeline is still open. -/
structure HistoryEntry where
  tli : ℕ
  begin : ℕ
  /-- Switchpoint where it stopped. -/
  ends : Option ℕ
deriving DecidableEq

/-- Whether a position is on the branch. -/
def HistoryEntry.covers (e : HistoryEntry) (lsn : ℕ) : Bool :=
  decide (e.begin≤lsn) && e.ends.all (fun stop => decide (lsn<stop))

/-- Why a history is refused. -/
inductive HistoryError where
  /-- A line that does not scan. -/
  | syntaxError (line : ℕ) (reason : String)
  /-- A timeline that is not above the one before. -/
  | nonIncreasing (line tli previous : ℕ)
  /-- An ancestor that is not below the target. -/
  | targetNotAbove (target highest : ℕ)
deriving DecidableEq

/-- What the scan of a line answers. -/
inductive Line where
  /-- Blank or a comment. -/
  | skipped
  /-- Not a history line. -/
  | refused (reason : String)
  /-- An ancestor and its switchpoint. -/
  | fork (tli switchpoint : ℕ)
deriving DecidableEq

/-- Ancestor chain of one timeline, oldest first. -/
structure TimelineHistory where
  target : ℕ
  /-- Its ancestors with their switchpoints. -/
  forks : List (ℕ×ℕ)
  increasing : forks.Pairwise (fun older newer => older.1<newer.1)
  /-- The target is above them. -/
  below : ∀ fork∈forks,fork.1<target

/-- Entries of a chain from a position on: each starts where the one before stopped. -/
def entriesFrom (target : ℕ) : ℕ→List (ℕ×ℕ)→List HistoryEntry
  | begin,[] => [⟨target,begin,none⟩]
  | begin,(tli,switchpoint)::forks =>
    ⟨tli,begin,some switchpoint⟩::entriesFrom target switchpoint forks

namespace TimelineHistory

/-- Ancestors the lines list, in order, or the first line refused. -/
def parseForks : ℕ→Option ℕ→List Line→Except HistoryError (List (ℕ×ℕ))
  | _,_,[] => .ok []
  | line,previous,.skipped::lines => parseForks (line+1) previous lines
  | line,_,.refused reason::_ => .error (.syntaxError line reason)
  | line,previous,.fork tli switchpoint::lines =>
    match previous with
    | some last =>
      if tli≤last then .error (.nonIncreasing line tli last)
      else (parseForks (line+1) (some tli) lines).map (fun forks => (tli,switchpoint)::forks)
    | none => (parseForks (line+1) (some tli) lines).map (fun forks => (tli,switchpoint)::forks)

variable {forks : List (ℕ×ℕ)}

/-- Ancestors a scan accepts are above the one before it and increase. -/
theorem parseForks_increasing {line : ℕ} {previous : Option ℕ} {lines : List Line}
    (h : parseForks line previous lines=.ok forks) :
    (∀ last, previous=some last→∀ fork∈forks,last<fork.1) ∧
      forks.Pairwise (fun older newer => older.1<newer.1) := by
  induction lines generalizing line previous forks with
  | nil =>
    obtain rfl := Except.ok.inj h
    exact ⟨nofun,.nil⟩
  | cons first lines ih =>
    cases first with
    | skipped => exact ih h
    | refused => cases h
    | fork tli switchpoint =>
      have hrest : (∀ last, previous=some last→last<tli) ∧ ∃ rest,
          parseForks (line+1) (some tli) lines=.ok rest ∧ forks=(tli,switchpoint)::rest := by
        have hmap : ∀ found : Except HistoryError (List (ℕ×ℕ)),
            found.map (fun forks => (tli,switchpoint)::forks)=.ok forks →
              ∃ rest, found=.ok rest ∧ forks=(tli,switchpoint)::rest := by
          intro found hfound
          cases found with
          | error => cases hfound
          | ok rest => exact ⟨rest,rfl,(Except.ok.inj hfound).symm⟩
        cases previous with
        | none => exact ⟨nofun,hmap _ h⟩
        | some =>
          unfold parseForks at h
          dsimp only at h
          split_ifs at h with hle
          refine ⟨fun before hbefore => ?_,hmap _ h⟩
          cases hbefore
          exact Nat.lt_of_not_le hle
      obtain ⟨habove,_,hparse,rfl⟩ := hrest
      obtain ⟨hlater,hpairwise⟩ := ih hparse
      refine ⟨fun last hlast fork hfork => ?_,pairwise_cons.mpr ⟨hlater tli rfl,hpairwise⟩⟩
      have hlt := habove last hlast
      obtain rfl | hmem := mem_cons.mp hfork
      · exact hlt
      · exact lt_trans hlt (hlater tli rfl fork hmem)

/-- Build a history once its ancestors have been read. -/
def assemble (target : ℕ) (forks : List (ℕ×ℕ))
    (increasing : forks.Pairwise (fun older newer => older.1<newer.1)) :
    Except HistoryError TimelineHistory :=
  match hlast : forks.getLast? with
  | none => .ok ⟨target,forks,increasing,by
      rw [List.getLast?_eq_none_iff.mp hlast]
      exact nofun⟩
  | some highest =>
    if habove : target≤highest.1 then .error (.targetNotAbove target highest.1)
    else .ok ⟨target,forks,increasing,fun fork hfork => by
      obtain ⟨front,hfront⟩ := List.getLast?_eq_some_iff.mp hlast
      rw [hfront] at hfork increasing
      obtain hmem | hmem := List.mem_append.mp hfork
      · have hlt := (List.pairwise_append.mp increasing).2.2 fork hmem highest List.mem_cons_self
        omega
      · obtain rfl := List.mem_singleton.mp hmem
        omega⟩

/-- Read a history. -/
def parse (target : ℕ) (lines : List Line) : Except HistoryError TimelineHistory :=
  match hforks : parseForks 1 none lines with
  | .error e => .error e
  | .ok forks => assemble target forks (parseForks_increasing hforks).2

/-- Branches of the chain, oldest first. -/
def entries (h : TimelineHistory) : List HistoryEntry := entriesFrom h.target 0 h.forks

/-- Branch serving a position; a switchpoint belongs to the descendant. -/
def tliOfPoint (h : TimelineHistory) (lsn : ℕ) : Option ℕ :=
  (h.entries.find? (fun e => e.covers lsn)).map HistoryEntry.tli

/-- Branch whose file serves a position: the newest that began in its segment or before. -/
def tliOfSegment (h : TimelineHistory) (lsn segSize : ℕ) : Option ℕ :=
  (h.entries.reverse.find? (fun e => decide (e.begin/segSize≤lsn/segSize))).map HistoryEntry.tli

/-- Entry of a timeline. -/
def entryOf (h : TimelineHistory) (tli : ℕ) : Option HistoryEntry :=
  h.entries.find? (fun e => decide (e.tli=tli))

/-- Where a timeline started. -/
def beginOf (h : TimelineHistory) (tli : ℕ) : Option ℕ := (h.entryOf tli).map HistoryEntry.begin

/-- Whether a timeline is in the chain. -/
def contains (h : TimelineHistory) (tli : ℕ) : Bool :=
  h.entries.any (fun e => decide (e.tli=tli))

/-- Where a timeline ended; nothing for the target or a timeline that is not in the chain. -/
def switchpointOf (h : TimelineHistory) (tli : ℕ) : Option ℕ :=
  (h.entryOf tli).bind HistoryEntry.ends

/-- A timeline owns a position. -/
def provesAncestor (h : TimelineHistory) (tli lsn : ℕ) : Bool :=
  decide (h.tliOfPoint lsn=some tli)

/-- Branch a restart resumes on, the stored one as long as it owns the floor. -/
def resumeBranch (h : TimelineHistory) (stored aligned segSize : ℕ) : Option ℕ :=
  match h.tliOfSegment aligned segSize with
  | none => none
  | some serves =>
    if h.provesAncestor stored aligned then some stored
    else if h.contains stored && decide (stored ≤ serves) then some serves
    else none

/-- Whether a branch has been read to its switchpoint. -/
def branchExhausted (h : TimelineHistory) (tli nextLsn : ℕ) : Bool :=
  decide (h.switchpointOf tli=some nextLsn)

end TimelineHistory

/-- Branch a reconnect continues and where it is known to begin; zero is unrecorded. -/
structure SourceBranch where
  timeline : ℕ
  begin : ℕ
deriving DecidableEq

/-- Why a reconnect is refused. -/
inductive TransitionError where
  /-- The branch is not in the source's history. -/
  | notDescendant (finished live : ℕ)
  /-- The source has another branch of that number. -/
  | siblingBranch (tli storedBegin liveBegin : ℕ)
  /-- The position is past the branch's fork. -/
  | resumePastFork (nextLsn switchLsn : ℕ)
deriving DecidableEq

/-- Resume position relative to the branch. -/
inductive ResumePoint where
  /-- The branch has WAL there. -/
  | onBranch
  /-- All its WAL has been read. -/
  | atSwitchpoint
deriving DecidableEq

/-- Check that a history has the branch and that the position is on it or at its end. -/
def proveBranch (h : TimelineHistory) (branch : SourceBranch) (resumeLsn : ℕ) :
    Except TransitionError ResumePoint :=
  match h.beginOf branch.timeline with
  | none => .error (.notDescendant branch.timeline h.target)
  | some liveBegin =>
    if branch.begin≠0 ∧ liveBegin≠branch.begin then
      .error (.siblingBranch branch.timeline branch.begin liveBegin)
    else if h.branchExhausted branch.timeline resumeLsn then .ok .atSwitchpoint
    else if !h.provesAncestor branch.timeline resumeLsn then
      .error (.resumePastFork resumeLsn ((h.switchpointOf branch.timeline).getD 0))
    else .ok .onBranch

/-- Chain of one of the branches: its ancestors, and itself without an end. -/
def lineageOf (tli : ℕ) : List HistoryEntry→List HistoryEntry
  | [] => []
  | e::es => if e.tli=tli then [{e with ends := none}] else e::lineageOf tli es

/-- Branch a position belongs to for a reader of branch `tli`. -/
def TimelineHistory.ownerOn (h : TimelineHistory) (tli lsn : ℕ) : Option ℕ :=
  ((lineageOf tli h.entries).find? (fun e => e.covers lsn)).map HistoryEntry.tli

/-- All WAL below a position is the same on two branches. -/
def TimelineHistory.SharedBelow (h : TimelineHistory) (tli tli' lsn : ℕ) : Prop :=
  ∀ p<lsn, h.ownerOn tli p=h.ownerOn tli' p

/-- Switchpoints do not go back. -/
def TimelineHistory.Ordered (h : TimelineHistory) : Prop :=
  h.forks.Pairwise (fun older newer => older.2≤newer.2)

theorem covers_iff (e : HistoryEntry) (lsn : ℕ) :
    e.covers lsn=true ↔ e.begin≤lsn ∧ ∀ stop, e.ends=some stop→lsn<stop := by
  unfold HistoryEntry.covers
  cases hends : e.ends with
  | none | some stop => simp

/-- A branch in its chain: what comes before it and after it. -/
structure Located (entries before : List HistoryEntry) (e : HistoryEntry)
    (after : List HistoryEntry) : Prop where
  /-- They make up the chain. -/
  eq : entries=before++e::after
  /-- Ancestors have lower numbers and stopped before it began. -/
  earlier : ∀ x∈before,x.tli<e.tli ∧ ∃ stop, x.ends=some stop ∧ stop≤e.begin
  /-- It stopped after it began. -/
  ordered : ∀ stop, e.ends=some stop→e.begin ≤ stop
  /-- Descendants have higher numbers and began after it stopped. -/
  later : ∀ x∈after,e.tli<x.tli ∧ ∃ stop, e.ends=some stop ∧ stop≤x.begin
  /-- The next one began where it stopped. -/
  successor : ∀ stop, e.ends=some stop→∃ x∈after,x.begin=stop

variable {x : HistoryEntry}

/-- What the entries from a position on have in common. -/
theorem mem_entriesFrom {target begin : ℕ} (hx : x∈entriesFrom target begin forks) :
    (x.tli=target ∨ x.tli∈forks.map Prod.fst) ∧
      (x.begin=begin ∨ x.begin∈forks.map Prod.snd) := by
  induction forks generalizing begin with
  | nil =>
    obtain rfl := mem_singleton.mp hx
    exact ⟨.inl rfl,.inl rfl⟩
  | cons fork _ ih =>
    obtain ⟨tli,switchpoint⟩ := fork
    obtain rfl | hrest := mem_cons.mp hx
    · exact ⟨.inr mem_cons_self,.inl rfl⟩
    · obtain ⟨htli,hbegin⟩ := ih hrest
      refine ⟨htli.imp_right (mem_cons_of_mem tli),.inr ?_⟩
      obtain hbegin | hbegin := hbegin
      · exact hbegin ▸ mem_cons_self
      · exact mem_cons_of_mem switchpoint hbegin

theorem exists_begin (target begin : ℕ) (forks : List (ℕ×ℕ)) :
    ∃ x∈entriesFrom target begin forks,x.begin=begin := by
  cases forks with
  | nil => exact ⟨_,mem_singleton_self _,rfl⟩
  | cons => exact ⟨_,mem_cons_self,rfl⟩

variable {e : HistoryEntry} {tli : ℕ} {before after : List HistoryEntry} {h : TimelineHistory}

/-- Every branch has its place in the chain. -/
theorem exists_located {target begin : ℕ}
    (hincreasing : forks.Pairwise (fun older newer => older.1<newer.1))
    (hbelow : ∀ fork∈forks,fork.1<target)
    (hordered : forks.Pairwise (fun older newer => older.2≤newer.2))
    (hbegin : ∀ fork∈forks,begin≤fork.2) (he : e∈entriesFrom target begin forks) :
    ∃ before after, Located (entriesFrom target begin forks) before e after := by
  induction forks generalizing begin with
  | nil =>
    obtain rfl := mem_singleton.mp he
    exact ⟨[],[],rfl,nofun,nofun,nofun,nofun⟩
  | cons fork forks ih =>
    obtain ⟨tli,switchpoint⟩ := fork
    obtain ⟨htli,hincreasing⟩ := pairwise_cons.mp hincreasing
    obtain ⟨hswitch,hordered⟩ := pairwise_cons.mp hordered
    have htarget : tli<target := hbelow (tli,switchpoint) mem_cons_self
    have hstart : begin ≤ switchpoint := hbegin (tli,switchpoint) mem_cons_self
    -- the first branch is below every later one, which began at its switchpoint or after
    have hrest : ∀ x∈entriesFrom target switchpoint forks,
        tli<x.tli ∧ switchpoint≤x.begin := by
      intro x hx
      obtain ⟨hnumber,hposition⟩ := mem_entriesFrom hx
      constructor
      · obtain rfl | hmem := hnumber
        · exact htarget
        · obtain ⟨fork,hfork,hfst⟩ := mem_map.mp hmem
          exact hfst ▸ htli fork hfork
      · obtain hmem | hmem := hposition
        · exact le_of_eq hmem.symm
        · obtain ⟨fork,hfork,hsnd⟩ := mem_map.mp hmem
          exact hsnd ▸ hswitch fork hfork
    obtain rfl | he := mem_cons.mp he
    · refine ⟨[],entriesFrom target switchpoint forks,rfl,nofun,?_,?_,?_⟩
      · exact fun stop hstop => Option.some.inj hstop ▸ hstart
      · exact fun x hx => ⟨(hrest x hx).1,switchpoint,rfl,(hrest x hx).2⟩
      · exact fun stop hstop => Option.some.inj hstop ▸ exists_begin target switchpoint forks
    · obtain ⟨before,after,hlocated⟩ := ih hincreasing
        (fun fork hfork => hbelow fork (mem_cons_of_mem _ hfork)) hordered hswitch he
      refine ⟨⟨tli,begin,some switchpoint⟩::before,after,{hlocated with eq := ?_, earlier := ?_}⟩
      · rw [entriesFrom,hlocated.eq,cons_append]
      · intro x hx
        obtain rfl | hx := mem_cons.mp hx
        · exact ⟨(hrest e he).1,switchpoint,rfl,(hrest e he).2⟩
        · exact hlocated.earlier x hx

theorem TimelineHistory.located (h : TimelineHistory) (hordered : h.Ordered) (he : e∈h.entries) :
    ∃ before after, Located h.entries before e after :=
  exists_located h.increasing h.below hordered (fun _ _ => Nat.zero_le _) he

theorem lineageOf_append (hbefore : ∀ x∈before,x.tli≠tli) (rest : List HistoryEntry) :
    lineageOf tli (before++rest)=before++lineageOf tli rest := by
  induction before with
  | nil => rfl
  | cons x _ ih =>
    rw [cons_append,lineageOf,if_neg (hbefore x mem_cons_self),
      ih (fun y hy => hbefore y (mem_cons_of_mem x hy)),cons_append]

/-- A lineage is made of branches of the chain. -/
theorem mem_lineageOf {entries : List HistoryEntry}
    (hx : x∈lineageOf tli entries) : ∃ y∈entries,y.tli=x.tli ∧ y.begin=x.begin := by
  induction entries with
  | nil => cases hx
  | cons e _ ih =>
    unfold lineageOf at hx
    split_ifs at hx with heq
    · obtain rfl := mem_singleton.mp hx
      exact ⟨e,mem_cons_self,rfl,rfl⟩
    · obtain rfl | hx := mem_cons.mp hx
      · exact ⟨x,mem_cons_self,rfl,rfl⟩
      · obtain ⟨y,hy,hsame⟩ := ih hx
        exact ⟨y,mem_cons_of_mem e hy,hsame⟩

variable {stop lsn : ℕ}

section Located

variable {h : TimelineHistory} {before after : List HistoryEntry} {e : HistoryEntry}

section

variable (hl : Located h.entries before e after)

include hl

theorem Located.entryOf : h.entryOf e.tli=some e := by
  have hnone : before.find? (fun x => decide (x.tli=e.tli))=none := by
    refine find?_eq_none.mpr (fun x hx => ?_)
    have hlt := (hl.earlier x hx).1
    simp only [decide_eq_true_eq]
    omega
  rw [TimelineHistory.entryOf,hl.eq,find?_append,hnone,Option.none_or]
  exact find?_cons_of_pos (decide_eq_true rfl)

theorem Located.switchpointOf : h.switchpointOf e.tli=e.ends := by
  rw [TimelineHistory.switchpointOf,hl.entryOf]
  rfl

/-- A position at or after the start of a branch is not on its ancestors. -/
theorem Located.find_before {lsn : ℕ}
    (hlsn : e.begin≤lsn) : before.find? (fun x => x.covers lsn)=none := by
  refine find?_eq_none.mpr (fun x hx hcovers => ?_)
  obtain ⟨_,stop,hstop,_⟩ := hl.earlier x hx
  have hlt := ((covers_iff x lsn).mp hcovers).2 stop hstop
  omega

theorem Located.lineage_self : lineageOf e.tli h.entries=before++[{e with ends := none}] := by
  have hbefore : ∀ x∈before,x.tli≠e.tli := fun x hx => ne_of_lt (hl.earlier x hx).1
  rw [hl.eq,lineageOf_append hbefore,lineageOf,if_pos rfl]

/-- A descendant's lineage goes through the branch. -/
theorem Located.lineage_after
    (hx : x∈after) : lineageOf x.tli h.entries=before++e::lineageOf x.tli after := by
  have hlt := (hl.later x hx).1
  have hbefore : ∀ y∈before,y.tli≠x.tli := by
    intro y hy
    have hy := (hl.earlier y hy).1
    omega
  rw [hl.eq,lineageOf_append hbefore,lineageOf,if_neg (by omega)]

/-- A branch has the same WAL as a descendant up to its own switchpoint and no further. -/
theorem Located.sharedBelow_iff (hx : x∈after) {stop : ℕ} (hstop : e.ends=some stop) (lsn : ℕ) :
    h.SharedBelow e.tli x.tli lsn ↔ lsn ≤ stop := by
  have hself : ∀ p, h.ownerOn e.tli p=((before.find? (fun y => y.covers p)).or
      ([{e with ends := none}].find? (fun y => y.covers p))).map HistoryEntry.tli := by
    intro p
    rw [TimelineHistory.ownerOn,hl.lineage_self,find?_append]
  have hafter : ∀ p, h.ownerOn x.tli p=((before.find? (fun y => y.covers p)).or
      ((e::lineageOf x.tli after).find? (fun y => y.covers p))).map HistoryEntry.tli := by
    intro p
    rw [TimelineHistory.ownerOn,hl.lineage_after hx,find?_append]
  constructor
  · intro hshared
    by_contra hlt
    -- at the switchpoint itself the branch goes on and the descendant has left it
    have hbegin := hl.ordered stop hstop
    have howner := hshared stop (by omega)
    rw [hself,hafter,hl.find_before hbegin,Option.none_or] at howner
    have hopen : ({e with ends := none} : HistoryEntry).covers stop=true :=
      (covers_iff _ stop).mpr ⟨hbegin,nofun⟩
    have hclosed : ¬e.covers stop=true :=
      fun hcovers => lt_irrefl stop (((covers_iff e stop).mp hcovers).2 stop hstop)
    rw [find?_cons_of_pos (by exact hopen),find?_cons_of_neg (by exact hclosed),
      Option.map_some] at howner
    obtain ⟨y,hy,htli⟩ := Option.map_eq_some_iff.mp howner.symm
    obtain ⟨z,hz,_,_⟩ := mem_lineageOf (mem_of_find?_eq_some hy)
    have hlater := (hl.later z hz).1
    have heq : y.tli=e.tli := htli
    omega
  · intro hle p hp
    rw [hself,hafter]
    by_cases hbegin : e.begin≤p
    · have hopen : ({e with ends := none} : HistoryEntry).covers p=true :=
        (covers_iff _ p).mpr ⟨hbegin,nofun⟩
      have hclosed : e.covers p=true := by
        refine (covers_iff e p).mpr ⟨hbegin,fun found hfound => ?_⟩
        have heq := Option.some.inj (hstop.symm.trans hfound)
        omega
      rw [hl.find_before hbegin,Option.none_or,Option.none_or,
        find?_cons_of_pos (by exact hopen),find?_cons_of_pos (by exact hclosed)]
      rfl
    · have hnone : [({e with ends := none} : HistoryEntry)].find? (fun y => y.covers p)=none := by
        refine find?_eq_none.mpr (fun y hy hcovers => hbegin ?_)
        obtain rfl := mem_singleton.mp hy
        exact ((covers_iff _ p).mp hcovers).1
      have hrest : (e::lineageOf x.tli after).find? (fun y => y.covers p)=none := by
        refine find?_eq_none.mpr (fun y hy hcovers => ?_)
        have hposition := ((covers_iff y p).mp hcovers).1
        obtain rfl | hy := mem_cons.mp hy
        · exact hbegin hposition
        · obtain ⟨z,hz,_,_⟩ := mem_lineageOf hy
          obtain ⟨_,_,hlast,_⟩ := hl.later z hz
          have heq := Option.some.inj (hstop.symm.trans hlast)
          omega
      rw [hnone,hrest]

/-- Past its switchpoint a branch owns nothing. -/
theorem Located.not_provesAncestor
    (hstop : e.ends=some stop) (hlsn : stop≤lsn) : h.provesAncestor e.tli lsn=false := by
  have hbegin := hl.ordered stop hstop
  have hclosed : ¬e.covers lsn=true := by
    intro hcovers
    have hlt := ((covers_iff e lsn).mp hcovers).2 stop hstop
    omega
  refine decide_eq_false (fun howner => ?_)
  unfold TimelineHistory.tliOfPoint at howner
  rw [hl.eq,find?_append,hl.find_before (by omega),Option.none_or,
    find?_cons_of_neg (by exact hclosed)] at howner
  obtain ⟨y,hy,_⟩ := Option.map_eq_some_iff.mp howner
  have hlater := (hl.later y (mem_of_find?_eq_some hy)).1
  omega

/-- Past a branch's switchpoint the segment's file is a descendant's. -/
theorem Located.tliOfSegment_after (hstop : e.ends=some stop) (hlsn : stop≤lsn) (segSize : ℕ) :
    ∃ x∈after,h.tliOfSegment lsn segSize=some x.tli := by
  obtain ⟨first,hfirst,_⟩ := hl.successor stop hstop
  have hserves : first.begin/segSize≤lsn/segSize := Nat.div_le_div_right (by omega)
  unfold TimelineHistory.tliOfSegment
  rw [hl.eq,reverse_append,reverse_cons,append_assoc,find?_append]
  cases hfind : after.reverse.find? (fun x => decide (x.begin/segSize≤lsn/segSize)) with
  | none =>
    have hno := find?_eq_none.mp hfind first (mem_reverse.mpr hfirst)
    exact absurd (decide_eq_true hserves) hno
  | some x => exact ⟨x,mem_reverse.mp (mem_of_find?_eq_some hfind),rfl⟩

end

end Located

theorem entryOf_eq_some (hentry : h.entryOf tli=some e) : e∈h.entries ∧ e.tli=tli :=
  ⟨mem_of_find?_eq_some hentry,by simpa using find?_some hentry⟩

theorem contains_iff (h : TimelineHistory) (tli : ℕ) :
    h.contains tli=true ↔ ∃ e∈h.entries,e.tli=tli := by
  unfold TimelineHistory.contains
  rw [any_eq_true]
  simp only [decide_eq_true_eq]

theorem tliOfSegment_mem {lsn segSize : ℕ} (hserves : h.tliOfSegment lsn segSize=some tli) :
    ∃ e∈h.entries,e.tli=tli := by
  obtain ⟨e,he,htli⟩ := Option.map_eq_some_iff.mp hserves
  exact ⟨e,mem_reverse.mp (mem_of_find?_eq_some he),htli⟩

/-- What a restart chooses: the stored branch, or the segment's where the stored one is an
ancestor of it. -/
theorem resumeBranch_eq_some {stored aligned segSize : ℕ}
    (hresume : h.resumeBranch stored aligned segSize=some tli) :
    tli=stored ∨ (h.contains stored=true ∧ stored≤tli ∧
      h.tliOfSegment aligned segSize=some tli) := by
  unfold TimelineHistory.resumeBranch at hresume
  split at hresume
  case h_1 => cases hresume
  case h_2 serves hserves =>
    by_cases hproves : h.provesAncestor stored aligned=true
    · rw [if_pos hproves] at hresume
      exact .inl (Option.some.inj hresume).symm
    · split_ifs at hresume with hancestor
      obtain ⟨hcontains,hle⟩ := Bool.and_eq_true_iff.mp hancestor
      cases hresume
      exact .inr ⟨hcontains,of_decide_eq_true hle,hserves⟩

/-- A restart past the stored branch's switchpoint adopts a descendant. -/
theorem Located.resumeBranch_past (hl : Located h.entries before e after) {stop aligned : ℕ}
    (hstop : e.ends=some stop) (hpast : stop<aligned) (segSize : ℕ) :
    ∃ x∈after,h.resumeBranch e.tli aligned segSize=some x.tli := by
  obtain ⟨x,hx,hserves⟩ := hl.tliOfSegment_after hstop (le_of_lt hpast) segSize
  have hlt := (hl.later x hx).1
  have hcontains : h.contains e.tli=true :=
    (contains_iff h e.tli).mpr ⟨e,hl.eq ▸ mem_append_right before mem_cons_self,rfl⟩
  refine ⟨x,hx,?_⟩
  unfold TimelineHistory.resumeBranch
  rw [hserves]
  dsimp only
  rw [hl.not_provesAncestor hstop (le_of_lt hpast),hcontains,Bool.true_and,
    if_neg Bool.false_ne_true,if_pos (decide_eq_true (le_of_lt hlt))]

/-- The branch a restart chooses has all WAL the stored branch has below the floor, just
where the floor does not pass the switchpoint of the stored branch. -/
theorem resumeBranch_shared_iff (h : TimelineHistory) (hordered : h.Ordered)
    (stored floor segSize : ℕ) :
    (∀ tli, h.resumeBranch stored floor segSize=some tli→h.SharedBelow stored tli floor) ↔
      ∀ stop, h.switchpointOf stored=some stop→floor ≤ stop := by
  constructor
  · intro hsafe stop hstop
    by_contra hpast
    obtain ⟨_,hentry,hends⟩ := Option.bind_eq_some_iff.mp hstop
    obtain ⟨he,htli⟩ := entryOf_eq_some hentry
    obtain ⟨_,_,hl⟩ := h.located hordered he
    obtain ⟨x,hx,hresume⟩ := hl.resumeBranch_past hends (Nat.lt_of_not_le hpast) segSize
    rw [htli] at hresume
    have hshared := hsafe x.tli hresume
    rw [←htli] at hshared
    exact hpast ((hl.sharedBelow_iff hx hends floor).mp hshared)
  · intro hfloor tli hresume
    obtain rfl | ⟨hcontains,_,hserves⟩ := resumeBranch_eq_some hresume
    · exact fun _ _ => rfl
    · obtain ⟨_,he,rfl⟩ := (contains_iff h stored).mp hcontains
      obtain ⟨x,hx,rfl⟩ := tliOfSegment_mem hserves
      obtain ⟨_,_,hl⟩ := h.located hordered he
      rw [hl.switchpointOf] at hfloor
      rw [hl.eq] at hx
      obtain hx | hx := mem_append.mp hx
      · have hlt := (hl.earlier x hx).1
        omega
      · obtain rfl | hx := mem_cons.mp hx
        · exact fun _ _ => rfl
        · obtain ⟨_,stop,hstop,_⟩ := hl.later x hx
          exact (hl.sharedBelow_iff hx hstop floor).mpr (hfloor stop hstop)

/-- Timeline 2, which left timeline 1 at 48. -/
def forked : TimelineHistory := ⟨2,[(1,48)],List.pairwise_singleton _ _,by decide⟩

theorem resumeBranch_shared_iff_forked :
    forked.resumeBranch 1 48 16=some 2 ∧ forked.SharedBelow 1 2 48 :=
  ⟨by decide,(resumeBranch_shared_iff forked (pairwise_singleton _ _) 1 48 16).mpr
    (fun _ hstop => le_of_eq (Option.some.inj hstop)) 2 (by decide)⟩

/-- A floor past the fork is resumed on the descendant, which has other WAL below it. -/
theorem floor_past_fork_adopted :
    forked.Ordered ∧ forked.resumeBranch 1 64 16=some 2 ∧ ¬forked.SharedBelow 1 2 64 := by
  refine ⟨pairwise_singleton _ _,by decide,fun hshared => ?_⟩
  exact absurd (hshared 48 (by decide)) (by decide)

/-- The target has the last, open entry. -/
theorem target_mem (target begin : ℕ) (forks : List (ℕ×ℕ)) :
    ∃ x∈entriesFrom target begin forks,x.tli=target ∧ x.ends=none := by
  induction forks generalizing begin with
  | nil => exact ⟨_,mem_singleton_self _,rfl,rfl⟩
  | cons fork _ ih =>
    obtain ⟨x,hx,hopen⟩ := ih fork.2
    exact ⟨x,mem_cons_of_mem _ hx,hopen⟩

/-- A branch is the target or has it among its descendants. -/
theorem Located.target (hl : Located h.entries before e after) :
    e.tli=h.target ∨ ∃ x∈after,x.tli=h.target := by
  obtain ⟨x,hx,htli,hopen⟩ := target_mem h.target 0 h.forks
  have hmem : x∈before++e::after := hl.eq ▸ hx
  obtain hx | hx := mem_append.mp hmem
  · obtain ⟨_,_,hstop,_⟩ := hl.earlier x hx
    cases hopen.symm.trans hstop
  · obtain rfl | hx := mem_cons.mp hx
    · exact .inl htli
    · exact .inr ⟨x,hx,htli⟩

/-- A position a branch owns is before its switchpoint. -/
theorem Located.lt_of_provesAncestor (hl : Located h.entries before e after)
    (hstop : e.ends=some stop) (hproves : h.provesAncestor e.tli lsn=true) : lsn<stop := by
  by_contra hle
  rw [hl.not_provesAncestor hstop (Nat.le_of_not_lt hle)] at hproves
  cases hproves

variable {branch : SourceBranch} {point : ResumePoint}

/-- A reconnect is accepted at the branch's switchpoint or on the branch. -/
theorem proveBranch_ok {resumeLsn : ℕ} (hproved : proveBranch h branch resumeLsn=.ok point) :
    (∃ e, h.entryOf branch.timeline=some e) ∧
      (h.branchExhausted branch.timeline resumeLsn=true ∨
        h.provesAncestor branch.timeline resumeLsn=true) := by
  unfold proveBranch at hproved
  cases hbegin : h.beginOf branch.timeline with
  | none =>
    rw [hbegin] at hproved
    cases hproved
  | some =>
    obtain ⟨e,hentry,_⟩ := Option.map_eq_some_iff.mp hbegin
    refine ⟨⟨e,hentry⟩,?_⟩
    rw [hbegin] at hproved
    dsimp only at hproved
    split at hproved
    · cases hproved
    · split at hproved
      · rename_i hexhausted
        exact .inl hexhausted
      · split at hproved
        · cases hproved
        · rename_i hproves
          exact .inr (by simpa using hproves)

/-- A reconnect goes on only where all WAL read is also the live timeline's: the check a
restart lacks. -/
theorem proveBranch_shared (hordered : h.Ordered) {resumeLsn : ℕ}
    (hproved : proveBranch h branch resumeLsn=.ok point) :
    h.SharedBelow branch.timeline h.target resumeLsn := by
  obtain ⟨⟨_,hentry⟩,hposition⟩ := proveBranch_ok hproved
  obtain ⟨he,htli⟩ := entryOf_eq_some hentry
  obtain ⟨_,_,hl⟩ := h.located hordered he
  rw [←htli] at hposition ⊢
  obtain htarget | ⟨x,hx,htarget⟩ := hl.target
  · rw [htarget]
    exact fun _ _ => rfl
  · obtain ⟨_,_,hstop,_⟩ := hl.later x hx
    rw [←htarget]
    refine (hl.sharedBelow_iff hx hstop resumeLsn).mpr ?_
    obtain hexhausted | hproves := hposition
    · have hend := of_decide_eq_true hexhausted
      rw [hl.switchpointOf,hstop] at hend
      exact le_of_eq (Option.some.inj hend).symm
    · exact le_of_lt (hl.lt_of_provesAncestor hstop hproves)

theorem proveBranch_shared_forked :
    proveBranch forked ⟨1,0⟩ 48=.ok .atSwitchpoint ∧ forked.SharedBelow 1 2 48 :=
  ⟨by decide,@proveBranch_shared forked ⟨1,0⟩ .atSwitchpoint (pairwise_singleton _ _) 48 (by decide)⟩

end Walshadow.Timeline
