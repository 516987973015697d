import Walshadow.TupleVisibility

/-!
# Walked tuples are delivered as their transactions end

The copied logs are a partial copy of the source's, and final outcomes agree with
the hints and with what the copy and the WAL overlay show. Then each side of a
verdict says what the outcome says, or names the transaction that will. So a tuple
is streamed, emitted or parked and promoted exactly when its writer commits and no
deleter does, a multixact made after the copy counting as no deleter.
-/

namespace Walshadow.VisibilityVerdict

open Records KeyedMap TupleVisibility
open List hiding lookup

/-- The source's multixacts. -/
structure MultiXacts where
  /-- First slot of a multixact. -/
  offset : Xid→UInt64
  /-- Transaction and status in a slot; no transaction in an unused one. -/
  member : UInt64→Xid×UInt8
  /-- Slots wrap at the source's width. -/
  wrap : UInt64→UInt64
  /-- Slot zero is never used. -/
  reserved : (member 0).1=0

/-- Members in `left` slots from the `i`-th on. -/
def MultiXacts.membersFrom (t : MultiXacts) (start : UInt64) : ℕ→ℕ→List (Xid×UInt8)
  | _,0 => []
  | i,left+1 =>
    if (t.member (t.wrap (start+UInt64.ofNat i))).1=0 then t.membersFrom start (i+1) left
    else t.member (t.wrap (start+UInt64.ofNat i))::t.membersFrom start (i+1) left

/-- Members of a multixact. -/
def MultiXacts.members (t : MultiXacts) (mxid : Xid) : List (Xid×UInt8) :=
  t.membersFrom (t.offset mxid) 0
    (t.wrap (t.offset (PgMultiXactAccum.nextMultiXact mxid)-t.offset mxid)).toNat

/-- The first member that updates or deletes. -/
def firstUpdater (members : List (Xid×UInt8)) : Option Xid :=
  (members.find? (fun p => decide (multixactStatusForUpdate<p.2))).map Prod.fst

/-- The member of a multixact that updates or deletes. -/
def MultiXacts.updaterOf (t : MultiXacts) (mxid : Xid) : Option Xid := firstUpdater (t.members mxid)

/-- What the copy has of the multixact logs is what the source wrote. -/
structure CopiedMulti (m : PgMultiXactAccum) (t : MultiXacts) : Prop where
  wrap : ∀ off, m.wrapOffset off=t.wrap off
  offsets : ∀ mxid v, m.offsetAt mxid=.val v→t.offset mxid=v
  /-- Filled slots. -/
  members : ∀ off xid status, m.memberAt off=.member xid status→xid≠0 →
    t.member off=(xid,status)

/-- An answer that names a member, or only lockers, is the truth. -/
def Tells (truth : Option Xid) : MultiXactUpdater→Prop
  | .updater x => truth=some x ∧ x≠0
  | .lockOnly => truth=none
  | .covered | .unresolvable => True

section Updater

variable {m : PgMultiXactAccum} {t : MultiXacts}

theorem firstUpdater_cons (p : Xid×UInt8) (ps : List (Xid×UInt8)) :
    firstUpdater (p::ps)=if multixactStatusForUpdate<p.2 then some p.1 else firstUpdater ps := by
  unfold firstUpdater
  split_ifs with h
  · rw [find?_cons_of_pos (by simpa using h)]
    rfl
  · rw [find?_cons_of_neg (by simpa using h)]

/-- The scan ends at the first updating member, or has seen lockers only. -/
theorem scanMembers_tells (hcopy : CopiedMulti m t) (start : UInt64) (left i : ℕ) :
    Tells (firstUpdater (t.membersFrom start i left)) (m.scanMembers start i left) := by
  induction left generalizing i with
  | zero => exact (rfl : firstUpdater []=none)
  | succ _ ih =>
    unfold PgMultiXactAccum.scanMembers MultiXacts.membersFrom
    rw [←hcopy.wrap]
    dsimp only
    cases hread : m.memberAt (m.wrapOffset (start+UInt64.ofNat i)) with
    | unwritten | truncated => trivial
    | member xid status =>
      dsimp only
      by_cases hxid : xid=0
      · rw [if_pos hxid]
        by_cases hoff : m.wrapOffset (start+UInt64.ofNat i)=0
        · rw [hoff,if_pos t.reserved]
          exact ih (i+1)
        · rw [if_neg hoff]
          trivial
      · rw [if_neg hxid,hcopy.members _ _ _ hread hxid,if_neg hxid,firstUpdater_cons]
        by_cases hgarbage : multixactStatusUpdate<status
        · rw [if_pos hgarbage]
          trivial
        · split_ifs with hupdate
          · exact ⟨rfl,hxid⟩
          · exact ih (i+1)

/-- What the copy shows of a multixact is the truth. -/
theorem updater_tells (hcopy : CopiedMulti m t) (mxid : Xid) :
    Tells (t.updaterOf mxid) (m.updater mxid) := by
  unfold PgMultiXactAccum.updater MultiXacts.updaterOf MultiXacts.members
  cases hstart : m.offsetAt mxid with
  | unwritten | truncated => trivial
  | val start =>
    cases hstop : m.offsetAt (PgMultiXactAccum.nextMultiXact mxid) with
    | unwritten | truncated => trivial
    | val =>
      dsimp only
      rw [hcopy.offsets _ _ hstart,hcopy.offsets _ _ hstop,←hcopy.wrap]
      split
      · trivial
      · exact scanMembers_tells hcopy start _ 0

end Updater

/-- Commit log byte of four statuses. -/
def packed (s0 s1 s2 s3 : Fin 4) : UInt8 :=
  UInt8.ofNat (s0.val+4*s1.val+16*s2.val+64*s3.val)

/-- Each status is read back from the byte. -/
theorem bits_packed (k s0 s1 s2 s3 : Fin 4) :
    (packed s0 s1 s2 s3 >>> UInt8.ofNat (2*k.val)) &&& 3 =
      UInt8.ofNat ([s0,s1,s2,s3].get k).val := by
  revert k s0 s1 s2 s3
  decide

/-- The source's transaction logs. -/
structure SourceLogs where
  /-- Commit log: 0 in progress, 1 committed, 2 aborted, 3 sub-committed. -/
  clog : Xid→Fin 4
  multi : MultiXacts

/-- What the copy has of the commit log is what the source wrote, four to a byte. -/
def CopiedXact (a : PgXactAccum) (clog : Xid→Fin 4) : Prop :=
  ∀ segno seg, a.segments.get segno=some seg→∀ i b, seg[i]?=some b →
    b=packed (clog (segno*pgXactXidsPerSegment+UInt32.ofNat (4*i)))
      (clog (segno*pgXactXidsPerSegment+UInt32.ofNat (4*i)+1))
      (clog (segno*pgXactXidsPerSegment+UInt32.ofNat (4*i)+2))
      (clog (segno*pgXactXidsPerSegment+UInt32.ofNat (4*i)+3))

/-- Place of a transaction in its commit log byte. -/
theorem xid_place (xid : Xid) :
    (xid/pgXactXidsPerSegment)*pgXactXidsPerSegment+
      UInt32.ofNat (4*((xid%pgXactXidsPerSegment)/4).toNat)+xid%4=xid := by
  have hx := xid.toNat_lt
  apply UInt32.toNat_inj.mp
  simp only [UInt32.toNat_add,UInt32.toNat_mul,UInt32.toNat_div,UInt32.toNat_mod,
    UInt32.toNat_ofNat',pgXactXidsPerSegment,UInt32.reduceToNat]
  omega

/-- A covered transaction is read as the source wrote it. -/
theorem statusBits_copied {a : PgXactAccum} {clog : Xid→Fin 4} (hcopy : CopiedXact a clog)
    {xid : Xid} {seg : List UInt8} {b : UInt8}
    (hseg : a.segments.get (xid/pgXactXidsPerSegment)=some seg)
    (hb : seg[((xid%pgXactXidsPerSegment)/4).toNat]?=some b) :
    statusBits b xid=UInt8.ofNat (clog xid).val := by
  rw [hcopy _ _ hseg _ _ hb]
  have hplace := xid_place xid
  have hfour : xid%4=0 ∨ xid%4=1 ∨ xid%4=2 ∨ xid%4=3 := by
    simp only [←UInt32.toNat_inj,UInt32.toNat_mod,UInt32.reduceToNat]
    omega
  unfold statusBits
  rcases hfour with hk|hk|hk|hk
  · rw [hk,UInt32.add_zero] at hplace
    rw [hk,hplace]
    exact bits_packed 0 _ _ _ _
  · rw [hk] at hplace
    rw [hk,hplace]
    exact bits_packed 1 _ _ _ _
  · rw [hk] at hplace
    rw [hk,hplace]
    exact bits_packed 2 _ _ _ _
  · rw [hk] at hplace
    rw [hk,hplace]
    exact bits_packed 3 _ _ _ _

section Outcomes

variable {P : Type} {view : PgXactView} {logs : SourceLogs} {outcome : Xid→Bool}
  {t : BackfillTuple P}

/-- Final outcomes agree with the copied logs and with the outcomes read since. -/
structure Consistent (view : PgXactView) (logs : SourceLogs) (outcome : Xid→Bool) : Prop where
  xact : CopiedXact view.accum logs.clog
  multi : ∀ m, view.multi=some m → CopiedMulti m logs.multi
  logged : ∀ xid, logs.clog xid=1 → outcome xid=true
  loggedAbort : ∀ xid, logs.clog xid=2 → outcome xid=false
  patched : ∀ xid∈view.patch.committed,outcome xid=true
  patchedAbort : ∀ xid∈view.patch.aborted,outcome xid=false
  /-- Transactions that are committed for good. -/
  permanent : ∀ xid, permanentXid xid=true → outcome xid=true

/-- Transactions below the copied log committed: vacuum removes or clears the others
before it cuts the log. -/
def Aged (view : PgXactView) (outcome : Xid→Bool) : Prop :=
  ∀ xid, view.xidStatus xid=.unknown → outcome xid=true

/-- The deleter field is empty, void or a locker's. -/
def undeleted (t : BackfillTuple P) : Bool :=
  decide (t.xmax=0) || hasBit t.infomask heapXmaxInvalid || xmaxLockedOnly t.infomask

/-- Final outcomes agree with the hints of a tuple, which has a writer. -/
structure Hinted (outcome : Xid→Bool) (t : BackfillTuple P) : Prop where
  /-- There is a writer. -/
  writer : t.xid≠0
  insert : xminFrozen t.infomask=false →
    (hasBit t.infomask heapXminInvalid=true→permanentXid t.xid=false →
      outcome t.xid=false) ∧
    (hasBit t.infomask heapXminCommitted=true → outcome t.xid=true)
  /-- Delete hint of a plain deleter. -/
  delete : undeleted t=false→hasBit t.infomask heapXmaxIsMulti=false →
    hasBit t.infomask heapXmaxCommitted=true → outcome t.xmax=true

/-- The writer commits; a frozen tuple has no writer any more. -/
def inserted (outcome : Xid→Bool) (t : BackfillTuple P) : Bool :=
  xminFrozen t.infomask || permanentXid t.xid || outcome t.xid

/-- Transaction that deleted or updated a tuple, if any. -/
def deleter (logs : SourceLogs) (t : BackfillTuple P) : Option Xid :=
  if undeleted t then none
  else if hasBit t.infomask heapXmaxIsMulti then logs.multi.updaterOf t.xmax
  else some t.xmax

/-- The deleter field is a multixact made after the logs were copied. -/
def coveredMulti (view : PgXactView) (t : BackfillTuple P) : Bool :=
  hasBit t.infomask heapXmaxIsMulti &&
    view.multi.any (fun m => decide (m.updater t.xmax=.covered))

/-- No deleter commits, a multixact made after the copy apart. -/
def survives (view : PgXactView) (logs : SourceLogs) (outcome : Xid→Bool)
    (t : BackfillTuple P) : Bool :=
  coveredMulti view t || (deleter logs t).all (fun x => !outcome x)

/-- The tuple belongs to the final state. -/
def kept (view : PgXactView) (logs : SourceLogs) (outcome : Xid→Bool) (t : BackfillTuple P) :
    Bool := inserted outcome t && survives view logs outcome t

/-- A parked tuple is promoted once its writer commits and its deleter aborts. -/
def promoted (outcome : Xid→Bool) (p : PendingXids) : Bool :=
  (decide (p.insert=0) || outcome p.insert) && (decide (p.delete=0) || !outcome p.delete)

/-- A settled status of the copied commit log is the logged one. -/
theorem accum_status_logged {a : PgXactAccum} {clog : Xid→Fin 4} (hcopy : CopiedXact a clog)
    (xid : Xid) : (a.status xid=.committed→clog xid=1) ∧
      (a.status xid=.aborted→clog xid=2) := by
  have hmeaning : ∀ s : Fin 4, (bitsStatus (UInt8.ofNat s.val)=.committed→s=1) ∧
      (bitsStatus (UInt8.ofNat s.val)=.aborted→s=2) := by decide
  unfold PgXactAccum.status
  dsimp only
  cases hseg : a.segments.get (xid/pgXactXidsPerSegment) with
  | none =>
    dsimp only
    split
    · exact ⟨nofun,nofun⟩
    · exact ⟨nofun,nofun⟩
  | some seg =>
    dsimp only
    cases hb : seg[((xid%pgXactXidsPerSegment)/4).toNat]? with
    | none => exact ⟨nofun,nofun⟩
    | some =>
      dsimp only
      rw [statusBits_copied hcopy hseg hb]
      exact hmeaning (clog xid)

/-- What a status says about the outcome. -/
def StatusAgrees (outcome : Bool) : XidStatus→Prop
  | .committed | .unknown => outcome=true
  | .aborted => outcome=false
  | .inProgress => True

/-- A status that is not open says the outcome. -/
theorem status_agrees (hcons : Consistent view logs outcome) (haged : Aged view outcome)
    (xid : Xid) : StatusAgrees (outcome xid) (view.xidStatus xid) := by
  have hold := haged xid
  obtain ⟨hcommit,habort⟩ := accum_status_logged hcons.xact xid
  unfold PgXactView.xidStatus at hold ⊢
  split
  · rename_i hperm
    exact hcons.permanent xid hperm
  split
  · rename_i hpatch
    exact hcons.patched xid (contains_iff_mem.mp hpatch)
  split
  · rename_i hpatch
    exact hcons.patchedAbort xid (contains_iff_mem.mp hpatch)
  · rename_i hperm hpatch hpatch'
    rw [if_neg hperm,if_neg hpatch,if_neg hpatch'] at hold
    cases hstatus : view.accum.status xid with
    | committed => exact hcons.logged xid (hcommit hstatus)
    | aborted => exact hcons.loggedAbort xid (habort hstatus)
    | inProgress => trivial
    | unknown => exact hold hstatus

/-- What the insert side says: alive, dead, or decided by the transaction it names. -/
def InsertAgrees (outcome : Xid→Bool) (alive : Bool) : Side→Prop
  | .live => alive=true
  | .dead => alive=false
  | .pending x => x≠0 ∧ alive=outcome x
  | .unknown | .unresolvable => False

/-- What the delete side says. -/
def DeleteAgrees (outcome : Xid→Bool) (alive : Bool) : Side→Prop
  | .live => alive=true
  | .dead => alive=false
  | .pending x => x≠0 ∧ alive=!outcome x
  | .unresolvable => True
  | .unknown => False

section

variable (hcons : Consistent view logs outcome) (haged : Aged view outcome)

include hcons haged

theorem insertSide_agrees (hhint : Hinted outcome t) :
    InsertAgrees outcome (inserted outcome t) (insertSide t.xid t.infomask (some view)) := by
  unfold insertSide inserted
  by_cases hfree : (xminFrozen t.infomask || permanentXid t.xid)=true
  · rw [hfree]
    rfl
  · rw [if_neg hfree,Bool.eq_false_of_not_eq_true hfree]
    rw [Bool.or_eq_true,not_or,Bool.not_eq_true,Bool.not_eq_true] at hfree
    obtain ⟨hinvalid,hcommitted⟩ := hhint.insert hfree.1
    split
    · rename_i hbit
      exact hinvalid hbit hfree.2
    split
    · rename_i hbit
      exact hcommitted hbit
    · have hagree := status_agrees hcons haged t.xid
      dsimp only
      cases hstatus : view.xidStatus t.xid with
      | committed | unknown | aborted =>
        rw [hstatus] at hagree
        exact hagree
      | inProgress => exact ⟨hhint.writer,rfl⟩

/-- The side of one deleter. -/
theorem xidDeleteSide_agrees
    {x : Xid} (hx : x≠0) : DeleteAgrees outcome (!outcome x) (xidDeleteSide view x) := by
  have hagree := status_agrees hcons haged x
  unfold xidDeleteSide
  cases hstatus : view.xidStatus x with
  | committed | unknown | aborted =>
    rw [hstatus] at hagree
    exact congrArg Bool.not hagree
  | inProgress => exact ⟨hx,rfl⟩

theorem deleteSide_agrees (hhint : Hinted outcome t) :
    DeleteAgrees outcome (survives view logs outcome t)
      (deleteSide t.xmax t.infomask (some view)) := by
  unfold deleteSide survives deleter
  by_cases hfree : undeleted t=true
  · rw [if_pos hfree]
    unfold undeleted at hfree
    rw [if_pos hfree,Option.all_none,Bool.or_true]
    rfl
  · rw [if_neg hfree]
    have hxmax : t.xmax≠0 := by
      intro hzero
      apply hfree
      unfold undeleted
      rw [decide_eq_true hzero]
      rfl
    have hdeleted : undeleted t=false := Bool.eq_false_of_not_eq_true hfree
    unfold undeleted at hfree
    rw [if_neg hfree]
    by_cases hmulti : hasBit t.infomask heapXmaxIsMulti=true
    · dsimp only
      unfold coveredMulti
      rw [hmulti]
      cases hm : view.multi with
      | none => trivial
      | some m =>
        have htells := updater_tells (hcons.multi m hm) t.xmax
        dsimp only [Option.any]
        cases hupdater : m.updater t.xmax with
        | covered => rfl
        | unresolvable => trivial
        | lockOnly =>
          rw [hupdater] at htells
          rw [(htells : logs.multi.updaterOf t.xmax=none)]
          rfl
        | updater =>
          rw [hupdater] at htells
          obtain ⟨htruth,hx⟩ := htells
          rw [htruth]
          have hside := xidDeleteSide_agrees hcons haged hx
          simpa using hside
    · have hplain : hasBit t.infomask heapXmaxIsMulti=false := Bool.eq_false_of_not_eq_true hmulti
      have hcov : coveredMulti view t=false := by
        unfold coveredMulti
        rw [hplain,Bool.false_and]
      rw [if_neg hmulti,if_neg hmulti,hcov]
      split
      · rename_i hbit
        exact congrArg Bool.not (hhint.delete hdeleted hplain hbit)
      · exact xidDeleteSide_agrees hcons haged hxmax

end

/-- What a verdict says about the final state. -/
def VerdictAgrees (outcome : Xid→Bool) (alive : Bool) (p : PendingXids) : Visibility→Prop
  | .emit => alive=true
  | .skip => alive=false
  | .defer => p.isEmpty=false ∧ alive=promoted outcome p
  | .unresolvable => True

/-- A side that waits on a transaction is promoted by its outcome. -/
theorem promoted_pending (outcome : Xid→Bool) {x y : Xid} (hx : x≠0) (hy : y≠0) :
    promoted outcome ⟨x,0⟩=outcome x ∧ promoted outcome ⟨0,y⟩=!outcome y ∧
      promoted outcome ⟨x,y⟩=(outcome x && !outcome y) := by
  unfold promoted
  rw [decide_eq_false hx,decide_eq_false hy]
  simp

/-- The verdict of the full lookup says what the outcomes say. -/
theorem tupleVisibility_agrees (hcons : Consistent view logs outcome) (haged : Aged view outcome)
    (hhint : Hinted outcome t) :
    VerdictAgrees outcome (kept view logs outcome t) (deferredXids t.xid t.xmax t.infomask view)
      (tupleVisibility t.xid t.xmax t.infomask (some view)) := by
  have hins := insertSide_agrees hcons haged hhint
  have hdel := deleteSide_agrees hcons haged hhint
  unfold tupleVisibility deferredXids kept
  generalize insertSide t.xid t.infomask (some view)=insert at hins ⊢
  generalize deleteSide t.xmax t.infomask (some view)=delete at hdel ⊢
  cases insert with
  | unknown | unresolvable => exact hins.elim
  | dead =>
    rw [(hins : inserted outcome t=false)]
    rfl
  | live =>
    rw [(hins : inserted outcome t=true)]
    cases delete with
    | unknown => exact hdel.elim
    | unresolvable => trivial
    | dead | live => exact hdel
    | pending =>
      obtain ⟨hy,hsurvives⟩ := hdel
      refine ⟨?_,?_⟩
      · unfold PendingXids.isEmpty Side.awaited
        rw [decide_eq_false hy,Bool.and_false]
      · rw [hsurvives]
        exact ((promoted_pending outcome hy hy).2.1).symm
  | pending x =>
    obtain ⟨hx,hinserted⟩ := hins
    have hopen : ∀ side : Side, (PendingXids.mk x side.awaited).isEmpty=false := by
      intro side
      unfold PendingXids.isEmpty
      rw [decide_eq_false hx,Bool.false_and]
    rw [hinserted]
    cases delete with
    | unknown => exact hdel.elim
    | unresolvable => trivial
    | dead =>
      rw [(hdel : survives view logs outcome t=false),Bool.and_false]
      rfl
    | live =>
      rw [(hdel : survives view logs outcome t=true),Bool.and_true]
      exact ⟨hopen .live,((promoted_pending outcome hx hx).1).symm⟩
    | pending y =>
      obtain ⟨hy,hsurvives⟩ := hdel
      rw [hsurvives]
      exact ⟨hopen (.pending y),((promoted_pending outcome hx hy).2.2).symm⟩

end Outcomes

section Hints

variable (xmin xmax : Xid) (infomask : UInt16) (view : PgXactView)

/-- A side that the hints decide is not looked up. -/
theorem insertSide_hint : insertSide xmin infomask none=.unknown ∨
    insertSide xmin infomask none=insertSide xmin infomask (some view) := by
  unfold insertSide
  split
  · exact .inr rfl
  split
  · exact .inr rfl
  split
  · exact .inr rfl
  · exact .inl rfl

theorem deleteSide_hint : deleteSide xmax infomask none=.unknown ∨
    deleteSide xmax infomask none=deleteSide xmax infomask (some view) := by
  unfold deleteSide
  split
  · exact .inr rfl
  split
  · exact .inl rfl
  split
  · exact .inr rfl
  · exact .inl rfl

/-- A verdict reached from the hints alone is the verdict of the full lookup. -/
theorem hint_verdict (h : tupleVisibility xmin xmax infomask none=.emit ∨
    tupleVisibility xmin xmax infomask none=.skip) :
    tupleVisibility xmin xmax infomask (some view)=tupleVisibility xmin xmax infomask none := by
  rcases insertSide_hint xmin infomask view with hins|hins
  · unfold tupleVisibility at h
    rw [hins] at h
    exact (h.elim nofun nofun)
  · rcases deleteSide_hint xmax infomask view with hdel|hdel
    · unfold tupleVisibility at h ⊢
      rw [←hins]
      rw [hdel] at h
      cases hside : insertSide xmin infomask none with
      | dead | unknown => rfl
      | live | pending x | unresolvable =>
        rw [hside] at h
        exact (h.elim nofun nofun)
    · unfold tupleVisibility
      rw [hins,hdel]

end Hints

section Gate

variable {P : Type} {isToast inCatalog : RelFileNode→Bool} {view : PgXactView}

/-- Verdict of the hints. -/
def hintVerdict (t : BackfillTuple P) : Visibility := tupleVisibility t.xid t.xmax t.infomask none

/-- Verdict of the full lookup. -/
def fullVerdict (view : PgXactView) (t : BackfillTuple P) : Visibility :=
  tupleVisibility t.xid t.xmax t.infomask (some view)

/-- A row whose hints let it pass. -/
def streams (isToast : RelFileNode→Bool) (t : BackfillTuple P) : Bool :=
  !isToast t.rfn && decide (hintVerdict t=.emit)

/-- A row whose hints leave it open. -/
def spools (isToast : RelFileNode→Bool) (t : BackfillTuple P) : Bool :=
  !isToast t.rfn && decide (hintVerdict t≠.emit) && decide (hintVerdict t≠.skip)

/-- A spooled row that is parked. -/
def parks (inCatalog : RelFileNode→Bool) (view : PgXactView) (t : BackfillTuple P) : Bool :=
  decide (fullVerdict view t=.defer) &&
    (!(deferredXids t.xid t.xmax t.infomask view).isEmpty && inCatalog t.rfn)

/-- One tuple of the first phase. -/
theorem streamTuple_eq (s : Streamed P) (t : BackfillTuple P) :
    (streamTuple isToast s t).passed.filter (fun t => !isToast t.rfn) =
      s.passed.filter (fun t => !isToast t.rfn)++[t].filter (streams isToast) ∧
    (streamTuple isToast s t).spooled=s.spooled++[t].filter (spools isToast) := by
  unfold streamTuple
  cases htoast : isToast t.rfn with
  | true =>
    have hstreams : streams isToast t=false := by simp [streams,htoast]
    have hspools : spools isToast t=false := by simp [spools,htoast]
    rw [if_pos rfl,filter_cons_of_neg (by simp [hstreams]),filter_cons_of_neg (by simp [hspools])]
    split
    · exact ⟨(append_nil _).symm,(append_nil _).symm⟩
    · refine ⟨?_,(append_nil _).symm⟩
      rw [filter_append,filter_cons_of_neg (by simp [htoast])]
      rfl
  | false =>
    cases hverdict : tupleVisibility t.xid t.xmax t.infomask none <;>
      simp [streams,spools,hintVerdict,htoast,hverdict]

/-- First phase: rows split by what their hints say. -/
theorem streamPhase_eq (stats : GateStats) (ts : List (BackfillTuple P)) :
    (streamPhase isToast stats ts).passed.filter (fun t => !isToast t.rfn) =
      ts.filter (streams isToast) ∧
    (streamPhase isToast stats ts).spooled=ts.filter (spools isToast) := by
  have hfold : ∀ s : Streamed P,
      (ts.foldl (streamTuple isToast) s).passed.filter (fun t => !isToast t.rfn) =
        s.passed.filter (fun t => !isToast t.rfn)++ts.filter (streams isToast) ∧
      (ts.foldl (streamTuple isToast) s).spooled=s.spooled++ts.filter (spools isToast) := by
    induction ts with
    | nil => exact fun s => ⟨(append_nil _).symm,(append_nil _).symm⟩
    | cons t ts ih =>
      intro s
      obtain ⟨hpassed,hspooled⟩ := ih (streamTuple isToast s t)
      obtain ⟨hone,hone'⟩ := @streamTuple_eq _ isToast s t
      have hsplit : ∀ p : BackfillTuple P→Bool, (t::ts).filter p=[t].filter p++ts.filter p :=
        fun p => filter_append (p := p) [t] ts
      rw [foldl_cons,hpassed,hspooled,hone,hone',hsplit,hsplit,append_assoc,append_assoc]
      exact ⟨rfl,rfl⟩
  exact hfold ⟨[],[],stats⟩

/-- What a second phase that ends has done with the spooled rows. -/
theorem resolvePhase_eq {ts : List (BackfillTuple P)} {r r' : Resolved P}
    (hok : resolvePhase inCatalog view r ts=.ok r') :
    r'.emitted=r.emitted++ts.filter (fun t => decide (fullVerdict view t=.emit)) ∧
    r'.parked=r.parked++(ts.filter (parks inCatalog view)).map
      (fun t => (t,deferredXids t.xid t.xmax t.infomask view)) ∧
    ∀ t∈ts,fullVerdict view t≠.unresolvable := by
  induction ts generalizing r with
  | nil =>
    obtain rfl := Except.ok.inj hok
    exact ⟨(append_nil _).symm,(append_nil _).symm,nofun⟩
  | cons t _ ih =>
    have hfull : tupleVisibility t.xid t.xmax t.infomask (some view)=fullVerdict view t := rfl
    unfold resolvePhase at hok
    rw [hfull] at hok
    cases hverdict : fullVerdict view t with
    | unresolvable =>
      rw [hverdict] at hok
      cases hok
    | emit | skip =>
      rw [hverdict] at hok
      obtain ⟨hemitted,hparked,hbounded⟩ := ih hok
      rw [hemitted,hparked]
      simpa [parks,hverdict] using hbounded
    | defer =>
      rw [hverdict] at hok
      dsimp only at hok
      split at hok
      · rename_i hpark
        obtain ⟨hemitted,hparked,hbounded⟩ := ih hok
        rw [hemitted,hparked]
        simpa [parks,hverdict,hpark] using hbounded
      · rename_i hpark
        obtain ⟨hemitted,hparked,hbounded⟩ := ih hok
        rw [hemitted,hparked]
        simpa [parks,hverdict,hpark] using hbounded

/-- Tuples that were parked and are promoted as their transactions end. -/
def promotedRows (outcome : Xid→Bool) (parked : List (BackfillTuple P×PendingXids)) :
    List (BackfillTuple P) := (parked.filter (fun p => promoted outcome p.2)).map Prod.fst

/-- A list is its part that satisfies `p` with the rest behind it. -/
theorem filter_split {α : Type} {l : List α} {p q q1 q2 : α→Bool}
    (h1 : ∀ x∈l,(q x && p x)=q1 x) (h2 : ∀ x∈l,(q x && !p x)=q2 x) :
    (l.filter q1++l.filter q2).Perm (l.filter q) := by
  have hsplit := filter_append_perm p (l.filter q)
  rw [filter_filter,filter_filter] at hsplit
  have hone : l.filter (fun x => p x && q x)=l.filter q1 := by
    apply filter_congr
    intro x hx
    rw [←h1 x hx,Bool.and_comm]
  have htwo : l.filter (fun x => !p x && q x)=l.filter q2 := by
    apply filter_congr
    intro x hx
    rw [←h2 x hx,Bool.and_comm]
  rw [hone,htwo] at hsplit
  exact hsplit

variable {logs : SourceLogs} {outcome : Xid→Bool} {t : BackfillTuple P}

section

variable
  (hagree : VerdictAgrees outcome (kept view logs outcome t)
    (deferredXids t.xid t.xmax t.infomask view) (fullVerdict view t))

include hagree

/-- Rows that stream, and rows that are spooled and kept, are the kept rows. -/
theorem streamed_split :
    (!isToast t.rfn && kept view logs outcome t && streams isToast t)=streams isToast t ∧
    (!isToast t.rfn && kept view logs outcome t && !streams isToast t) =
      (spools isToast t && kept view logs outcome t) := by
  have hhint := hint_verdict t.xid t.xmax t.infomask view
  cases hverdict : hintVerdict t with
  | emit =>
    have hfull : fullVerdict view t=.emit := (hhint (.inl hverdict)).trans hverdict
    rw [hfull] at hagree
    have hkept : kept view logs outcome t=true := hagree
    simp [streams,spools,hverdict,hkept]
  | skip =>
    have hfull : fullVerdict view t=.skip := (hhint (.inr hverdict)).trans hverdict
    rw [hfull] at hagree
    have hkept : kept view logs outcome t=false := hagree
    simp [streams,hverdict,hkept]
  | defer | unresolvable => simp [streams,spools,hverdict]

/-- Spooled rows that are emitted, and those parked and promoted, are the kept ones. -/
theorem resolved_split
    (hbounded : fullVerdict view t≠.unresolvable) (hcatalog : inCatalog t.rfn=true) :
    (kept view logs outcome t && decide (fullVerdict view t=.emit)) =
      decide (fullVerdict view t=.emit) ∧
    (kept view logs outcome t && !decide (fullVerdict view t=.emit)) =
      (promoted outcome (deferredXids t.xid t.xmax t.infomask view) && parks inCatalog view t) := by
  unfold parks
  cases hverdict : fullVerdict view t with
  | emit =>
    rw [hverdict] at hagree
    have hkept : kept view logs outcome t=true := hagree
    simp [hkept]
  | skip =>
    rw [hverdict] at hagree
    have hkept : kept view logs outcome t=false := hagree
    simp [hkept]
  | defer =>
    rw [hverdict] at hagree
    obtain ⟨hopen,hkept⟩ := hagree
    simp [hopen,hkept,hcatalog]
  | unresolvable => exact absurd hverdict hbounded

end

/-- Rows streamed, emitted and promoted are the rows kept. -/
theorem delivered_perm {ts : List (BackfillTuple P)} {stats stats' : GateStats} {r : Resolved P}
    (hagree : ∀ t∈ts,VerdictAgrees outcome (kept view logs outcome t)
      (deferredXids t.xid t.xmax t.infomask view) (fullVerdict view t))
    (hcatalog : ∀ t∈ts,inCatalog t.rfn=true)
    (hok : resolvePhase inCatalog view ⟨[],[],stats'⟩ (streamPhase isToast stats ts).spooled =
      .ok r) :
    ((streamPhase isToast stats ts).passed.filter (fun t => !isToast t.rfn)++
      (r.emitted++promotedRows outcome r.parked)).Perm
        (ts.filter (fun t => !isToast t.rfn && kept view logs outcome t)) := by
  obtain ⟨hpassed,hspooled⟩ := @streamPhase_eq _ isToast stats ts
  rw [hspooled] at hok
  obtain ⟨hemitted,hparked,hbounded⟩ := resolvePhase_eq hok
  have hpromoted : promotedRows outcome r.parked=(ts.filter (spools isToast)).filter (fun t =>
      promoted outcome (deferredXids t.xid t.xmax t.infomask view) && parks inCatalog view t) := by
    rw [hparked,promotedRows,nil_append,filter_map,map_map,filter_filter]
    exact map_id _
  have hresolved : (r.emitted++promotedRows outcome r.parked).Perm
      (ts.filter (fun t => spools isToast t && kept view logs outcome t)) := by
    have hperm := @filter_split _ (ts.filter (spools isToast))
      (fun t => decide (fullVerdict view t=.emit)) (kept view logs outcome) _ _
      (fun t ht => (resolved_split (hagree t (mem_filter.mp ht).1) (hbounded t ht)
        (hcatalog t (mem_filter.mp ht).1)).1)
      (fun t ht => (resolved_split (hagree t (mem_filter.mp ht).1) (hbounded t ht)
        (hcatalog t (mem_filter.mp ht).1)).2)
    rw [hemitted,hpromoted]
    refine hperm.trans ?_
    rw [filter_filter]
    exact List.Perm.of_eq (filter_congr fun t _ => Bool.and_comm _ _)
  rw [hpassed]
  refine (hresolved.append_left _).trans ?_
  exact filter_split (fun t ht => (streamed_split (hagree t ht)).1)
    (fun t ht => (streamed_split (hagree t ht)).2)

/-- Every row of the walk is streamed, emitted or parked and promoted exactly when its
writer commits and no deleter does, a multixact newer than the copied logs counting as
none. Verdicts of the hints are those of the full lookup, and lockers suppress no row. -/
theorem walked_tuples_delivered (isToast inCatalog : RelFileNode→Bool) (view : PgXactView)
    (logs : SourceLogs) (outcome : Xid→Bool) (ts : List (BackfillTuple P))
    (stats stats' : GateStats) (r : Resolved P) (hcons : Consistent view logs outcome)
    (haged : Aged view outcome) (hhints : ∀ t∈ts,Hinted outcome t)
    (hcatalog : ∀ t∈ts,inCatalog t.rfn=true)
    (hok : resolvePhase inCatalog view ⟨[],[],stats'⟩ (streamPhase isToast stats ts).spooled =
      .ok r) :
    ((streamPhase isToast stats ts).passed.filter (fun t => !isToast t.rfn)++
      (r.emitted++promotedRows outcome r.parked)).Perm
        (ts.filter (fun t => !isToast t.rfn && kept view logs outcome t)) ∧
    ∀ t∈ts,(hintVerdict t=.emit ∨ hintVerdict t=.skip→fullVerdict view t=hintVerdict t) ∧
      (xmaxLockedOnly t.infomask=true ∨ logs.multi.updaterOf t.xmax=none ∧
        hasBit t.infomask heapXmaxIsMulti=true →
          kept view logs outcome t=inserted outcome t) := by
  constructor
  · exact delivered_perm (fun t ht => tupleVisibility_agrees hcons haged (hhints t ht)) hcatalog hok
  · intro t _
    refine ⟨hint_verdict t.xid t.xmax t.infomask view,?_⟩
    intro hlock
    have hnone : deleter logs t=none := by
      unfold deleter undeleted
      rcases hlock with hlock|⟨hlock,hmulti⟩
      · rw [hlock,Bool.or_true]
        rfl
      · rw [hmulti,hlock]
        exact ite_self none
    unfold kept survives
    rw [hnone,Option.all_none,Bool.or_true,Bool.and_true]

end Gate

/-- Logs of a source in which nothing ended yet and multixact 5 has one updater. -/
def openLogs : SourceLogs where
  clog := fun _ => 0
  multi := {
    offset := fun mxid => mxid.toUInt64
    member := fun off => if off=5 then (900,5) else (0,0)
    wrap := fun off => off &&& 0xFFFFFFFF
    reserved := rfl}

/-- View over a commit log whose only segment is the last before the wrap, not written
yet, and over offsets that were copied before any entry was written. -/
def tailView : PgXactView :=
  ⟨⟨⟨[(4095,[])],List.nodup_singleton _⟩⟩,⟨[],[]⟩,some ⟨⟨[(0,[])],List.nodup_singleton _⟩,.empty,4⟩⟩

/-- Row of relation file 16384. -/
def rowOf (xid xmax : Xid) (infomask : UInt16) : BackfillTuple ℕ :=
  ⟨⟨1663,5,16384⟩,xid,xmax,infomask,0⟩

/-- The copy of `tailView` shows no offsets entry. -/
theorem tailView_unwritten (segno : UInt32) (byte : ℕ) :
    (⟨⟨[(0,[])],List.nodup_singleton _⟩,.empty,4⟩ : PgMultiXactAccum).readOffset segno byte =
      .unwritten := by
  unfold PgMultiXactAccum.readOffset FinMap.get lookup olderCopied
  by_cases hzero : segno=0
  · rw [hzero]
    unfold slice
    simp
  · have hpos : 0<segno := UInt32.pos_iff_ne_zero.mpr hzero
    simp [lookup,hpos,Ne.symm hzero]

theorem tailView_consistent {outcome : Xid→Bool}
    (hperm : ∀ xid, permanentXid xid=true → outcome xid=true) :
    Consistent tailView openLogs outcome where
  xact := by
    intro segno seg hseg i b hb
    have hnil : seg=[] := by
      have hmem := FinMap.get_eq_some.mp hseg
      exact congrArg Prod.snd (mem_singleton.mp hmem)
    rw [hnil] at hb
    cases hb
  multi := by
    intro m hm
    cases hm
    refine ⟨fun off => rfl,?_,?_⟩
    · intro mxid v hv
      unfold PgMultiXactAccum.offsetAt at hv
      rw [tailView_unwritten] at hv
      cases hv
    · intro off xid status hread
      unfold PgMultiXactAccum.memberAt at hread
      dsimp only at hread
      split at hread
      · cases hread
      · cases hread
  logged := fun xid h => absurd h (show (0 : Fin 4)≠1 by decide)
  loggedAbort := fun xid h => absurd h (show (0 : Fin 4)≠2 by decide)
  patched := nofun
  patchedAbort := nofun
  permanent := hperm

/-- Counts at the start. -/
def noStats : GateStats := ⟨0,0,0,0,0,0⟩

/-- Copy of multixact 1, locked by transaction 6 and updated by 5. -/
def shortMulti : PgMultiXactAccum :=
  ⟨⟨[(0,[0,0,0,0,1,0,0,0,3,0,0,0])],List.nodup_singleton _⟩,
    ⟨[(0,[0,0,5,0,0,0,0,0,6,0,0,0,5,0,0,0,0,0,0,0])],List.nodup_singleton _⟩,4⟩

/-- Logs in which transaction 4 committed, 5 aborted and the others run, with the
multixacts of the copy. -/
def shortLogs : SourceLogs where
  clog := fun xid => if xid=4 then 1 else if xid=5 then 2 else 0
  multi := {
    offset := fun mxid => match shortMulti.offsetAt mxid with
      | .val v => v
      | _ => 0
    member := fun off => match shortMulti.memberAt off with
      | .member xid status => (xid,status)
      | _ => (0,0)
    wrap := shortMulti.wrapOffset
    reserved := by decide}

/-- View over two bytes of the commit log and the copied multixact. -/
def shortView : PgXactView :=
  ⟨⟨⟨[(0,[0,9])],List.nodup_singleton _⟩⟩,⟨[],[]⟩,some shortMulti⟩

/-- Every transaction but the fifth commits in the end. -/
def shortOutcome (xid : Xid) : Bool := decide (xid≠5)

theorem shortView_aged : Aged shortView shortOutcome := by
  intro xid hunknown
  refine decide_eq_true fun hxid => ?_
  rw [hxid] at hunknown
  exact absurd hunknown (by decide)

theorem shortView_consistent : Consistent shortView shortLogs shortOutcome where
  xact := by
    intro segno seg hseg i b hb
    have hone := mem_singleton.mp (FinMap.get_eq_some.mp hseg)
    obtain ⟨rfl,rfl⟩ := Prod.mk.inj hone
    rcases i with _|_|i
    · cases hb
      decide
    · cases hb
      decide
    · cases hb
  multi := by
    intro m hm
    cases hm
    exact ⟨fun _ => rfl,fun mxid v hv => by simp [shortLogs,hv],
      fun off xid status hread _ => by simp [shortLogs,hread]⟩
  logged := by
    intro xid hxid
    refine decide_eq_true fun hfive => ?_
    rw [hfive] at hxid
    exact absurd hxid (by decide)
  loggedAbort := by
    intro xid hxid
    have hfive : xid=5 := by
      by_contra hne
      unfold shortLogs at hxid
      dsimp only at hxid
      split at hxid
      · exact absurd hxid (by decide)
      · exact absurd hxid (by decide)
    rw [hfive]
    rfl
  patched := nofun
  patchedAbort := nofun
  permanent := by
    intro xid hperm
    refine decide_eq_true fun hxid => ?_
    rw [hxid] at hperm
    exact absurd hperm (by decide)

/-- Of a committed row, an aborted one, one of a running writer, one with a running
deleter and one whose multixact has an aborted updater, the first, the third and the
last are delivered. -/
theorem walked_tuples_delivered_five :
    ∃ r : Resolved ℕ, (r.emitted++promotedRows shortOutcome r.parked).Perm
      [rowOf 4 0 0,rowOf 6 0 0,rowOf 4 1 0x1000] := by
  have hall := walked_tuples_delivered (fun _ => false) (fun _ => true) shortView shortLogs
    shortOutcome [rowOf 4 0 0,rowOf 5 0 0,rowOf 6 0 0,rowOf 4 6 0,rowOf 4 1 0x1000] noStats noStats _
    shortView_consistent shortView_aged
    (by
      intro t ht
      simp only [mem_cons,not_mem_nil,or_false] at ht
      rcases ht with rfl|rfl|rfl|rfl|rfl <;>
        exact ⟨by decide,fun _ => ⟨fun h => absurd h (by decide),fun h => absurd h (by decide)⟩,
          fun _ _ h => absurd h (by decide)⟩)
    (fun _ _ => rfl) rfl
  exact ⟨_,hall.1⟩

/-- A row whose multixact is newer than the copy is delivered although its updater
commits. A writer past the wrap, which no copied segment precedes, reads as ancient:
its row is delivered although it aborts. And a row without a writer is neither emitted nor
parked, whatever becomes of transaction zero. -/
theorem covered_and_wrapped_delivered :
    (∃ (outcome : Xid→Bool) (t : BackfillTuple ℕ) (r : Resolved ℕ),
      Consistent tailView openLogs outcome ∧ Aged tailView outcome ∧ Hinted outcome t ∧
      deleter openLogs t=some 900 ∧ outcome 900=true ∧
      resolvePhase (fun _ => true) tailView ⟨[],[],noStats⟩
        (streamPhase (fun _ => false) noStats [t]).spooled=.ok r ∧ r.emitted=[t]) ∧
    (∃ (outcome : Xid→Bool) (t : BackfillTuple ℕ) (r : Resolved ℕ),
      Consistent tailView openLogs outcome ∧ Hinted outcome t ∧ inserted outcome t=false ∧
      resolvePhase (fun _ => true) tailView ⟨[],[],noStats⟩
        (streamPhase (fun _ => false) noStats [t]).spooled=.ok r ∧ r.emitted=[t]) ∧
    (Consistent shortView shortLogs shortOutcome ∧ Aged shortView shortOutcome ∧
      kept shortView shortLogs shortOutcome (rowOf 0 0 0)=true ∧
      ∃ r, resolvePhase (fun _ => true) shortView ⟨[],[],noStats⟩
        (streamPhase (fun _ => false) noStats [rowOf 0 0 0]).spooled=.ok r ∧
        r.emitted=[] ∧ r.parked=[]) := by
  refine ⟨?_,?_,shortView_consistent,shortView_aged,by decide,_,rfl,rfl,rfl⟩
  · refine ⟨fun _ => true,rowOf 100 5 0x1100,_,tailView_consistent (fun _ _ => rfl),fun _ _ => rfl,
      ⟨by decide,fun _ => ⟨fun h => absurd h (by decide),fun _ => rfl⟩,fun _ _ _ => rfl⟩,
      by decide,rfl,rfl,rfl⟩
  · refine ⟨fun xid => decide (xid≠100),rowOf 100 0 0,_,tailView_consistent ?_,
      ⟨by decide,fun _ => ⟨fun h => absurd h (by decide),fun h => absurd h (by decide)⟩,
        fun h => absurd h (by decide)⟩,by decide,rfl,rfl⟩
    intro xid hperm
    refine decide_eq_true fun hxid => ?_
    rw [hxid] at hperm
    exact absurd hperm (by decide)

end Walshadow.VisibilityVerdict
