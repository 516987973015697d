import Mathlib

/-!
# Spool of deferred records

Records are kept in memory up to a bound and then in an append-only file. A checkpoint
forces the file out and answers a mark of its length. After a crash the file holds at
least what was forced out; reopening at a mark keeps exactly the records the mark counts,
or refuses. Records are kept whole here: a torn last record reads as absent.
-/

namespace Walshadow.SpoolFile

open List

/-- Durable length of a spool. -/
structure SpoolMark where
  records : ℕ
  /-- Their framed bytes. -/
  bytes : ℕ
deriving DecidableEq

/-- Mark of an empty spool. -/
def SpoolMark.empty : SpoolMark := ⟨0,0⟩

/-- Sizes of records. -/
structure RecordSize (T : Type) where
  body : T→ℕ
  /-- Bytes a record is charged while in memory. -/
  approx : T→ℕ
  /-- Bound on records in memory. -/
  memMax : ℕ

section Spool

variable {T : Type}

/-- Where the records are. -/
inductive DeferredSpool (T : Type) where
  | mem (tuples : List T)
  /-- In the file, of which a number of records was forced out. -/
  | file (written : List T) (synced : ℕ)

/-- A new spool. -/
def DeferredSpool.new : DeferredSpool T := .mem []

/-- All records in order. -/
def DeferredSpool.contents : DeferredSpool T→List T
  | .mem tuples => tuples
  | .file written _ => written

/-- Records that survive a crash. -/
def DeferredSpool.synced : DeferredSpool T→ℕ
  | .mem _ => 0
  | .file _ synced => synced

/-- Framed bytes of records: a length and the body each. -/
def spooledBytes (c : RecordSize T) (ts : List T) : ℕ := (ts.map (fun t => 4+c.body t)).sum

/-- Append a record; past the memory bound everything moves to the file. -/
def DeferredSpool.push (c : RecordSize T) (s : DeferredSpool T) (t : T) : DeferredSpool T :=
  match s with
  | .mem tuples =>
    if (tuples.map c.approx).sum+c.approx t ≤ c.memMax then .mem (tuples++[t])
    else .file (tuples++[t]) 0
  | .file written synced => .file (written++[t]) synced

/-- Force all records out and answer the mark. -/
def DeferredSpool.checkpoint (c : RecordSize T) (s : DeferredSpool T) :
    DeferredSpool T×SpoolMark :=
  match s with
  | .mem [] => (s,.empty)
  | .mem tuples => (.file tuples tuples.length,⟨tuples.length,spooledBytes c tuples⟩)
  | .file written _ => (.file written written.length,⟨written.length,spooledBytes c written⟩)

/-- File that a crash leaves: what was forced out and perhaps more. -/
def DeferredSpool.crashed (s : DeferredSpool T) (kept : ℕ) : Option (List T) :=
  match s with
  | .mem _ => none
  | .file written synced => some (written.take (max synced kept))

/-- Bytes and number of whole records below a limit. -/
def scanRecords (c : RecordSize T) : List T→ℕ→ℕ×ℕ
  | [],_ => (0,0)
  | t::ts,limit =>
    if 4+c.body t≤limit then
      let r := scanRecords c ts (limit-(4+c.body t))
      (4+c.body t+r.1,r.2+1)
    else (0,0)

/-- Reopen a file at a mark, cutting what follows; refused unless the file holds exactly
the records the mark counts in its bytes. -/
def reopenAt (c : RecordSize T) (file : Option (List T)) (m : SpoolMark) :
    Option (DeferredSpool T) :=
  if m=.empty then some .new
  else
    match file with
    | none => none
    | some ts =>
      if scanRecords c ts m.bytes=(m.bytes,m.records) then
        some (.file (ts.take m.records) m.records)
      else none

/-- The mark counts records that were forced out. -/
structure Durable (c : RecordSize T) (s : DeferredSpool T) (m : SpoolMark) : Prop where
  /-- They survive a crash. -/
  records : m.records ≤ s.synced
  bytes : m.bytes=spooledBytes c (s.contents.take m.records)

variable {c : RecordSize T} {s : DeferredSpool T} {m : SpoolMark}

/-- Files do not lose what was forced out. -/
def DeferredSpool.Whole (s : DeferredSpool T) : Prop := s.synced ≤ s.contents.length

theorem contents_push (c : RecordSize T) (s : DeferredSpool T) (t : T) :
    (s.push c t).contents=s.contents++[t] := by
  unfold DeferredSpool.push
  split
  · split <;> rfl
  · rfl

theorem synced_push (c : RecordSize T) (s : DeferredSpool T) (t : T) :
    (s.push c t).synced=s.synced := by
  unfold DeferredSpool.push
  split
  · split <;> rfl
  · rfl

theorem whole_push (h : s.Whole) (t : T) : (s.push c t).Whole := by
  unfold DeferredSpool.Whole at h ⊢
  rw [synced_push,contents_push,length_append]
  omega

theorem contents_checkpoint (c : RecordSize T) (s : DeferredSpool T) :
    (s.checkpoint c).1.contents=s.contents := by
  unfold DeferredSpool.checkpoint
  split <;> rfl

theorem synced_checkpoint (c : RecordSize T) (s : DeferredSpool T) :
    (s.checkpoint c).1.synced=s.contents.length := by
  unfold DeferredSpool.checkpoint
  split <;> rfl

theorem mark_checkpoint (c : RecordSize T) (s : DeferredSpool T) :
    (s.checkpoint c).2=⟨s.contents.length,spooledBytes c s.contents⟩ := by
  unfold DeferredSpool.checkpoint
  split <;> rfl

theorem whole_checkpoint (c : RecordSize T) (s : DeferredSpool T) : (s.checkpoint c).1.Whole := by
  have hlength := congrArg length (contents_checkpoint c s)
  exact le_of_eq ((synced_checkpoint c s).trans hlength.symm)

/-- The mark a checkpoint answers is durable. -/
theorem durable_checkpoint (c : RecordSize T) (s : DeferredSpool T) :
    Durable c (s.checkpoint c).1 (s.checkpoint c).2 where
  records := by
    have hrecords := congrArg SpoolMark.records (mark_checkpoint c s)
    exact le_of_eq (hrecords.trans (synced_checkpoint c s).symm)
  bytes := by rw [mark_checkpoint,contents_checkpoint,take_length]

theorem durable_empty (c : RecordSize T) (s : DeferredSpool T) : Durable c s .empty :=
  ⟨Nat.zero_le _,rfl⟩

/-- Durable marks stay durable while the spool grows. -/
theorem Durable.mono {s' : DeferredSpool T} (h : Durable c s m) (hwhole : s.Whole)
    (hsynced : s.synced ≤ s'.synced) (hgrow : s.contents <+: s'.contents) : Durable c s' m where
  records := le_trans h.records hsynced
  bytes := by
    obtain ⟨_,hmore⟩ := hgrow
    have hlen : m.records ≤ s.contents.length := le_trans h.records hwhole
    rw [←hmore,take_append_of_le_length hlen]
    exact h.bytes

/-- Scanning up to the bytes of a number of whole records finds just these. -/
theorem scanRecords_take (c : RecordSize T) (ts : List T) (n : ℕ) (hn : n≤ts.length) :
    scanRecords c ts (spooledBytes c (ts.take n))=(spooledBytes c (ts.take n),n) := by
  induction ts generalizing n with
  | nil =>
    obtain rfl : n=0 := Nat.le_zero.mp hn
    rfl
  | cons t ts ih =>
    cases n with
    | zero =>
      unfold scanRecords
      have hno : ¬4+c.body t ≤ spooledBytes c ((t::ts).take 0) := by
        have hzero : spooledBytes c ((t::ts).take 0)=0 := rfl
        omega
      rw [if_neg hno]
      rfl
    | succ n =>
      rw [length_cons,Nat.add_le_add_iff_right] at hn
      have hsum : spooledBytes c ((t::ts).take (n+1))=4+c.body t+spooledBytes c (ts.take n) := rfl
      unfold scanRecords
      rw [hsum,if_pos (Nat.le_add_right _ _),Nat.add_sub_cancel_left,ih n hn]

/-- A scan counts whole records and their bytes. -/
theorem scanRecords_spec (c : RecordSize T) (ts : List T) (limit : ℕ) :
    (scanRecords c ts limit).2≤ts.length ∧
      (scanRecords c ts limit).1=spooledBytes c (ts.take (scanRecords c ts limit).2) := by
  induction ts generalizing limit with
  | nil => exact ⟨le_rfl,rfl⟩
  | cons t _ ih =>
    obtain ⟨hle,hbytes⟩ := ih (limit-(4+c.body t))
    unfold scanRecords
    split_ifs
    · exact ⟨Nat.succ_le_succ hle,congrArg (4+c.body t+·) hbytes⟩
    · exact ⟨Nat.zero_le _,rfl⟩

/-- What is reopened at a mark. -/
structure Reopened (c : RecordSize T) (s : DeferredSpool T) (m : SpoolMark)
    (s' : DeferredSpool T) : Prop where
  /-- Just the records the mark counts. -/
  contents : s'.contents=s.contents.take m.records
  durable : Durable c s' m
  whole : s'.Whole

/-- After a crash a spool reopens at every durable mark. -/
theorem Durable.reopen (h : Durable c s m) (hwhole : s.Whole) (kept : ℕ) :
    ∃ s', reopenAt c (s.crashed kept) m=some s' ∧ Reopened c s m s' := by
  unfold reopenAt
  split_ifs with hempty
  · rw [hempty]
    exact ⟨.new,rfl,rfl,durable_empty c _,Nat.zero_le _⟩
  · cases s with
    | mem =>
      have hzero : m.records=0 := Nat.le_zero.mp h.records
      have hbytes := h.bytes
      rw [hzero] at hbytes
      exact absurd (show m=.empty from by cases m; subst hzero; subst hbytes; rfl) hempty
    | file written synced =>
      have hrec : m.records ≤ synced := h.records
      have hlen : synced≤written.length := hwhole
      have htake : (written.take (max synced kept)).take m.records=written.take m.records := by
        rw [take_take,Nat.min_eq_left (le_trans hrec (le_max_left _ _))]
      have hscan := scanRecords_take c (written.take (max synced kept)) m.records (by
        rw [length_take]
        omega)
      have hbytes : m.bytes=spooledBytes c (written.take m.records) := h.bytes
      rw [htake,←hbytes] at hscan
      unfold DeferredSpool.crashed
      dsimp only
      rw [if_pos hscan,htake]
      refine ⟨_,rfl,rfl,⟨le_rfl,?_⟩,?_⟩
      · unfold DeferredSpool.contents
        rw [take_take,min_self]
        exact hbytes
      · have hcut : m.records≤(written.take m.records).length := by
          rw [length_take]
          omega
        exact hcut

variable {s' : DeferredSpool T}

theorem Durable.reopened (h : Durable c s m) (hwhole : s.Whole) {kept : ℕ}
    (hopen : reopenAt c (s.crashed kept) m=some s') : Reopened c s m s' := by
  obtain ⟨_,hsome,hreopened⟩ := h.reopen hwhole kept
  cases hsome.symm.trans hopen
  exact hreopened

/-- A file that is gone reopens at the empty mark only. -/
theorem reopened_none (hopen : reopenAt c none m=some s') : Reopened c s m s' := by
  unfold reopenAt at hopen
  split_ifs at hopen with hempty
  cases hopen
  rw [hempty]
  exact ⟨rfl,durable_empty c _,Nat.zero_le _⟩

end Spool

end Walshadow.SpoolFile
