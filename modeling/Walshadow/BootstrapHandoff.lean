import Walshadow.GapReplay

/-!
# Handoff from bootstrap to the pump

While the pages of a backup are walked, a leg reads the WAL of the window from the segment
of the walk's floor on. It seals once it read to the backup's end and no transaction is
open across it, or the wait for those ran out; the pump then starts in the segment of the
backup's end, or of the first record of a transaction left open. Every committed change is
on the pages, sent by the leg, or read by the pump.
-/

namespace Walshadow.BootstrapHandoff

open GapReplay List

variable {R : Type}

/-- The positions around a backup. -/
structure Window (R : Type) where
  wal : Wal R
  /-- Positions are machine words. -/
  bounded : ∀ r∈wal.records,r.stop<2^64
  /-- Commits up to here are on the pages alone. -/
  floor : ℕ
  /-- Pages hold every record below. -/
  redo : ℕ
  /-- The floor is sampled before the backup starts. -/
  sampled : floor ≤ redo
  endLsn : ℕ
  /-- A record ends there. -/
  boundary : ∀ r∈wal.records,¬(r.start<endLsn ∧ endLsn < r.stop)
  /-- Rows of relations that are bootstrapped. -/
  target : R→Bool

/-- Segment start at or below a position. -/
def alignDown (lsn : ℕ) : ℕ := lsn/walSegSize*walSegSize

namespace Window

variable (v : Window R)

/-- The leg starts to read at the segment of its floor. -/
def readStart : ℕ := alignDown v.floor

/-- A leg owns every commit it decodes. -/
def through (row : R) : Option ℕ := if v.target row then some (2^64-1) else none

/-- Records a stream completes between two positions. -/
def completed (lo hi hi' : ℕ) : List (WalRecord R) :=
  v.wal.records.filter (fun r => decide (lo ≤ r.start) && decide (hi < r.stop) &&
    decide (r.stop≤hi'))

end Window

/-- First records of transactions that opened below a position. -/
def openedBelow (s : Sink R) (lsn : ℕ) : List ℕ :=
  (s.buffer.map Entry.lsn).filter (fun first => decide (first<lsn))

/-- What a sealed leg reports. -/
structure WindowLegStats (R : Type) where
  /-- Rows it sent. -/
  shipped : List R
  /-- Position behind the last byte it read. -/
  through : ℕ
  /-- First record of a transaction left open. -/
  openFloor : Option ℕ
deriving DecidableEq

/-- Flush the leg and report what is open at the handoff. -/
def close (s : Sink R) (through handoff : ℕ) : WindowLegStats R :=
  ⟨s.shipped,through,(openedBelow s handoff).min?⟩

/-- A leg that reads live WAL. -/
structure Leg (R : Type) where
  /-- Position behind the last byte read. -/
  next : ℕ
  sink : Sink R
  /-- The backup's end, once published. -/
  stop : Option ℕ
  /-- The wait for open transactions ran out. -/
  elapsed : Bool

/-- What a live leg sees. -/
inductive LegEvent where
  /-- Some more bytes. -/
  | wal (bytes : ℕ)
  | ended
  | timeout

/-- The leg may seal: the backup's end is read, and nothing is open across it or the wait
ran out. -/
def sealed (l : Leg R) : Bool :=
  match l.stop with
  | some target => decide (target≤l.next) && ((openedBelow l.sink target).isEmpty || l.elapsed)
  | none => false

/-- One event. -/
def onEvent (v : Window R) (l : Leg R) : LegEvent→Leg R
  | .wal bytes =>
    {l with
      next := l.next+bytes
      sink := (v.completed v.readStart l.next (l.next+bytes)).foldl (onRecord v.through v.floor) l.sink}
  | .ended => {l with stop := some v.endLsn}
  | .timeout => {l with elapsed := true}

/-- Read until the leg seals. -/
def runLive (v : Window R) (l : Leg R) : List LegEvent→Option (WindowLegStats R)
  | [] => if sealed l then some (close l.sink l.next (min (l.stop.getD l.next) l.next)) else none
  | e::es =>
    if sealed l then some (close l.sink l.next (min (l.stop.getD l.next) l.next))
    else runLive v (onEvent v l e) es

/-- A leg that starts. -/
def Leg.start (v : Window R) : Leg R := ⟨v.readStart,⟨[],[]⟩,none,false⟩

/-- Replay the segments of the window from disk, up to a position at or behind its end. -/
def replaySegments (v : Window R) (hi : ℕ) : WindowLegStats R :=
  close ((v.completed v.readStart v.readStart hi).foldl (onRecord v.through v.floor) ⟨[],[]⟩)
    v.endLsn v.endLsn

/-- Position the pump resumes at. -/
def resumeLsn (v : Window R) (s : WindowLegStats R) : ℕ := min (s.openFloor.getD v.endLsn) v.endLsn

/-- The pump's stream starts at a segment. -/
def pumpStart (v : Window R) (s : WindowLegStats R) : ℕ := alignDown (resumeLsn v s)

/-- Rows the pump sends: it keeps every commit it reads. -/
def pumpRows (v : Window R) (s : WindowLegStats R) : List R :=
  ((v.wal.records.filter (fun r => decide (pumpStart v s ≤ r.start))).foldl
    (onRecord v.through 0) ⟨[],[]⟩).shipped

/-- A sealed leg: its decoder has seen the window up to a position at or behind the
backup's end. -/
structure Seals (v : Window R) (s : WindowLegStats R) (hi : ℕ) : Prop where
  /-- The decoder went to the position. -/
  decoded : ∃ sink rs, Decoded v.wal v.through v.floor v.readStart hi sink rs ∧
    s.shipped=sink.shipped ∧ s.openFloor=(openedBelow sink v.endLsn).min?
  /-- The backup's end is behind it. -/
  ended : v.endLsn≤hi

section Leg

variable {v : Window R}

/-- What holds of a live leg. -/
structure Leg.Valid (v : Window R) (l : Leg R) : Prop where
  /-- Its decoder has seen what was read. -/
  decoded : ∃ rs, Decoded v.wal v.through v.floor v.readStart l.next l.sink rs
  /-- Only the backup's end is published. -/
  stop : ∀ target, l.stop=some target→target=v.endLsn

theorem Leg.Valid.start (v : Window R) : (Leg.start v).Valid v :=
  ⟨⟨[],Decoded.empty ..⟩,nofun⟩

/-- One event keeps it. -/
theorem Leg.Valid.onEvent {l : Leg R} (h : l.Valid v) (e : LegEvent) :
    (BootstrapHandoff.onEvent v l e).Valid v := by
  cases e with
  | wal =>
    obtain ⟨_,hdecoded⟩ := h.decoded
    exact ⟨⟨_,hdecoded.extend (Nat.le_add_right _ _)⟩,h.stop⟩
  | ended => exact ⟨h.decoded,fun target htarget => (Option.some.inj htarget).symm⟩
  | timeout => exact ⟨h.decoded,h.stop⟩

/-- A leg seals behind the backup's end. -/
theorem Leg.Valid.close {l : Leg R} (h : l.Valid v) (hsealed : sealed l=true) :
    Seals v (close l.sink l.next (min (l.stop.getD l.next) l.next)) l.next := by
  unfold sealed at hsealed
  cases hstop : l.stop with
  | none =>
    rw [hstop] at hsealed
    cases hsealed
  | some target =>
    rw [hstop] at hsealed
    obtain rfl := h.stop target hstop
    have hread : v.endLsn≤l.next := of_decide_eq_true (Bool.and_eq_true_iff.mp hsealed).1
    obtain ⟨rs,hdecoded⟩ := h.decoded
    refine ⟨⟨l.sink,rs,hdecoded,rfl,?_⟩,hread⟩
    rw [BootstrapHandoff.close,Option.getD_some,Nat.min_eq_left hread]

/-- So does a whole run. -/
theorem runLive_seals {l : Leg R} (h : l.Valid v) {es : List LegEvent} {s : WindowLegStats R}
    (hrun : runLive v l es=some s) : Seals v s s.through := by
  induction es generalizing l with
  | nil =>
    unfold runLive at hrun
    split_ifs at hrun with hsealed
    cases hrun
    exact h.close hsealed
  | cons e _ ih =>
    unfold runLive at hrun
    split_ifs at hrun with hsealed
    · cases hrun
      exact h.close hsealed
    · exact ih (h.onEvent e) hrun

theorem replaySegments_seals {hi : ℕ} (hstart : v.readStart≤hi) (hend : v.endLsn≤hi) :
    Seals v (replaySegments v hi) hi :=
  ⟨⟨_,_,(Decoded.empty v.wal v.through v.floor v.readStart).extend hstart,rfl,rfl⟩,hend⟩

end Leg

section Coverage

variable {v : Window R} {s : WindowLegStats R} {hi : ℕ} {r c : WalRecord R} {row : R}

theorem alignDown_le (lsn : ℕ) : alignDown lsn≤lsn := Nat.div_mul_le_self lsn walSegSize

/-- A bootstrapped row is sent with its commit. -/
theorem Window.ships (hrow : Committed v.wal r c row) (htarget : v.target row=true)
    {fromLsn : ℕ} (hfrom : fromLsn<c.start) : ships v.through fromLsn c.start row=true := by
  have hbound := v.bounded c hrow.committed
  have hforward := v.wal.forward c hrow.committed
  rw [GapReplay.ships,decide_eq_true hfrom,Window.through,if_pos htarget]
  exact decide_eq_true (by omega)

/-- A row the leg decoded and whose commit it did not is read again by the pump. -/
theorem pumpStart_le (hseals : Seals v s hi) (hrow : Committed v.wal r c row)
    (hread : v.readStart ≤ r.start) (hopen : hi<c.stop) : pumpStart v s ≤ r.start := by
  obtain ⟨⟨sink,_,hdecoded,_,hfloor⟩,_⟩ := hseals
  refine le_trans (alignDown_le _) ?_
  unfold resumeLsn
  by_cases habove : v.endLsn ≤ r.start
  · exact le_trans (min_le_right _ _) habove
  · -- a record that starts before the backup's end is complete there, so it is buffered
    have hcut := v.boundary r hrow.logged
    obtain ⟨_,he,hstart⟩ := hdecoded.buffered hrow hread (by omega) hopen
    have hmem : r.start∈openedBelow sink v.endLsn := by
      refine mem_filter.mpr ⟨hstart ▸ mem_map_of_mem he,decide_eq_true (by omega)⟩
    cases hmin : (openedBelow sink v.endLsn).min? with
    | none =>
      rw [min?_eq_none_iff.mp hmin] at hmem
      cases hmem
    | some =>
      have hle := (min?_eq_some_iff.mp hmin).2 r.start hmem
      rw [hfloor,hmin]
      exact le_trans (min_le_left _ _) hle

/-- The pump sends the rows it reads. -/
theorem mem_pumpRows (hrow : Committed v.wal r c row) (htarget : v.target row=true)
    (hstart : pumpStart v s ≤ r.start) : row∈pumpRows v s := by
  obtain ⟨_,_,_⟩ := hrow.order
  have hdecoded : Decoded v.wal v.through 0 (pumpStart v s) (2^64)
      ((v.wal.records.filter (fun r => decide (pumpStart v s ≤ r.start))).foldl
        (onRecord v.through 0) ⟨[],[]⟩)
      (v.wal.records.filter (fun r => decide (pumpStart v s ≤ r.start))) := by
    refine ⟨rfl,v.wal.ordered.filter _,fun r => ?_⟩
    rw [mem_filter,decide_eq_true_eq]
    exact ⟨fun hr => ⟨hr.1,hr.2,le_of_lt (v.bounded r hr.1)⟩,fun hr => ⟨hr.1,hr.2.1⟩⟩
  exact hdecoded.shipped hrow hstart (le_of_lt (v.bounded c hrow.committed))
    (Window.ships hrow htarget (by omega))

/-- Every committed change of a bootstrapped relation is delivered. -/
theorem Seals.covers (hseals : Seals v s hi) (hrow : Committed v.wal r c row)
    (htarget : v.target row=true) :
    (r.start<v.redo ∧ (c.start≤v.floor ∨ r.start<v.readStart)) ∨ row∈s.shipped ∨
      row∈pumpRows v s := by
  have hbefore := hrow.order.1
  have hsampled := v.sampled
  have hstart : v.readStart≤v.floor := alignDown_le _
  by_cases hearly : c.start≤v.floor
  · exact .inl ⟨by omega,.inl hearly⟩
  by_cases hpaged : r.start<v.readStart
  · exact .inl ⟨by omega,.inr hpaged⟩
  by_cases hsent : c.stop≤hi
  · obtain ⟨⟨_,_,hdecoded,hshipped,_⟩,_⟩ := hseals
    rw [hshipped]
    exact .inr (.inl (hdecoded.shipped hrow (by omega) hsent
      (Window.ships hrow htarget (by omega))))
  · exact .inr (.inr (mem_pumpRows hrow htarget (pumpStart_le hseals hrow (by omega) (by omega))))

end Coverage

/-- A leg sealed after it had read to a position: live WAL under any events, or segments
from disk. -/
inductive SealedAt (v : Window R) : WindowLegStats R→ℕ→Prop where
  | live {es : List LegEvent} {s : WindowLegStats R} (h : runLive v (Leg.start v) es=some s) :
    SealedAt v s s.through
  | segments {hi : ℕ} (hstart : v.readStart≤hi) (hend : v.endLsn≤hi) :
    SealedAt v (replaySegments v hi) hi

theorem SealedAt.seals {v : Window R} {s : WindowLegStats R} {hi : ℕ} (h : SealedAt v s hi) :
    Seals v s hi := by
  cases h with
  | live hrun => exact runLive_seals (Leg.Valid.start v) hrun
  | segments hstart hend => exact replaySegments_seals hstart hend

/-- However a leg sealed, every committed change of a bootstrapped relation is on the pages
(committed up to the floor, or logged below the leg's start), sent by the leg, or sent by
the pump; and a transaction the leg left open is read by the pump from the first record on
that the leg could decode of it. -/
theorem handoff_covers (v : Window R) (s : WindowLegStats R) (hi : ℕ) (hsealed : SealedAt v s hi)
    (r c : WalRecord R) (row : R) (hrow : Committed v.wal r c row) (htarget : v.target row=true) :
    ((r.start<v.redo ∧ (c.start≤v.floor ∨ r.start<v.readStart)) ∨ row∈s.shipped ∨
      row∈pumpRows v s) ∧
    (hi<c.stop→v.readStart ≤ r.start→pumpStart v s ≤ r.start) :=
  ⟨hsealed.seals.covers hrow htarget,
    fun hopen hread => pumpStart_le hsealed.seals hrow hread hopen⟩

/-- A backup from 20000000 to 20000200, with a row logged at a position and committed
behind. -/
def rowWindow (start stop : ℕ) (h : start<stop ∧ stop≤20000200) : Window ℕ where
  wal := twoRecords start stop 20000304 ⟨h.1,le_trans h.2 (by decide)⟩
  bounded := by
    intro r hr
    obtain rfl | hr := List.mem_cons.mp hr
    · exact lt_of_le_of_lt h.2 (by decide)
    · obtain rfl := List.mem_singleton.mp hr
      exact (by decide : 20000304+8<2^64)
  floor := 20000000
  redo := 20000000
  sampled := le_rfl
  endLsn := 20000200
  boundary := by
    intro r hr
    obtain rfl | hr := List.mem_cons.mp hr
    · exact fun hcut => Nat.not_lt_of_le h.2 hcut.2
    · obtain rfl := List.mem_singleton.mp hr
      exact fun hcut => absurd hcut.1 (by decide : ¬20000304<20000200)
  target := fun _ => true

theorem rowWindow_committed {start stop : ℕ} (h : start<stop ∧ stop≤20000200) :
    Committed (rowWindow start stop h).wal ⟨start,stop,.heap 5 [7]⟩
      ⟨20000304,20000312,.commit [5]⟩ 7 where
  logged := mem_cons_self
  heap := ⟨5,[7],rfl,mem_singleton_self _,[5],rfl,mem_singleton_self _⟩
  committed := mem_cons_of_mem _ (mem_singleton_self _)

/-- The row is logged a segment before the leg starts. -/
def earlyWindow : Window ℕ := rowWindow 100 200 (by decide)

/-- The transaction is open at the seal and began below the handoff, and the pump does not
read its first record. -/
theorem early_record_unread :
    ∃ s, runLive earlyWindow (Leg.start earlyWindow) [.wal 3222984,.ended]=some s ∧
      Committed earlyWindow.wal ⟨100,200,.heap 5 [7]⟩ ⟨20000304,20000312,.commit [5]⟩ 7 ∧
      100<earlyWindow.endLsn ∧ s.through<20000312 ∧ ¬pumpStart earlyWindow s≤100 ∧
      7∉pumpRows earlyWindow s :=
  ⟨⟨[],20000200,none⟩,by decide +kernel,rowWindow_committed _,by decide,by decide,
    by decide +kernel,by decide +kernel⟩

/-- The row is logged in the window. -/
def lateWindow : Window ℕ := rowWindow 20000100 20000200 (by decide)

/-- It lowers the position the pump starts at. -/
theorem handoff_covers_open :
    ∃ s, runLive lateWindow (Leg.start lateWindow) [.wal 3222984,.ended,.timeout]=some s ∧
      s.openFloor=some 20000100 ∧ pumpStart lateWindow s≤20000100 := by
  have hrun : runLive lateWindow (Leg.start lateWindow) [.wal 3222984,.ended,.timeout] =
      some ⟨[],20000200,some 20000100⟩ := by decide +kernel
  refine ⟨_,hrun,rfl,?_⟩
  exact (handoff_covers lateWindow _ _ (.live hrun) _ _ 7 (rowWindow_committed _) rfl).2
    (by decide +kernel) (by decide +kernel)

end Walshadow.BootstrapHandoff
