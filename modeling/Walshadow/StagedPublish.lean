import Walshadow.LiveRows

/-!
# Publishing a staged load over crashes

A finished load is published by recording the uuid of its staging table, exchanging the two
tables, and copying live rows back before the staging name is dropped. Each boot resumes a
recorded publish from what the staging name holds: the recorded table, another one, or
none. Over any crashes and lost replies the tables are exchanged at most once, live rows are
copied back before they are dropped, and the ledger says done or pending only of a
published or an untouched table.
-/

namespace Walshadow.StagedPublish

open LiveRows List

/-- Phase of a relation's load. -/
inductive Phase where
  | pending
  /-- The load in this staging table is published. -/
  | swapped (stagingUuid : ℕ)
  | done
deriving DecidableEq

/-- Entry of the ledger file. -/
structure LedgerEntry where
  done : Bool
  swapped : Bool
  stagingUuid : Option ℕ
deriving DecidableEq

def persist : Phase→LedgerEntry
  | .pending => ⟨false,false,none⟩
  | .swapped u => ⟨false,true,some u⟩
  | .done => ⟨true,false,none⟩

/-- Phase read from an entry; one that is swapped names its table. -/
def load (e : LedgerEntry) : Option Phase :=
  match e.done,e.swapped,e.stagingUuid with
  | true,_,_ => some .done
  | false,true,some u => some (.swapped u)
  | false,true,none => none
  | false,false,_ => some .pending

theorem load_persist (p : Phase) : load (persist p)=some p := by
  cases p <;> rfl

/-- Table of the destination. -/
structure Table where
  uuid : ℕ
  rows : List EmittedRow
deriving DecidableEq

/-- The two tables, with what was put into them. -/
structure Tables where
  real : Table
  staging : Option Table
  exchanges : ℕ
  loaded : List EmittedRow
  live : List EmittedRow
  /-- Live rows of the window that were dropped and not under the real name. -/
  lost : List EmittedRow
deriving DecidableEq

namespace Tables

/-- Swap the tables of the two names. -/
def exchange (t : Tables) : Tables :=
  match t.staging with
  | some new => {t with real := new, staging := some t.real, exchanges := t.exchanges+1}
  | none => t

/-- Drop the staging name. -/
def drop (s : UInt64) (t : Tables) : Tables :=
  match t.staging with
  | some old =>
    {t with
      staging := none
      lost := t.lost++old.rows.filter (fun r =>
        decide (s < r.lsn) && decide (r∈t.live) && decide (r∉t.real.rows))}
  | none => t

/-- Insert the live rows of the swapped out table, selected by their version. -/
def copyBack (s : UInt64) (t : Tables) : Tables :=
  match t.staging with
  | some old =>
    {t with
      real := {t.real with rows := t.real.rows++old.rows.filter (fun r => decide (s < r.lsn))}}
  | none => t

/-- The live stream inserts a row. -/
def deliver (t : Tables) (r : EmittedRow) : Tables :=
  {t with real := {t.real with rows := t.real.rows++[r]}, live := t.live++[r]}

end Tables

/-- Statement on the two tables. -/
inductive Statement where
  | exchange
  | copyBack
  | drop
deriving DecidableEq

def Statement.run (s : UInt64) : Statement→Tables→Tables
  | .exchange,t => t.exchange
  | .copyBack,t => t.copyBack s
  | .drop,t => t.drop s

/-- Rows of the load whose visibility is still open. -/
inductive Held where
  | absent
  /-- They wait for the exchange. -/
  | held
  /-- They may be promoted. -/
  | active
deriving DecidableEq

def Held.activate : Held→Held
  | .held => .active
  | h => h

def Held.discard : Held→Held
  | .held => .absent
  | h => h

/-- Where the process is. -/
inductive Pc where
  | idle
  | gate
  /-- Drop a table of another shape. -/
  | skip
  | record
  | exchange
  | activate
  | copyBack
  | dropStaging
  | markDone
  /-- Look at what the staging name holds, against the recorded table. -/
  | look (uuid : ℕ)
  | gateAgain
  /-- The staging name is gone. -/
  | ended
  /-- Drop a recorded table of another shape. -/
  | abandonDrop
  | abandonHeld
  | abandonClear
deriving DecidableEq

/-- Destination, ledger and process. -/
structure State where
  tables : Tables
  /-- Entry of the ledger file. -/
  disk : LedgerEntry
  /-- Phase the process has, if one runs. -/
  mem : Option Phase
  /-- Open rows of the load. -/
  entry : Held
  /-- The load left some. -/
  owed : Bool
  pc : Pc
  /-- Statements that were given up on and may still run. -/
  late : List Statement
deriving DecidableEq

/-- A table before any load. -/
def State.start (original : Table) : State :=
  ⟨⟨original,none,0,[],[],[]⟩,persist .pending,none,.absent,false,.idle,[]⟩

/-- What comes of one action: success, or an error or a crash with or without its effect
by then. -/
inductive Outcome where
  | ok
  | lost (effect : Bool)
  | crash (effect : Bool)
deriving DecidableEq

def Phase.isSwapped : Phase→Bool
  | .swapped _ => true
  | _ => false

namespace State

/-- The process ends. -/
def down (st : State) : State := {st with mem := none, pc := .idle}

/-- The sequence ends: open rows of a load that was not published are forgotten. -/
def rest (st : State) : State :=
  {st with
    pc := .idle
    entry := if st.mem.any Phase.isSwapped then st.entry else st.entry.discard}

/-- A statement or query: an error ends the sequence. -/
def attempt (o : Outcome) (st effected : State) (next : Pc) : State :=
  match o with
  | .ok => {effected with pc := next}
  | .lost effect => (if effect then effected else st).rest
  | .crash effect => (if effect then effected else st).down

/-- An action that is repeated until it succeeds. -/
def retried (o : Outcome) (st effected : State) (next : Pc) : State :=
  match o with
  | .crash effect => (if effect then effected else st).down
  | _ => {effected with pc := next}

/-- A phase that is taken even if it could not be written. -/
def noted (o : Outcome) (st : State) (p : Phase) : State :=
  match o with
  | .ok => rest {st with disk := persist p, mem := some p}
  | .lost effect => rest {st with disk := if effect then persist p else st.disk, mem := some p}
  | .crash effect => down {st with disk := if effect then persist p else st.disk}

/-- A phase that is taken back if it could not be written. -/
def recorded (o : Outcome) (st : State) (p : Phase) (next : Pc) : State :=
  match o with
  | .ok => {st with disk := persist p, mem := some p, pc := next}
  | .lost effect => rest {st with disk := if effect then persist p else st.disk}
  | .crash effect => down {st with disk := if effect then persist p else st.disk}

end State

/-- Where a resume goes on. -/
def lookAt (staging : Option Table) (uuid : ℕ) : Pc :=
  match staging with
  | none => .ended
  | some t => if t.uuid=uuid then .gateAgain else .activate

/-- Next action of the process, with the shapes of the tables the same or not. -/
def act (s : UInt64) (st : State) (o : Outcome) (same : Bool) : State :=
  match st.pc with
  | .idle => st
  | .gate => State.attempt o st st (if same then .record else .skip)
  | .skip =>
    match o with
    | .ok => {st with tables := st.tables.drop s}.rest
    | o => State.attempt o st {st with tables := st.tables.drop s} .idle
  | .record =>
    match st.tables.staging with
    | some t => State.recorded o st (.swapped t.uuid) .exchange
    | none => st.rest
  | .exchange =>
    if st.tables.staging.isNone then st.rest
    else State.attempt o st {st with tables := st.tables.exchange} .activate
  | .activate => State.retried o st {st with entry := st.entry.activate} .copyBack
  | .copyBack =>
    if st.tables.staging.isNone then st.rest
    else State.attempt o st {st with tables := st.tables.copyBack s} .dropStaging
  | .dropStaging => State.attempt o st {st with tables := st.tables.drop s} .markDone
  | .markDone => State.noted o st .done
  | .look uuid => State.attempt o st st (lookAt st.tables.staging uuid)
  | .gateAgain => State.attempt o st st (if same then .exchange else .abandonDrop)
  | .ended => State.retried o st {st with entry := st.entry.activate} .markDone
  | .abandonDrop => State.attempt o st {st with tables := st.tables.drop s} .abandonHeld
  | .abandonHeld => State.retried o st {st with entry := st.entry.discard} .abandonClear
  | .abandonClear => State.noted o st .pending

/-- Statement an action sends. -/
def Pc.statement : Pc→Option Statement
  | .exchange => some .exchange
  | .copyBack => some .copyBack
  | .skip | .dropStaging | .abandonDrop => some .drop
  | _ => none

/-- The statement at hand takes too long and may run later. An exchange is not sent again,
the others are. -/
def stall (st : State) : State :=
  match st.pc.statement with
  | some .exchange => State.rest {st with late := .exchange::st.late}
  | some q => {st with late := q::st.late}
  | none => st

/-- What can happen. -/
inductive Event where
  | boot
  /-- A pass rebuilds the staging table and loads rows into it. -/
  | pass (uuid : ℕ) (rows : List EmittedRow) (owed : Bool)
  | resume
  | act (o : Outcome) (same : Bool)
  | crash
  | live (r : EmittedRow)
  | stall
  /-- A statement that was given up on runs, or is known never to. -/
  | lands (q : Statement) (effect : Bool)

/-- One event. -/
def step (s : UInt64) (st : State) : Event→State
  | .boot =>
    match st.mem,load st.disk with
    | none,some p => State.rest {st with mem := some p}
    | _,_ => st
  | .pass uuid rows owed =>
    if st.pc=.idle ∧ st.mem=some .pending ∧ uuid≠st.tables.real.uuid then
      {st with
        tables := {st.tables.drop s with staging := some ⟨uuid,rows⟩, loaded := rows}
        owed := owed
        entry := if owed then .held else st.entry
        pc := .gate}
    else st
  | .resume =>
    match st.pc,st.mem with
    | .idle,some (.swapped u) => {st with pc := .look u}
    | _,_ => st
  | .act o same => act s st o same
  | .crash => st.down
  | .live r => {st with tables := st.tables.deliver r}
  | .stall => stall st
  | .lands q effect =>
    if q∈st.late then
      {st with
        tables := if effect then q.run s st.tables else st.tables
        late := st.late.erase q}
    else st

/-- Events in order. -/
def run (s : UInt64) (st : State) (es : List Event) : State := es.foldl (step s) st

/-- Between the drop of a discarded load and the mark that clears it. -/
def Pc.abandons : Pc→Bool
  | .abandonHeld | .abandonClear => true
  | _ => false

/-- A phase whose write is reported as failed is not in the file, a load that is discarded
at a boot is dropped and cleared in the ledger without interruption, and no statement that
was given up on runs after the process went on. -/
def Clean (st : State) : Event→Prop
  | .act o _ =>
    st.late=[] ∧ match st.pc,o with
    | .record,.lost true | .abandonDrop,.lost true | .abandonDrop,.crash true
    | .abandonHeld,.crash _ | .abandonClear,.lost false | .abandonClear,.crash false => False
    | _,_ => True
  | .pass .. | .resume => st.late=[]
  | .crash => st.pc.abandons=false
  | .stall => st.pc≠.abandonDrop
  | _ => True

/-- Every event is clean where it happens. -/
def CleanRun (s : UInt64) : State→List Event→Prop
  | _,[] => True
  | st,e::es => Clean st e ∧ CleanRun s (step s st e) es

section Tables

variable {original : Table} {s : UInt64} {t : Tables} {u : ℕ}

/-- The load is not published. -/
structure Unswapped (original : Table) (t : Tables) : Prop where
  never : t.exchanges=0
  uuid : t.real.uuid=original.uuid
  /-- The real name has the rows of the original and live ones. -/
  rows : ∀ r, r∈t.real.rows ↔ r∈original.rows ∨ r∈t.live
  /-- The staging name has another table. -/
  other : ∀ new, t.staging=some new→new.uuid≠original.uuid

/-- The load is in the staging table. -/
structure Loaded (original : Table) (u : ℕ) (t : Tables) : Prop extends Unswapped original t where
  staging : t.staging=some ⟨u,t.loaded⟩

/-- The load is under the real name. -/
structure Published (original : Table) (s : UInt64) (t : Tables) : Prop where
  once : t.exchanges=1
  loads : ∀ r∈t.loaded,r∈t.real.rows
  /-- Other rows are live ones or newer ones of the original. -/
  only : ∀ r∈t.real.rows,r∈t.loaded ∨ r∈t.live ∨ r∈original.rows ∧ s < r.lsn

/-- The original is under the staging name, with the live rows the real name lacks. -/
structure Swapped (original : Table) (s : UInt64) (u : ℕ) (t : Tables) : Prop
    extends Published original s t where
  recorded : u≠original.uuid
  old : ∃ old, t.staging=some old ∧ old.uuid=original.uuid ∧
    (∀ r∈t.live,r∈t.real.rows ∨ r∈old.rows) ∧
    ∀ r∈old.rows,r∈original.rows ∨ r∈t.live

/-- Live rows of the window are under the real name. -/
def Copied (s : UInt64) (t : Tables) : Prop := ∀ r∈t.live,s < r.lsn → r∈t.real.rows

/-- The staging name is gone. -/
structure Finished (original : Table) (s : UInt64) (t : Tables) : Prop
    extends Published original s t where
  gone : t.staging=none
  copied : Copied s t

theorem Unswapped.copied (h : Unswapped original t) : Copied s t :=
  fun r hr _ => (h.rows r).mpr (.inr hr)

/-- A drop after the copy takes the staging name and nothing else. -/
theorem Copied.drop (h : Copied s t) : t.drop s={t with staging := none} := by
  obtain ⟨real,staging,_,_,live,_⟩ := t
  cases staging with
  | none => rfl
  | some old =>
    have hnone : old.rows.filter (fun r =>
        decide (s < r.lsn) && decide (r∈live) && decide (r∉real.rows))=[] := by
      simp only [filter_eq_nil_iff,Bool.and_eq_true,decide_eq_true_eq,not_and,not_not]
      exact fun r _ ⟨hlsn,hlive⟩ => h r hlive hlsn
    dsimp only [Tables.drop]
    rw [hnone,append_nil]

theorem Unswapped.dropped (h : Unswapped original t) : Unswapped original {t with staging := none} :=
  {h with other := nofun}

theorem Loaded.exchange (h : Loaded original u t) : Swapped original s u t.exchange := by
  have hother := h.other _ h.staging
  unfold Tables.exchange
  rw [h.staging]
  exact ⟨⟨congrArg (·+1) h.never,fun r hr => hr,fun r hr => .inl hr⟩,hother,t.real,rfl,h.uuid,
    fun r hr => .inr ((h.rows r).mpr (.inr hr)),fun r hr => (h.rows r).mp hr⟩

/-- The copy brings the live rows of the window back. -/
theorem Swapped.copyBack (h : Swapped original s u t) :
    Swapped original s u (t.copyBack s) ∧ Copied s (t.copyBack s) := by
  obtain ⟨old,hstaging,huuid,hlive,hrows⟩ := h.old
  unfold Tables.copyBack
  rw [hstaging]
  refine ⟨⟨⟨h.once,fun r hr => mem_append_left _ (h.loads r hr),fun r hr => ?_⟩,h.recorded,old,
    rfl,huuid,fun r hr => (hlive r hr).imp (mem_append_left _) id,hrows⟩,fun r hr hlsn => ?_⟩
  · obtain hr | hr := mem_append.mp hr
    · exact h.only r hr
    · obtain ⟨hmem,hlsn⟩ := mem_filter.mp hr
      obtain horiginal | hlive := hrows r hmem
      · exact .inr (.inr ⟨horiginal,decide_eq_true_iff.mp hlsn⟩)
      · exact .inr (.inl hlive)
  · obtain hreal | hmem := hlive r hr
    · exact mem_append_left _ hreal
    · exact mem_append_right _ (mem_filter.mpr ⟨hmem,decide_eq_true hlsn⟩)

theorem Swapped.dropped (h : Swapped original s u t) (hcopied : Copied s t) :
    Finished original s {t with staging := none} :=
  ⟨{h with},rfl,hcopied⟩

theorem Unswapped.deliver (h : Unswapped original t) (r : EmittedRow) :
    Unswapped original (t.deliver r) := by
  refine {h with rows := fun x => ?_}
  simp only [Tables.deliver,mem_append,h.rows x,or_assoc]

theorem Published.deliver (h : Published original s t) (r : EmittedRow) :
    Published original s (t.deliver r) := by
  refine ⟨h.once,fun x hx => mem_append_left _ (h.loads x hx),fun x hx => ?_⟩
  obtain hx | hx := mem_append.mp hx
  · exact (h.only x hx).imp id (Or.imp (mem_append_left _) id)
  · exact .inr (.inl (mem_append_right _ hx))

theorem Copied.deliver (h : Copied s t) (r : EmittedRow) : Copied s (t.deliver r) := by
  intro x hx hlsn
  obtain hx | hx := mem_append.mp hx
  · exact mem_append_left _ (h x hx hlsn)
  · exact mem_append_right _ hx

theorem Swapped.deliver (h : Swapped original s u t) (r : EmittedRow) :
    Swapped original s u (t.deliver r) := by
  obtain ⟨old,hstaging,huuid,hlive,hrows⟩ := h.old
  refine ⟨h.toPublished.deliver r,h.recorded,old,hstaging,huuid,fun x hx => ?_,
    fun x hx => (hrows x hx).imp id (mem_append_left _)⟩
  obtain hx | hx := mem_append.mp hx
  · exact (hlive x hx).imp (mem_append_left _) id
  · exact .inl (mem_append_right _ hx)

end Tables

variable {o : Outcome}

section Invariant

variable {original : Table} {s : UInt64} {st : State} {p : Phase}

/-- Open rows are in a state, if the load left any. -/
def State.Has (st : State) (h : Held) : Prop := st.entry=if st.owed then h else .absent

theorem State.Has.activate (h : st.Has .held ∨ st.Has .active) :
    State.Has {st with entry := st.entry.activate} .active := by
  unfold State.Has at h ⊢
  cases howed : st.owed with
  | false => simp_all [Held.activate]
  | true =>
    obtain h | h := h
    · simp_all [Held.activate]
    · simp_all [Held.activate]

theorem State.Has.ne_active (h : st.Has .held) : st.entry≠.active := by
  unfold State.Has at h
  cases howed : st.owed with
  | false | true => simp_all

theorem Held.discard_absent {h : Held} (hne : h≠.active) : h.discard=.absent := by
  cases h with
  | active => exact absurd rfl hne
  | _ => rfl

theorem State.Has.discard (h : st.Has .active) : st.entry.discard=st.entry := by
  unfold State.Has at h
  cases howed : st.owed with
  | false | true => simp_all [Held.discard]

/-- The tables are what a phase in the ledger says of them. -/
def Resting (original : Table) (s : UInt64) (st : State) : Phase→Prop
  | .pending => Unswapped original st.tables ∧ st.entry≠.active
  | .swapped u =>
    (Loaded original u st.tables ∧ st.Has .held) ∨
      (Swapped original s u st.tables ∧ (st.Has .held ∨ st.Has .active)) ∨
      (Finished original s st.tables ∧ st.Has .active)
  | .done => Finished original s st.tables ∧ st.Has .active

/-- What the process finds where it is, under the phase it has. -/
def Found (original : Table) (s : UInt64) (st : State) : Pc→Phase→Prop
  | .idle,p => Resting original s st p
  | .gate,.pending | .record,.pending => (∃ u, Loaded original u st.tables) ∧ st.Has .held
  | .skip,.pending => Unswapped original st.tables ∧ st.entry≠.active
  | .exchange,.swapped u | .gateAgain,.swapped u | .abandonDrop,.swapped u =>
    Loaded original u st.tables ∧ st.Has .held
  | .activate,.swapped u => Swapped original s u st.tables ∧ (st.Has .held ∨ st.Has .active)
  | .copyBack,.swapped u => Swapped original s u st.tables ∧ st.Has .active
  | .dropStaging,.swapped u =>
    (Swapped original s u st.tables ∨ Finished original s st.tables) ∧ st.Has .active ∧
      Copied s st.tables
  | .markDone,.swapped _ | .ended,.swapped _ => Finished original s st.tables ∧ st.Has .active
  | .look v,.swapped u => v=u ∧ Resting original s st (.swapped u)
  | .abandonHeld,.swapped _ | .abandonClear,.swapped _ =>
    Unswapped original st.tables ∧ st.entry≠.active
  | _,_ => False

/-- What holds in every state. A process at rest may have the load done where the ledger
could not be told. -/
structure Valid (original : Table) (s : UInt64) (st : State) (p : Phase) : Prop where
  disk : st.disk=persist p
  found : Found original s st st.pc p
  mem : st.mem=some p ∨ st.pc=.idle ∧
    (st.mem=none ∨ st.mem=some .done ∧ Finished original s st.tables ∧ st.Has .active)
  lost : st.tables.lost=[]
  fresh : st.pc=.idle→st.mem=some .pending→st.entry=.absent

variable {pc : Pc}

/-- The ledger file says of the tables what they are, but between the drop of a discarded
load and the mark that clears it. -/
theorem Found.resting (h : Found original s st pc p) (hpc : pc.abandons=false) :
    Resting original s st p := by
  cases pc with
  | idle => exact h
  | abandonHeld | abandonClear => cases hpc
  | gate | record | skip =>
    cases p with
    | pending => first | exact h | exact ⟨h.1.elim fun _ hu => hu.toUnswapped,h.2.ne_active⟩
    | _ => exact h.elim
  | _ =>
    cases p with
    | swapped =>
      first
        | exact .inl h
        | exact .inr (.inl h)
        | exact .inr (.inl ⟨h.1,.inr h.2⟩)
        | exact .inr (h.1.imp (⟨·,.inr h.2.1⟩) (⟨·,h.2.1⟩))
        | exact .inr (.inr h)
        | exact h.2
    | _ => exact h.elim

/-- A statement leaves what the ledger says of the tables true, and can be sent again. -/
theorem Found.ran {q : Statement} (h : Found original s st pc p) (hq : pc.statement=some q)
    (hpc : pc≠.abandonDrop) (hlost : st.tables.lost=[]) :
    (q.run s st.tables).lost=[] ∧ Resting original s {st with tables := q.run s st.tables} p ∧
      (pc≠.exchange→Found original s {st with tables := q.run s st.tables} pc p) := by
  cases pc with
  | exchange =>
    cases p with
    | swapped u =>
      cases hq
      refine ⟨?_,.inr (.inl ⟨h.1.exchange,.inl h.2⟩),fun hne => absurd rfl hne⟩
      dsimp only [Statement.run,Tables.exchange]
      rw [h.1.staging]
      exact hlost
    | _ => exact h.elim
  | copyBack =>
    cases p with
    | swapped u =>
      cases hq
      refine ⟨?_,.inr (.inl ⟨h.1.copyBack.1,.inr h.2⟩),fun _ => ⟨h.1.copyBack.1,h.2⟩⟩
      obtain ⟨_,hstaging,-⟩ := h.1.old
      dsimp only [Statement.run,Tables.copyBack]
      rw [hstaging]
      exact hlost
    | _ => exact h.elim
  | dropStaging =>
    cases p with
    | swapped u =>
      cases hq
      obtain ⟨htables,hentry,hcopied⟩ := h
      have hfinished : Finished original s {st.tables with staging := none} :=
        htables.elim (·.dropped hcopied) ({· with gone := rfl})
      dsimp only [Statement.run]
      rw [hcopied.drop]
      exact ⟨hlost,.inr (.inr ⟨hfinished,hentry⟩),fun _ => ⟨.inr hfinished,hentry,hfinished.copied⟩⟩
    | _ => exact h.elim
  | skip =>
    cases p with
    | pending =>
      cases hq
      dsimp only [Statement.run]
      rw [(@Unswapped.copied _ s _ h.1).drop]
      exact ⟨hlost,⟨h.1.dropped,h.2⟩,fun _ => ⟨h.1.dropped,h.2⟩⟩
    | _ => exact h.elim
  | abandonDrop => exact absurd rfl hpc
  | _ => cases hq

section

variable (hdisk : st.disk=persist p)

include hdisk

/-- The process ends where the ledger says what the tables are. -/
theorem Valid.down (hrest : Resting original s st p)
    (hlost : st.tables.lost=[]) : Valid original s st.down p := by
  refine ⟨hdisk,?_,.inr ⟨rfl,.inl rfl⟩,hlost,nofun⟩
  cases p <;> exact hrest

/-- The sequence ends there. -/
theorem Valid.rest (hrest : Resting original s st p) (hlost : st.tables.lost=[])
    (hmem : st.mem=some p ∨ st.mem=some .done ∧ Finished original s st.tables ∧ st.Has .active)
    : Valid original s st.rest p := by
  have hkeeps : st.Has .active→st.rest.Has .active := by
    intro h
    unfold State.rest State.Has
    split
    · exact h
    · exact h.discard.trans h
  have hfresh : st.rest.mem=some .pending→st.rest.entry=.absent := by
    intro hpending
    have hpending : st.mem=some .pending := hpending
    obtain hp | ⟨hdone,-⟩ := hmem
    · obtain rfl : p=.pending := Option.some.inj (hp.symm.trans hpending)
      unfold State.rest
      rw [hpending]
      exact Held.discard_absent hrest.2
    · rw [hpending] at hdone
      cases hdone
  have hresting : Resting original s st.rest p := by
    obtain hp | ⟨-,hfinished,hentry⟩ := hmem
    · cases p with
      | pending => exact ⟨hrest.1,by rw [hfresh hp]; decide⟩
      | swapped =>
        have hsame : st.rest={st with pc := .idle} := by
          unfold State.rest
          rw [hp]
          rfl
        rw [hsame]
        exact hrest
      | done => exact ⟨hrest.1,hkeeps hrest.2⟩
    · cases p with
      | pending => exact absurd hrest.1.never (by rw [hfinished.once]; decide)
      | swapped => exact .inr (.inr ⟨hfinished,hkeeps hentry⟩)
      | done => exact ⟨hfinished,hkeeps hentry⟩
  exact ⟨hdisk,hresting,hmem.imp id (fun h => ⟨rfl,.inr ⟨h.1,h.2.1,hkeeps h.2.2⟩⟩),hlost,
    fun _ => hfresh⟩

/-- A statement or query leads on, or leaves what the ledger says of the tables true. -/
theorem Valid.attempt {effected : State} {next : Pc} {q : Phase}
    (hmem : st.mem=some p) (hrest : Resting original s st p)
    (hlost : st.tables.lost=[]) (hdisk' : effected.disk=persist p)
    (hmem' : effected.mem=some p) (hlost' : effected.tables.lost=[])
    (hrest' : o=.lost true ∨ o=.crash true→Resting original s effected p)
    (hnext : Valid original s {effected with pc := next} q) :
    ∃ q, Valid original s (State.attempt o st effected next) q := by
  cases o with
  | ok => exact ⟨q,hnext⟩
  | lost effect =>
    cases effect with
    | true => exact ⟨p,.rest hdisk' (hrest' (.inl rfl)) hlost' (.inl hmem')⟩
    | false => exact ⟨p,.rest hdisk hrest hlost (.inl hmem)⟩
  | crash effect =>
    cases effect with
    | true => exact ⟨p,.down hdisk' (hrest' (.inr rfl)) hlost'⟩
    | false => exact ⟨p,.down hdisk hrest hlost⟩

/-- So does an action that is repeated until it succeeds. -/
theorem Valid.retried {effected : State} {next : Pc}
    (hlost : st.tables.lost=[]) (hdisk' : effected.disk=persist p)
    (hlost' : effected.tables.lost=[])
    (hrest : (∃ effect, o=.crash effect)→Resting original s st p ∧ Resting original s effected p)
    (hnext : Valid original s {effected with pc := next} p) :
    Valid original s (State.retried o st effected next) p := by
  cases o with
  | ok | lost _ => exact hnext
  | crash effect =>
    obtain ⟨hbefore,hafter⟩ := hrest ⟨effect,rfl⟩
    cases effect with
    | true => exact .down hdisk' hafter hlost'
    | false => exact .down hdisk hbefore hlost

end

/-- A process that is not at rest has the phase of the ledger. -/
theorem Valid.busy (h : Valid original s st p) (hpc : st.pc≠.idle) : st.mem=some p := by
  obtain hmem | ⟨hidle,-⟩ := h.mem
  · exact hmem
  · exact absurd hidle hpc

/-- The process goes on where it finds what it needs. -/
theorem Valid.at (hdisk : st.disk=persist p) (hmem : st.mem=some p)
    (hlost : st.tables.lost=[]) (hpc : pc≠.idle) (hfound : Found original s st pc p) :
    Valid original s {st with pc := pc} p := by
  refine ⟨hdisk,?_,.inl hmem,hlost,fun heq => absurd heq hpc⟩
  cases pc <;> cases p <;> exact hfound

/-- Actions before a load is recorded. -/
def Pc.records : Pc→Bool
  | .gate | .skip | .record => true
  | _ => false

theorem Found.pending (h : Found original s st pc p) (hpc : pc.records=true) : p=.pending := by
  cases pc <;> cases p <;> first | rfl | exact h.elim | cases hpc

theorem Found.swapped (h : Found original s st pc p) (hpc : pc.records=false)
    (hidle : pc≠.idle) : ∃ u, p=.swapped u := by
  cases p with
  | swapped u => exact ⟨u,rfl⟩
  | _ => cases pc <;> first | exact h.elim | exact absurd rfl hidle | cases hpc

/-- Actions of a pass before it exchanges the tables. -/
theorem act_records (h : Valid original s st p) (hpc : st.pc.records=true)
    {same : Bool} (hclean : Clean st (.act o same)) : ∃ q, Valid original s (act s st o same) q := by
  have hfound := h.found
  obtain rfl := hfound.pending hpc
  have hmem := h.busy (fun heq => by rw [heq] at hpc; cases hpc)
  have hrest := hfound.resting (by cases hat : st.pc <;> rw [hat] at hpc <;> first | rfl | cases hpc)
  unfold act
  cases hat : st.pc with
  | gate =>
    rw [hat] at hfound
    refine Valid.attempt h.disk hmem hrest h.lost h.disk hmem h.lost (fun _ => hrest)
      (q := .pending) ?_
    cases same with
    | true => exact .at h.disk hmem h.lost (by decide) hfound
    | false => exact .at h.disk hmem h.lost (by decide) hrest
  | skip =>
    obtain ⟨hlost,hrest',-⟩ := hfound.ran (congrArg Pc.statement hat) (by rw [hat]; decide) h.lost
    have hdone := @Valid.rest _ _ {st with tables := st.tables.drop s} _ h.disk hrest' hlost
      (.inl hmem)
    cases o with
    | ok => exact ⟨_,hdone⟩
    | lost effect =>
      cases effect with
      | true => exact ⟨_,hdone⟩
      | false => exact ⟨_,.rest h.disk hrest h.lost (.inl hmem)⟩
    | crash effect =>
      cases effect with
      | true => exact ⟨_,@Valid.down _ _ {st with tables := _} _ h.disk hrest' hlost⟩
      | false => exact ⟨_,.down h.disk hrest h.lost⟩
  | record =>
    rw [hat] at hfound
    obtain ⟨⟨u,hloaded⟩,hentry⟩ := hfound
    rw [hloaded.staging]
    cases o with
    | ok =>
      exact ⟨.swapped u,@Valid.at _ _ {st with disk := persist (.swapped u), mem := _} (.swapped u)
        .exchange rfl rfl h.lost (by decide) ⟨hloaded,hentry⟩⟩
    | lost effect =>
      cases effect with
      | true =>
        unfold Clean at hclean
        rw [hat] at hclean
        exact hclean.2.elim
      | false => exact ⟨_,.rest h.disk hrest h.lost (.inl hmem)⟩
    | crash effect =>
      cases effect with
      | true =>
        exact ⟨.swapped u,@Valid.down _ _ {st with disk := persist (.swapped u)} (.swapped u) rfl
          (.inl ⟨hloaded,hentry⟩) h.lost⟩
      | false => exact ⟨_,.down h.disk hrest h.lost⟩
  | _ =>
    rw [hat] at hpc
    cases hpc

/-- The staging name tells how far a recorded publish came. -/
theorem Found.look {u : ℕ} (hrest : Resting original s st (.swapped u)) :
    Found original s st (lookAt st.tables.staging u) (.swapped u) ∧
      lookAt st.tables.staging u≠.idle := by
  obtain ⟨hloaded,hentry⟩ | ⟨hswapped,hentry⟩ | ⟨hfinished,hentry⟩ := hrest
  · have hagain : lookAt st.tables.staging u=.gateAgain := by
      rw [hloaded.staging]
      exact if_pos rfl
    rw [hagain]
    exact ⟨⟨hloaded,hentry⟩,by decide⟩
  · obtain ⟨_,hstaging,huuid,-⟩ := hswapped.old
    have hgoes : lookAt st.tables.staging u=.activate := by
      rw [hstaging]
      exact if_neg (by rw [huuid]; exact hswapped.recorded.symm)
    rw [hgoes]
    exact ⟨⟨hswapped,hentry⟩,by decide⟩
  · rw [hfinished.gone]
    exact ⟨⟨hfinished,hentry⟩,nofun⟩

/-- Actions on a recorded load. -/
theorem act_recorded {u : ℕ} (h : Valid original s st (.swapped u)) (hidle : st.pc≠.idle)
    {same : Bool} (hclean : Clean st (.act o same)) :
    ∃ q, Valid original s (act s st o same) q := by
  have hfound := h.found
  have hmem := h.busy hidle
  unfold Clean at hclean
  replace hclean := hclean.2
  unfold act
  cases hat : st.pc with
  | idle => exact absurd hat hidle
  | gate | skip | record =>
    rw [hat] at hfound
    exact hfound.elim
  | exchange =>
    rw [hat] at hfound
    obtain ⟨hlost,hrest,-⟩ := hfound.ran rfl (by decide) h.lost
    obtain ⟨hloaded,hentry⟩ := hfound
    have hsome : st.tables.staging.isNone=false := by
      rw [hloaded.staging]
      rfl
    rw [hsome]
    exact Valid.attempt h.disk hmem (.inl ⟨hloaded,hentry⟩) h.lost h.disk hmem hlost
      (fun _ => hrest) (.at h.disk hmem hlost (by decide) ⟨hloaded.exchange,.inl hentry⟩)
  | activate =>
    rw [hat] at hfound
    obtain ⟨hswapped,hentry⟩ := hfound
    have hactive := State.Has.activate hentry
    exact ⟨_,.retried h.disk h.lost h.disk h.lost
      (fun _ => ⟨.inr (.inl ⟨hswapped,hentry⟩),.inr (.inl ⟨hswapped,.inr hactive⟩)⟩)
      (.at h.disk hmem h.lost (by decide) ⟨hswapped,hactive⟩)⟩
  | copyBack =>
    rw [hat] at hfound
    obtain ⟨hlost,hrest,-⟩ := hfound.ran rfl (by decide) h.lost
    obtain ⟨hswapped,hentry⟩ := hfound
    obtain ⟨hswapped',hcopied⟩ := hswapped.copyBack
    obtain ⟨_,hstaging,-⟩ := hswapped.old
    have hsome : st.tables.staging.isNone=false := by
      rw [hstaging]
      rfl
    rw [hsome]
    exact Valid.attempt h.disk hmem (.inr (.inl ⟨hswapped,.inr hentry⟩)) h.lost h.disk hmem hlost
      (fun _ => hrest) (.at h.disk hmem hlost (by decide) ⟨.inl hswapped',hentry,hcopied⟩)
  | dropStaging =>
    have hbefore := hfound.resting (by rw [hat]; rfl)
    rw [hat] at hfound
    obtain ⟨hlost,hrest,-⟩ := hfound.ran rfl (by decide) h.lost
    obtain ⟨htables,hentry,hcopied⟩ := hfound
    have hfinished : Finished original s (st.tables.drop s) := by
      rw [hcopied.drop]
      exact htables.elim (·.dropped hcopied) ({· with gone := rfl})
    exact Valid.attempt h.disk hmem hbefore h.lost h.disk hmem hlost (fun _ => hrest)
      (.at h.disk hmem hlost (by decide) ⟨hfinished,hentry⟩)
  | markDone =>
    rw [hat] at hfound
    have htold : some Phase.done=some .done ∧ Finished original s st.tables ∧ st.Has .active :=
      ⟨rfl,hfound⟩
    cases o with
    | ok =>
      exact ⟨.done,@Valid.rest _ _ {st with disk := _, mem := _} .done rfl hfound h.lost (.inl rfl)⟩
    | lost effect =>
      cases effect with
      | true =>
        exact ⟨.done,@Valid.rest _ _ {st with disk := _, mem := _} .done rfl hfound h.lost (.inl rfl)⟩
      | false =>
        exact ⟨_,@Valid.rest _ _ {st with mem := _} _ h.disk (.inr (.inr hfound)) h.lost (.inr htold)⟩
    | crash effect =>
      cases effect with
      | true => exact ⟨.done,@Valid.down _ _ {st with disk := _} .done rfl hfound h.lost⟩
      | false => exact ⟨_,.down h.disk (.inr (.inr hfound)) h.lost⟩
  | look =>
    rw [hat] at hfound
    obtain ⟨rfl,hrest⟩ := hfound
    obtain ⟨hnext,hbusy⟩ := Found.look hrest
    exact Valid.attempt h.disk hmem hrest h.lost h.disk hmem h.lost (fun _ => hrest)
      (.at h.disk hmem h.lost hbusy hnext)
  | gateAgain =>
    rw [hat] at hfound
    refine Valid.attempt h.disk hmem (.inl hfound) h.lost h.disk hmem h.lost (fun _ => .inl hfound)
      (q := .swapped u) ?_
    cases same with
    | true | false => exact .at h.disk hmem h.lost (by decide) hfound
  | ended =>
    rw [hat] at hfound
    have hactive := State.Has.activate (.inr hfound.2)
    exact ⟨_,.retried h.disk h.lost h.disk h.lost
      (fun _ => ⟨.inr (.inr hfound),.inr (.inr ⟨hfound.1,hactive⟩)⟩)
      (.at h.disk hmem h.lost (by decide) ⟨hfound.1,hactive⟩)⟩
  | abandonDrop =>
    rw [hat] at hfound hclean
    have hdrop := (@Unswapped.copied _ s _ hfound.1.toUnswapped).drop
    have hdropped : Unswapped original (st.tables.drop s) ∧ (st.tables.drop s).lost=[] := by
      rw [hdrop]
      exact ⟨hfound.1.toUnswapped.dropped,h.lost⟩
    refine Valid.attempt h.disk hmem (.inl hfound) h.lost h.disk hmem hdropped.2 (fun ho => ?_)
      (.at h.disk hmem hdropped.2 (by decide) ⟨hdropped.1,hfound.2.ne_active⟩)
    obtain rfl | rfl := ho
    · exact hclean.elim
    · exact hclean.elim
  | abandonHeld =>
    rw [hat] at hfound hclean
    have habsent := Held.discard_absent hfound.2
    refine ⟨_,.retried h.disk h.lost h.disk h.lost (fun ⟨effect,ho⟩ => ?_)
      (.at h.disk hmem h.lost (by decide) ⟨hfound.1,?_⟩)⟩
    · rw [ho] at hclean
      exact hclean.elim
    · change st.entry.discard≠.active
      rw [habsent]
      decide
  | abandonClear =>
    rw [hat] at hfound hclean
    have hdone : Valid original s (State.rest {st with disk := persist .pending, mem := some .pending})
        .pending := @Valid.rest _ _ {st with disk := _, mem := _} .pending rfl hfound h.lost (.inl rfl)
    cases o with
    | ok => exact ⟨.pending,hdone⟩
    | lost effect =>
      cases effect with
      | true => exact ⟨.pending,hdone⟩
      | false => exact hclean.elim
    | crash effect =>
      cases effect with
      | true => exact ⟨.pending,@Valid.down _ _ {st with disk := _} .pending rfl hfound h.lost⟩
      | false => exact hclean.elim

/-- A live row changes nothing of what the process finds. -/
theorem Found.deliver (r : EmittedRow) (h : Found original s st pc p) :
    Found original s {st with tables := st.tables.deliver r} pc p := by
  have hloaded : ∀ {u}, Loaded original u st.tables→Loaded original u (st.tables.deliver r) :=
    fun h => ⟨h.toUnswapped.deliver r,h.staging⟩
  have hfinished : Finished original s st.tables→Finished original s (st.tables.deliver r) :=
    fun h => ⟨h.toPublished.deliver r,h.gone,h.copied.deliver r⟩
  have hrest : Resting original s st p→Resting original s {st with tables := st.tables.deliver r} p := by
    intro h
    cases p with
    | pending => exact ⟨h.1.deliver r,h.2⟩
    | swapped => exact h.imp (.imp hloaded id) (.imp (.imp (·.deliver r) id) (.imp hfinished id))
    | done => exact ⟨hfinished h.1,h.2⟩
  cases pc with
  | idle => exact hrest h
  | gate | record | skip =>
    cases p with
    | pending => first | exact ⟨h.1.imp fun _ => hloaded,h.2⟩ | exact ⟨h.1.deliver r,h.2⟩
    | _ => exact h.elim
  | _ =>
    cases p with
    | swapped =>
      first
        | exact ⟨hloaded h.1,h.2⟩
        | exact ⟨h.1.deliver r,h.2⟩
        | exact ⟨h.1.imp (·.deliver r) hfinished,h.2.1,h.2.2.deliver r⟩
        | exact ⟨hfinished h.1,h.2⟩
        | exact ⟨h.1,hrest h.2⟩
    | _ => exact h.elim

/-- What the process finds is told by the tables and the open rows. -/
theorem Found.congr {st' : State} (h : Found original s st pc p) (htables : st'.tables=st.tables)
    (hentry : st'.entry=st.entry) (howed : st'.owed=st.owed) : Found original s st' pc p := by
  obtain ⟨_,_,_,_,_,_,_⟩ := st
  obtain ⟨_,_,_,_,_,_,_⟩ := st'
  subst htables hentry howed
  cases pc <;> cases p <;> exact h

/-- Statements that were given up on find what they were sent for. -/
def Awaits (original : Table) (s : UInt64) (st : State) (p : Phase) : Prop :=
  ∃ pc, (∀ q∈st.late,pc.statement=some q) ∧ pc≠.abandonDrop ∧ Found original s st pc p ∧
    (st.mem=some p ∨ st.pc=.idle ∧ st.mem=none) ∧
    if pc=.exchange then st.pc=.idle ∧ st.late.length≤1 else st.pc=.idle ∨ st.pc=pc

/-- The sequence ends, and a statement that was given up on may still run. -/
theorem Found.rest {q : Statement} (h : Found original s st pc p) (hq : pc.statement=some q)
    (hmem : st.mem=some p) : Found original s st.rest pc p := by
  cases p with
  | swapped => exact h.congr rfl (by unfold State.rest; rw [hmem]; rfl) rfl
  | done => cases pc <;> first | exact h.elim | cases hq
  | pending =>
    cases pc with
    | skip =>
      have hentry : st.rest.entry=.absent := by
        unfold State.rest
        rw [hmem]
        exact Held.discard_absent h.2
      exact ⟨h.1,by rw [hentry]; decide⟩
    | _ => first | exact h.elim | cases hq

/-- What holds in every state, with statements that may still run. -/
structure Kept (original : Table) (s : UInt64) (st : State) (p : Phase) : Prop
    extends Valid original s st p where
  late : st.late≠[]→Awaits original s st p

theorem Valid.kept (h : Valid original s st p) (hlate : st.late=[]) : Kept original s st p :=
  ⟨h,fun hne => absurd hlate hne⟩

theorem act_late (s : UInt64) (st : State) (o : Outcome) (same : Bool) :
    (act s st o same).late=st.late := by
  cases hpc : st.pc with
  | record =>
    cases hstaging : st.tables.staging <;> cases o <;>
      simp [act,hpc,hstaging,State.recorded,State.rest,State.down]
  | exchange | copyBack =>
    cases hstaging : st.tables.staging <;> cases o <;>
      simp [act,hpc,hstaging,State.attempt,State.rest,State.down,apply_ite]
  | _ =>
    cases o <;>
      simp [act,hpc,State.attempt,State.retried,State.noted,State.rest,State.down,apply_ite]

/-- A statement is given up on. -/
theorem stall_kept (h : Kept original s st p) (hclean : st.pc≠.abandonDrop) :
    Kept original s (stall st) p := by
  unfold stall
  cases hq : st.pc.statement with
  | none => exact h
  | some q =>
    have hbusy : st.pc≠.idle := fun heq => by rw [heq] at hq; cases hq
    have hmem := h.busy hbusy
    have hlate : st.late≠[]→st.pc≠.exchange ∧ ∀ x∈st.late,st.pc.statement=some x := by
      intro hne
      obtain ⟨pc,hsent,-,-,-,hat⟩ := h.late hne
      split at hat
      · exact absurd hat.1 hbusy
      · obtain rfl := hat.resolve_left hbusy
        exact ⟨‹_›,hsent⟩
    cases q with
    | exchange =>
      have hat : st.pc=.exchange := by
        cases hpc : st.pc <;> rw [hpc] at hq <;> first | rfl | cases hq
      have hnone : st.late=[] := by
        by_contra hne
        exact (hlate hne).1 hat
      have hrest := h.found.resting (by rw [hat]; rfl)
      refine ⟨@Valid.rest _ _ {st with late := _} _ h.disk ?_ h.lost (.inl hmem),fun _ => ?_⟩
      · cases p <;> exact hrest
      · refine ⟨.exchange,?_,by decide,?_,.inl hmem,?_⟩
        · simp [State.rest,hnone,Pc.statement]
        · have hfound := h.found.rest hq hmem
          rw [hat] at hfound
          exact hfound.congr rfl rfl rfl
        · rw [if_pos rfl]
          exact ⟨rfl,by simp [State.rest,hnone]⟩
    | copyBack | drop =>
      have hne : st.pc≠.exchange := fun heq => by rw [heq] at hq; cases hq
      refine ⟨⟨h.disk,h.found.congr rfl rfl rfl,.inl hmem,h.lost,h.fresh⟩,fun _ => ?_⟩
      refine ⟨st.pc,fun x hx => ?_,hclean,h.found.congr rfl rfl rfl,.inl hmem,?_⟩
      · obtain rfl | hx := mem_cons.mp hx
        · exact hq
        · exact (hlate (ne_nil_of_mem hx)).2 x hx
      · rw [if_neg hne]
        exact .inr rfl

/-- A statement that was given up on runs, or never will. -/
theorem lands_kept (h : Kept original s st p) {q : Statement} (hq : q∈st.late) (effect : Bool) :
    Kept original s {st with
      tables := if effect then q.run s st.tables else st.tables
      late := st.late.erase q} p := by
  obtain ⟨pc,hsent,hpc,hfound,hmem,hat⟩ := h.late (ne_nil_of_mem hq)
  have hran : (if effect then q.run s st.tables else st.tables).lost=[] ∧
      Found original s {st with tables := if effect then q.run s st.tables else st.tables} st.pc p ∧
      (pc≠.exchange →
        Found original s {st with tables := if effect then q.run s st.tables else st.tables} pc p) := by
    cases effect with
    | false => exact ⟨h.lost,h.found,fun _ => hfound⟩
    | true =>
      obtain ⟨hlost,hrest,hagain⟩ := hfound.ran (hsent q hq) hpc h.lost
      refine ⟨hlost,?_,hagain⟩
      split at hat
      · rw [hat.1]
        exact hrest
      · obtain hidle | rfl := hat
        · rw [hidle]
          exact hrest
        · exact hagain ‹_›
  refine ⟨⟨h.disk,hran.2.1.congr rfl rfl rfl,hmem.imp id (.imp id .inl),hran.1,h.fresh⟩,fun hne => ?_⟩
  split at hat
  · refine absurd (length_eq_zero_iff.mp ?_) hne
    rw [length_erase_of_mem hq]
    omega
  · exact ⟨pc,fun x hx => hsent x (mem_of_mem_erase hx),hpc,(hran.2.2 ‹_›).congr rfl rfl rfl,hmem,
      by rwa [if_neg ‹_›]⟩

/-- One clean event. -/
theorem step_kept (h : Kept original s st p) {e : Event} (hclean : Clean st e) :
    ∃ q, Kept original s (step s st e) q := by
  cases e with
  | boot =>
    dsimp only [step]
    cases hmem : st.mem with
    | some => exact ⟨p,h⟩
    | none =>
      obtain hsome | ⟨hidle,-⟩ := h.mem
      · rw [hmem] at hsome
        cases hsome
      have hrest := h.found
      rw [hidle] at hrest
      have hload : load st.disk=some p := by rw [h.disk,load_persist]
      rw [hload]
      refine ⟨p,@Valid.rest _ _ {st with mem := some p} _ h.disk ?_ h.lost (.inl rfl),fun hne => ?_⟩
      · cases p <;> exact hrest
      · obtain ⟨pc,hsent,hpc,hfound,-,hat⟩ := h.late hne
        obtain ⟨q,hq⟩ := exists_mem_of_ne_nil _ hne
        refine ⟨pc,hsent,hpc,?_,.inl rfl,?_⟩
        · exact (@Found.congr _ _ _ _ _ {st with mem := some p} hfound rfl rfl rfl).rest (hsent q hq) rfl
        · split at hat
          · rw [if_pos ‹_›]
            exact ⟨rfl,hat.2⟩
          · rw [if_neg ‹_›]
            exact .inl rfl
  | pass uuid rows =>
    dsimp only [step]
    split
    · rename_i hguard
      obtain ⟨hidle,hmem,huuid⟩ := hguard
      have hrest := h.found
      rw [hidle] at hrest
      obtain hsome | ⟨-,hnone | ⟨hdone,-⟩⟩ := h.mem
      · obtain rfl : p=.pending := Option.some.inj (hsome.symm.trans hmem)
        have hentry := h.fresh hidle hmem
        rw [(@Unswapped.copied _ s _ hrest.1).drop]
        refine ⟨.pending,Valid.kept ⟨h.disk,⟨⟨uuid,⟨hrest.1.never,hrest.1.uuid,hrest.1.rows,?_⟩,rfl⟩,
          ?_⟩,.inl hmem,h.lost,nofun⟩ hclean⟩
        · intro new hnew
          cases hnew
          rw [←hrest.1.uuid]
          exact huuid
        · unfold State.Has
          rw [hentry]
      · rw [hmem] at hnone
        cases hnone
      · rw [hmem] at hdone
        cases hdone
    · exact ⟨p,h⟩
  | resume =>
    dsimp only [step]
    split
    · rename_i u hidle hmem
      have hrest := h.found
      rw [hidle] at hrest
      obtain hsome | ⟨-,hnone | ⟨hdone,-⟩⟩ := h.mem
      · obtain rfl : p=.swapped u := Option.some.inj (hsome.symm.trans hmem)
        exact ⟨_,Valid.kept (.at h.disk hmem h.lost nofun ⟨rfl,hrest⟩) hclean⟩
      · rw [hmem] at hnone
        cases hnone
      · rw [hmem] at hdone
        cases hdone
    · exact ⟨p,h⟩
  | act o same =>
    by_cases hidle : st.pc=.idle
    · refine ⟨p,?_⟩
      unfold step act
      rw [hidle]
      exact h
    have hlate : (step s st (.act o same)).late=[] := (act_late s st o same).trans hclean.1
    cases hpc : st.pc.records with
    | true => exact (act_records h.toValid hpc hclean).imp fun _ hq => hq.kept hlate
    | false =>
      obtain ⟨_,rfl⟩ := h.found.swapped hpc hidle
      exact (act_recorded h.toValid hidle hclean).imp fun _ hq => hq.kept hlate
  | crash =>
    refine ⟨p,.down h.disk (h.found.resting hclean) h.lost,fun hne => ?_⟩
    obtain ⟨pc,hsent,hpc,hfound,-,hat⟩ := h.late hne
    refine ⟨pc,hsent,hpc,hfound.congr rfl rfl rfl,.inr ⟨rfl,rfl⟩,?_⟩
    split at hat
    · rw [if_pos ‹_›]
      exact ⟨rfl,hat.2⟩
    · rw [if_neg ‹_›]
      exact .inl rfl
  | live r =>
    refine ⟨p,⟨h.disk,h.found.deliver r,?_,h.lost,h.fresh⟩,fun hne => ?_⟩
    · refine h.mem.imp id (.imp id (.imp id fun ⟨hdone,hfinished,hentry⟩ => ⟨hdone,?_,hentry⟩))
      exact ⟨hfinished.toPublished.deliver r,hfinished.gone,hfinished.copied.deliver r⟩
    · obtain ⟨pc,hsent,hpc,hfound,hat⟩ := h.late hne
      exact ⟨pc,hsent,hpc,hfound.deliver r,hat⟩
  | stall => exact ⟨p,stall_kept h hclean⟩
  | lands q effect =>
    dsimp only [step]
    split
    · exact ⟨p,lands_kept h ‹_› effect⟩
    · exact ⟨p,h⟩

theorem run_kept (h : Kept original s st p) {es : List Event} (hclean : CleanRun s st es) :
    ∃ q, Kept original s (run s st es) q := by
  induction es generalizing st p with
  | nil => exact ⟨p,h⟩
  | cons _ _ ih =>
    obtain ⟨_,hq⟩ := step_kept h hclean.1
    exact ih hq hclean.2

theorem start_kept (original : Table) (s : UInt64) :
    Kept original s (State.start original) .pending := by
  refine Valid.kept ⟨rfl,⟨⟨rfl,rfl,fun r => ?_,nofun⟩,?_⟩,.inr ⟨rfl,.inl rfl⟩,rfl,nofun⟩ rfl
  · simp [State.start]
  · exact nofun

/-- A boot and the actions of a resume. -/
def recovery (same : Bool) : List Event :=
  [.crash,.boot,.resume]++List.replicate 7 (.act .ok same)

theorem clean_acts (hlate : st.late=[]) (n : ℕ) (same : Bool) :
    CleanRun s st (List.replicate n (.act .ok same)) ∧
      (run s st (List.replicate n (.act .ok same))).late=[] := by
  induction n generalizing st with
  | zero => exact ⟨trivial,hlate⟩
  | succ _ ih =>
    obtain ⟨hclean,hnone⟩ := ih ((act_late s st .ok same).trans hlate)
    refine ⟨⟨⟨hlate,?_⟩,hclean⟩,hnone⟩
    cases st.pc <;> trivial

/-- Statements that were given up on run or never will. -/
def landed (ran : Statement→Bool) (st : State) : List Event :=
  st.late.map fun q => .lands q (ran q)

theorem clean_landed (ran : Statement→Bool) (s : UInt64) (st : State) :
    CleanRun s st (landed ran st) ∧ (run s st (landed ran st)).late=[] := by
  unfold landed
  induction hlate : st.late generalizing st with
  | nil => exact ⟨trivial,hlate⟩
  | cons q qs ih =>
    have hnext : (step s st (.lands q (ran q))).late=qs := by
      dsimp only [step]
      rw [hlate,if_pos mem_cons_self]
      exact erase_cons_head q qs
    obtain ⟨hclean,hnone⟩ := ih _ hnext
    exact ⟨⟨trivial,hclean⟩,hnone⟩

/-- A load that is being discarded is cleared by the next actions. -/
theorem exists_cleared (s : UInt64) (st : State) (same : Bool) :
    ∃ n, (run s st (List.replicate n (.act .ok same))).pc.abandons=false := by
  cases hpc : st.pc with
  | abandonHeld =>
    refine ⟨2,?_⟩
    simp [replicate,run,step,act,hpc,State.retried,State.noted,State.rest,Pc.abandons]
  | abandonClear =>
    refine ⟨1,?_⟩
    simp [replicate,run,step,act,hpc,State.noted,State.rest,Pc.abandons]
  | _ =>
    refine ⟨0,?_⟩
    simp [run,hpc,Pc.abandons]

theorem clean_recovery (hlate : st.late=[]) (hpc : st.pc.abandons=false) (same : Bool) :
    CleanRun s st (recovery same) := by
  have hboot : (step s st.down .boot).late=[] := by
    dsimp only [step]
    split <;> exact hlate
  refine ⟨hpc,trivial,hboot,(clean_acts ?_ 7 same).1⟩
  change (step s (step s st.down .boot) .resume).late=[]
  generalize step s st.down .boot=booted at hboot
  dsimp only [step]
  split <;> exact hboot

/-- Process and ledger have the load done or pending. -/
def State.Settled (st : State) : Prop :=
  ∃ p, p.isSwapped=false ∧ st.pc=.idle ∧ st.mem=some p ∧ st.disk=persist p

/-- A boot that is not interrupted. -/
theorem settled_recovery (h : Valid original s st p) (hpc : st.pc.abandons=false) (same : Bool) :
    (run s st (recovery same)).Settled := by
  have hrest := h.found.resting hpc
  have hdisk := h.disk
  cases p with
  | pending =>
    refine ⟨.pending,rfl,?_⟩
    simp [recovery,run,step,act,State.down,State.rest,hdisk,load_persist]
  | done =>
    refine ⟨.done,rfl,?_⟩
    simp [recovery,run,step,act,State.down,State.rest,hdisk,load_persist]
  | swapped u =>
    obtain ⟨hloaded,-⟩ | ⟨hswapped,-⟩ | ⟨hfinished,-⟩ := hrest
    · have hstaging := hloaded.staging
      cases same with
      | true =>
        refine ⟨.done,rfl,?_⟩
        simp [recovery,run,step,act,State.down,State.rest,hdisk,load_persist,hstaging,
          State.attempt,lookAt,State.retried,State.noted,Tables.exchange,Tables.copyBack,
          Tables.drop,Phase.isSwapped,replicate]
      | false =>
        refine ⟨.pending,rfl,?_⟩
        simp [recovery,run,step,act,State.down,State.rest,hdisk,load_persist,hstaging,
          State.attempt,lookAt,State.retried,State.noted,Tables.drop,Phase.isSwapped,
          replicate]
    · obtain ⟨old,hstaging,huuid,-⟩ := hswapped.old
      have hother : old.uuid≠u := fun heq => hswapped.recorded (heq.symm.trans huuid)
      refine ⟨.done,rfl,?_⟩
      simp [recovery,run,step,act,State.down,State.rest,hdisk,load_persist,hstaging,hother,
        State.attempt,lookAt,State.retried,State.noted,Tables.copyBack,Tables.drop,
        Phase.isSwapped,replicate]
    · refine ⟨.done,rfl,?_⟩
      simp [recovery,run,step,act,State.down,State.rest,hdisk,load_persist,hfinished.gone,
        State.attempt,lookAt,State.retried,State.noted,Phase.isSwapped,replicate]

/-- What holds in every state. -/
structure Sound (original : Table) (s : UInt64) (st : State) : Prop where
  exchanges : st.tables.exchanges≤1
  /-- No drop took a live row of the window with it. -/
  lost : st.tables.lost=[]
  done : load st.disk=some .done→Finished original s st.tables ∧ st.Has .active
  pending : load st.disk=some .pending→Unswapped original st.tables

theorem Resting.exchanges_le (h : Resting original s st p) : st.tables.exchanges≤1 := by
  cases p with
  | pending => exact h.1.never.le.trans (Nat.zero_le 1)
  | swapped =>
    obtain ⟨hloaded,-⟩ | ⟨hswapped,-⟩ | ⟨hfinished,-⟩ := h
    · exact hloaded.never.le.trans (Nat.zero_le 1)
    · exact hswapped.once.le
    · exact hfinished.once.le
  | done => exact h.1.once.le

/-- A load that is being discarded was recorded and not published. -/
theorem Found.abandoned (h : Found original s st pc p) (hpc : pc.abandons=true) :
    p.isSwapped=true ∧ Unswapped original st.tables := by
  cases pc with
  | abandonHeld | abandonClear =>
    cases p with
    | swapped => exact ⟨rfl,h.1⟩
    | _ => exact h.elim
  | _ => cases hpc

theorem Valid.sound (h : Valid original s st p) : Sound original s st := by
  have hload : load st.disk=some p := by rw [h.disk,load_persist]
  cases hpc : st.pc.abandons with
  | true =>
    obtain ⟨hswapped,hunswapped⟩ := h.found.abandoned hpc
    refine ⟨hunswapped.never.le.trans (Nat.zero_le 1),h.lost,fun hdone => ?_,fun _ => hunswapped⟩
    obtain rfl := Option.some.inj (hload.symm.trans hdone)
    cases hswapped
  | false =>
    have hrest := h.found.resting hpc
    refine ⟨hrest.exchanges_le,h.lost,fun hdone => ?_,fun hpending => ?_⟩
    · obtain rfl := Option.some.inj (hload.symm.trans hdone)
      exact hrest
    · obtain rfl := Option.some.inj (hload.symm.trans hpending)
      exact hrest.1

end Invariant

/-- Every state of a clean run is sound. Once no statement may still run, a boot that is
not interrupted ends with the load done or pending. -/
theorem publish_recovers (original : Table) (s : UInt64) (es : List Event)
    (hclean : CleanRun s (State.start original) es) :
    Sound original s (run s (State.start original) es) ∧
    ∀ ran same, ∃ n, ∀ es', es'=es++(landed ran (run s (State.start original) es)++
        (List.replicate n (.act .ok same)++recovery same)) →
      Sound original s (run s (State.start original) es') ∧
        (run s (State.start original) es').Settled := by
  obtain ⟨_,hp⟩ := run_kept (start_kept original s) hclean
  refine ⟨hp.toValid.sound,fun ran same => ?_⟩
  obtain ⟨hlanded,hlate⟩ := clean_landed ran s (run s (State.start original) es)
  obtain ⟨_,hp⟩ := run_kept hp hlanded
  obtain ⟨n,hn⟩ := exists_cleared s (run s (run s (State.start original) es)
    (landed ran (run s (State.start original) es))) same
  refine ⟨n,fun es' hes => ?_⟩
  obtain ⟨hacts,hnone⟩ := clean_acts hlate n same
  obtain ⟨_,hq⟩ := run_kept hp hacts
  have hsplit : run s (State.start original) es'=run s (run s (run s (run s (State.start original) es)
      (landed ran (run s (State.start original) es))) (replicate n (.act .ok same)))
      (recovery same) := by
    rw [hes]
    unfold run
    rw [foldl_append,foldl_append,foldl_append]
  obtain ⟨_,hr⟩ := run_kept hq (clean_recovery hnone hn same)
  rw [hsplit]
  exact ⟨hr.toValid.sound,settled_recovery hq.toValid hn same⟩

/-- A row with a version. -/
def rowAt (lsn : UInt64) : EmittedRow := ⟨[],lsn,1,false⟩

/-- The load is recorded and the exchange given up on, with live rows before and after it
runs. The copy and the drop are each done by a process that ends before it can say so. -/
def interrupted : List Event :=
  [.boot,.pass 2 [rowAt 8] true,.live (rowAt 24),.act .ok true,.act .ok true,.stall,.crash,
    .live (rowAt 32),.lands .exchange true,.live (rowAt 40),.boot,.resume,.act .ok true,
    .act .ok true,.act (.crash true) true,
    .boot,.resume,.act .ok true,.act .ok true,.act .ok true,.act (.crash true) true,.boot,.resume,
    .act .ok true,.act .ok true,.act .ok true]

theorem publish_recovers_interrupted :
    (run 16 (State.start ⟨1,[]⟩) interrupted).tables.exchanges=1 ∧
    (run 16 (State.start ⟨1,[]⟩) interrupted).disk=persist .done ∧
    Sound ⟨1,[]⟩ 16 (run 16 (State.start ⟨1,[]⟩) interrupted) := by
  have hclean : CleanRun 16 (State.start ⟨1,[]⟩) interrupted := by
    repeat' constructor
    exact (by decide : Pc.exchange≠.abandonDrop)
  exact ⟨by decide,by decide,(publish_recovers ⟨1,[]⟩ 16 interrupted hclean).1⟩

/-- The load is recorded and the process ends before the exchange. The shape of the table
changes, and the next boot drops the load and ends before it clears the record. -/
def discarded : List Event :=
  [.boot,.pass 2 [rowAt 8] false,.act .ok true,.act .ok true,.crash,.boot,.resume,.act .ok false,
    .act .ok false,.act (.crash true) false]

/-- The record of the load reaches the ledger file and is reported as failed. Another pass
rebuilds the staging table. -/
def unrecorded : List Event :=
  [.boot,.pass 2 [rowAt 8] false,.act .ok true,.act (.lost true) true,.pass 3 [rowAt 8] false,.crash]

/-- The exchange is given up on and runs after the next boot looked for it and sent
another. -/
def overtaken : List Event :=
  [.boot,.pass 2 [rowAt 8] false,.act .ok true,.act .ok true,.stall,.crash,.boot,.resume,.act .ok true,
    .act .ok true,.act .ok true,.lands .exchange true,.act .ok true,.act .ok true,.act .ok true,
    .act .ok true]

/-- The boot after the first two takes the load for done, though the tables were never
exchanged. The third exchanges them twice and drops the load. -/
theorem discarded_load_done :
    (load (run 16 (State.start ⟨1,[]⟩) (discarded++recovery true)).disk=some .done ∧
      (run 16 (State.start ⟨1,[]⟩) (discarded++recovery true)).tables.exchanges=0) ∧
    (load (run 16 (State.start ⟨1,[]⟩) (unrecorded++recovery true)).disk=some .done ∧
      (run 16 (State.start ⟨1,[]⟩) (unrecorded++recovery true)).tables.exchanges=0) ∧
    load (run 16 (State.start ⟨1,[]⟩) overtaken).disk=some .done ∧
      (run 16 (State.start ⟨1,[]⟩) overtaken).tables.exchanges=2 ∧
      (run 16 (State.start ⟨1,[]⟩) overtaken).tables.real=⟨1,[]⟩ := by
  decide

end Walshadow.StagedPublish
