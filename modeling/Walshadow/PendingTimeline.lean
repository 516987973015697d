import Walshadow.Records
import Walshadow.VersionChain

/-!
# Speculative catalog timeline of open transactions

Shapes read at command boundaries, visible only to the writing transaction and
durable only once its commit promotes them. Keys are tree roots as known at
capture time, so a commit first folds its members' keys into one timeline. An
abort removes the aborted members' shapes and leaves nothing to compensate.
-/

namespace Walshadow.PendingTimeline

open Records VersionChain

/-- Why a transaction's coverage stopped being trustworthy. -/
inductive DegradeReason where
  | captureAll
  | capExceeded
  | holdBudget
  | replayMismatch
  | queryError
deriving DecidableEq

/-- Order of shapes inside one chain. -/
def slotKey (s : PendingSlot) : ℕ := s.validFrom.toNat

/-- One transaction tree's timeline. -/
structure PendingXact where
  chains : RelFileNode→List PendingSlot
  /-- Filenodes with a chain. -/
  rfns : List RelFileNode
  /-- Chains per relation. -/
  byOid : Oid→List PendingSlot
  boundaries : ℕ
  /-- Parked time charged. -/
  holdNanos : ℕ
  /-- First reason coverage was lost. -/
  degraded : Option DegradeReason

/-- Timeline of a transaction never seen. -/
def PendingXact.default : PendingXact := ⟨fun _ => [],[],fun _ => [],0,0,none⟩

/-- Record one shape under its filenode and its relation. -/
def PendingXact.push (x : PendingXact) (slot : PendingSlot) : PendingXact :=
  { x with
    chains := filed (fun s => some s.desc.rfn) (insertOrReplace slotKey) x.chains slot
    rfns := if slot.desc.rfn∈x.rfns then x.rfns else x.rfns++[slot.desc.rfn]
    byOid := filed (fun s => some s.desc.oid) (insertOrReplace slotKey) x.byOid slot }

/-- Fold another key's timeline in. -/
def PendingXact.absorb (x other : PendingXact) : PendingXact :=
  { boundaries := x.boundaries+other.boundaries
    holdNanos := x.holdNanos+other.holdNanos
    degraded := x.degraded.or other.degraded
    chains := fun r => (other.chains r).foldl (insertOrReplace slotKey) (x.chains r)
    rfns := x.rfns++other.rfns.filter (fun r => decide (r∉x.rfns))
    byOid := fun o => (other.byOid o).foldl (insertOrReplace slotKey) (x.byOid o) }

/-- Number of shapes held. -/
def PendingXact.slots (x : PendingXact) : ℕ := (x.rfns.map (fun r => (x.chains r).length)).sum

/-- Shapes a set of writers did not write. -/
def keepWriters (members : List Xid) (slots : List PendingSlot) : List PendingSlot :=
  slots.filter (fun s => !members.contains s.writerXid)

/-- Drop every shape a member of an aborting subtree wrote. -/
def PendingXact.dropWriters (x : PendingXact) (members : List Xid) : PendingXact :=
  { x with
    chains := fun r => keepWriters members (x.chains r)
    rfns := x.rfns.filter (fun r => !(keepWriters members (x.chains r)).isEmpty)
    byOid := fun o => keepWriters members (x.byOid o) }

/-- Timelines of all open catalog-dirty transactions. -/
abbrev PendingCatalog := Xid→Option PendingXact

/-- Timeline under a key, created on demand. -/
def PendingCatalog.entry (p : PendingCatalog) (xid : Xid) : PendingXact :=
  (p xid).getD PendingXact.default

/-- Store a timeline. -/
def PendingCatalog.put (p : PendingCatalog) (xid : Xid) (x : PendingXact) : PendingCatalog :=
  fun k => if k=xid then some x else p k

/-- Remove a timeline. -/
def PendingCatalog.remove (p : PendingCatalog) (xid : Xid) : PendingCatalog :=
  fun k => if k=xid then none else p k

/-- Admit one command boundary against the transaction's caps. A refusal
degrades the transaction; the error names the reason when this call is what
degraded it. -/
def PendingCatalog.admitBoundary (p : PendingCatalog) (topXid : Xid)
    (maxBoundaries holdBudgetNanos : ℕ) : Except (Option DegradeReason) Unit×PendingCatalog :=
  let x := p.entry topXid
  if x.degraded.isSome then (.error none,p.put topXid x)
  else if maxBoundaries≤x.boundaries then
    (.error (some .capExceeded),p.put topXid { x with degraded := some .capExceeded })
  else if holdBudgetNanos≤x.holdNanos then
    (.error (some .holdBudget),p.put topXid { x with degraded := some .holdBudget })
  else (.ok (),p.put topXid { x with boundaries := x.boundaries+1 })

/-- Charge a released hold. -/
def PendingCatalog.chargeHold (p : PendingCatalog) (topXid : Xid) (nanos : ℕ) : PendingCatalog :=
  let x := p.entry topXid
  p.put topXid { x with holdNanos := x.holdNanos+nanos }

/-- Lose coverage; the first reason sticks. -/
def PendingCatalog.degrade (p : PendingCatalog) (topXid : Xid) (reason : DegradeReason) :
    PendingCatalog :=
  let x := p.entry topXid
  p.put topXid (if x.degraded.isSome then x else { x with degraded := some reason })

/-- Install one boundary's shapes. -/
def PendingCatalog.record (p : PendingCatalog) (topXid : Xid) (slots : List PendingSlot) :
    PendingCatalog :=
  if slots.isEmpty then p else p.put topXid (slots.foldl PendingXact.push (p.entry topXid))

/-- Whether an earlier boundary of the transaction recorded the filenode. -/
def PendingCatalog.hasSlots (p : PendingCatalog) (topXid : Xid) (rfn : RelFileNode) : Bool :=
  (p topXid).any (fun x => decide (rfn∈x.rfns))

/-- Fold one member's key into the timeline gathered so far. -/
def foldMember (acc : Option PendingXact×PendingCatalog) (m : Xid) :
    Option PendingXact×PendingCatalog :=
  match acc.2 m with
  | none => acc
  | some other =>
    (some (match acc.1 with
      | some x => x.absorb other
      | none => other),acc.2.remove m)

/-- Fold every member key into the top. -/
def PendingCatalog.consolidate (p : PendingCatalog) (topXid : Xid) (members : List Xid) :
    PendingCatalog :=
  let folded := (members.filter (fun m => m != topXid)).foldl foldMember (p topXid,p.remove topXid)
  match folded.1 with
  | some x => folded.2.put topXid x
  | none => folded.2

/-- What a timeline says at promotion. -/
structure PromotedXact where
  /-- Shapes per relation. -/
  byOid : Oid→List PendingSlot
  /-- Lost coverage. -/
  degraded : Option DegradeReason

/-- One relation's shapes in order. -/
def PromotedXact.slotsFor (p : PromotedXact) (oid : Oid) : List PendingSlot := p.byOid oid

/-- Position from which the timeline answers for a relation. A degraded
transaction missed a boundary, so nothing of it is covered. -/
def PromotedXact.coverageFrom (p : PromotedXact) (oid : Oid) : Option Lsn :=
  if p.degraded.isSome then none else (p.slotsFor oid).head?.map PendingSlot.validFrom

/-- The consolidated timeline, left in place for the drain. -/
def PendingCatalog.promoted (p : PendingCatalog) (topXid : Xid) : Option PromotedXact :=
  (p topXid).map (fun x => ⟨x.byOid,x.degraded⟩)

/-- Drop a finished tree. -/
def PendingCatalog.forgetTree (p : PendingCatalog) (topXid : Xid) : PendingCatalog :=
  p.remove topXid

/-- Drop an aborted subtree: timelines keyed under a member, and shapes any
member wrote under another key. A tree left without shapes keeps its caps and
its degrade verdict. -/
def PendingCatalog.forgetMembers (p : PendingCatalog) (members : List Xid) : PendingCatalog :=
  fun k =>
    if members.contains k then none
    else
      ((p k).map (fun x => x.dropWriters members)).filter
        (fun x => decide (0<x.slots) || decide (0<x.boundaries) || x.degraded.isSome)

/-- Every relation's shapes ascend strictly, describe that relation and start at
or below `bound`. -/
def PendingXact.Sound (x : PendingXact) (bound : ℕ) : Prop :=
  ∀ o, StrictBy slotKey (x.byOid o) ∧ ∀ s∈x.byOid o,s.desc.oid=o ∧ slotKey s≤bound

/-- All timelines are sound up to `bound`. -/
def PendingCatalog.Sound (p : PendingCatalog) (bound : ℕ) : Prop :=
  ∀ xid x, p xid=some x→x.Sound bound

theorem PendingXact.sound_default (bound : ℕ) : PendingXact.default.Sound bound :=
  fun _ => ⟨List.Pairwise.nil,nofun⟩

variable {x : PendingXact} {p : PendingCatalog} {bound : ℕ}

/-- A higher bound holds too. -/
theorem PendingXact.Sound.mono {b b' : ℕ} (h : x.Sound b) (hb : b≤b') : x.Sound b' :=
  fun o => ⟨(h o).1,fun s hs => ⟨((h o).2 s hs).1,((h o).2 s hs).2.trans hb⟩⟩

theorem PendingCatalog.Sound.mono {b b' : ℕ} (h : p.Sound b) (hb : b≤b') : p.Sound b' :=
  fun xid x hx => (h xid x hx).mono hb

variable {slots : List PendingSlot} {slot : PendingSlot}

/-- Chains stay sound under one more shape. -/
theorem sound_insertOrReplace {o : Oid}
    (h : StrictBy slotKey slots ∧ ∀ s∈slots,s.desc.oid=o ∧ slotKey s≤bound)
    (hslot : slot.desc.oid=o ∧ slotKey slot≤bound) :
    StrictBy slotKey (insertOrReplace slotKey slots slot) ∧
      ∀ s∈insertOrReplace slotKey slots slot,s.desc.oid=o ∧ slotKey s≤bound := by
  refine ⟨h.1.insertOrReplace slot,fun s hs => ?_⟩
  rcases mem_insertOrReplace h.1 hs with rfl|hmem
  · exact hslot
  · exact h.2 s hmem

/-- A shape within the bound is filed soundly. -/
theorem PendingXact.Sound.push (h : x.Sound bound)
    (hslot : slotKey slot≤bound) : (x.push slot).Sound bound := by
  intro o
  by_cases ho : slot.desc.oid=o
  · simp only [PendingXact.push,filed,ho]
    exact sound_insertOrReplace (h o) ⟨ho,hslot⟩
  · have hne : ¬ some slot.desc.oid=some o := fun heq => ho (Option.some.inj heq)
    simp only [PendingXact.push,filed,if_neg hne]
    exact h o

/-- Two sound timelines fold into one. -/
theorem PendingXact.Sound.absorb {other : PendingXact} (h : x.Sound bound)
    (hother : other.Sound bound) : (x.absorb other).Sound bound := by
  intro o
  exact List.foldlRecOn
    (motive := fun slots => StrictBy slotKey slots ∧ ∀ s∈slots,s.desc.oid=o ∧ slotKey s≤bound)
    _ _ (h o) (fun _ hs y hy => sound_insertOrReplace hs ((hother o).2 y hy))

/-- What is left of a sound chain is sound. -/
theorem PendingXact.Sound.dropWriters (h : x.Sound bound) (members : List Xid) :
    (x.dropWriters members).Sound bound :=
  fun o => ⟨(h o).1.filter _,fun s hs => (h o).2 s (List.mem_filter.mp hs).1⟩

section

variable (h : p.Sound bound) (xid : Xid)

include h xid

/-- A new entry is empty. -/
theorem PendingCatalog.Sound.entry : (p.entry xid).Sound bound := by
  unfold PendingCatalog.entry
  cases hx : p xid with
  | none => exact PendingXact.sound_default bound
  | some x => exact h xid x hx

theorem PendingCatalog.Sound.put (hx : x.Sound bound) : (p.put xid x).Sound bound := by
  intro k y hy
  simp only [PendingCatalog.put] at hy
  split at hy
  · exact Option.some.inj hy ▸ hx
  · exact h k y hy

theorem PendingCatalog.Sound.remove : (p.remove xid).Sound bound := by
  intro k y hy
  simp only [PendingCatalog.remove] at hy
  split at hy
  · cases hy
  · exact h k y hy

/-- Admission changes no chain. -/
theorem PendingCatalog.Sound.admitBoundary (maxBoundaries budget : ℕ) :
    (p.admitBoundary xid maxBoundaries budget).2.Sound bound := by
  have he := h.entry xid
  unfold PendingCatalog.admitBoundary
  dsimp only
  split
  · exact h.put xid he
  split
  · exact h.put xid he
  split
  · exact h.put xid he
  · exact h.put xid he

/-- Nor does degrading. -/
theorem PendingCatalog.Sound.degrade (reason : DegradeReason) :
    (p.degrade xid reason).Sound bound := by
  have he := h.entry xid
  refine h.put xid ?_
  split
  · exact he
  · exact he

theorem PendingCatalog.Sound.chargeHold (nanos : ℕ) : (p.chargeHold xid nanos).Sound bound :=
  h.put xid (h.entry xid)

/-- Shapes of a boundary are recorded soundly. -/
theorem PendingCatalog.Sound.record (hslots : ∀ s∈slots,slotKey s≤bound) :
    (p.record xid slots).Sound bound := by
  have hpushed : (slots.foldl PendingXact.push (p.entry xid)).Sound bound :=
    List.foldlRecOn (motive := fun x : PendingXact => x.Sound bound) slots _ (h.entry xid)
      (fun _ hx s hs => hx.push (hslots s hs))
  unfold PendingCatalog.record
  split
  · exact h
  · exact h.put xid hpushed

/-- Members fold soundly into their tree. -/
theorem PendingCatalog.Sound.consolidate (members : List Xid) :
    (p.consolidate xid members).Sound bound := by
  have hfold : ∀ (ms : List Xid) (acc : Option PendingXact×PendingCatalog),
      (∀ x, acc.1=some x→x.Sound bound)→acc.2.Sound bound →
      (∀ x, (ms.foldl foldMember acc).1=some x→x.Sound bound) ∧
        (ms.foldl foldMember acc).2.Sound bound := by
    intro ms
    induction ms with
    | nil => exact fun acc h1 h2 => ⟨h1,h2⟩
    | cons m _ ih =>
      intro acc h1 h2
      rw [List.foldl_cons]
      unfold foldMember
      cases hm : acc.2 m with
      | none => exact ih acc h1 h2
      | some other =>
        have hother := h2 m other hm
        refine ih _ (fun x hx => ?_) (h2.remove m)
        rw [←Option.some.inj hx]
        cases ha : acc.1 with
        | none => exact hother
        | some y => exact (h1 y ha).absorb hother
  obtain ⟨htop,hrest⟩ := hfold (members.filter (fun m => m != xid)) (p xid,p.remove xid)
    (fun x hx => h xid x hx) (h.remove xid)
  unfold PendingCatalog.consolidate
  dsimp only
  split
  case h_1 x hx => exact hrest.put xid (htop x hx)
  case h_2 => exact hrest

end

/-- Forgetting writers leaves sound chains. -/
theorem PendingCatalog.Sound.forgetMembers (h : p.Sound bound) (members : List Xid) :
    (p.forgetMembers members).Sound bound := by
  intro k y hy
  simp only [PendingCatalog.forgetMembers] at hy
  split at hy
  · cases hy
  · obtain ⟨hmap,-⟩ := Option.filter_eq_some_iff.mp hy
    obtain ⟨x,hx,rfl⟩ := Option.map_eq_some_iff.mp hmap
    exact (h k x hx).dropWriters members

end Walshadow.PendingTimeline
