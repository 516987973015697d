import Mathlib

/-!
# Xid ceilings of TOAST generations

The pump folds the position and xid of every record into a running maximum in xid order and
samples it now and then; a lookup takes the earliest kept sample at or behind a position. Xids
are compared modulo `2^32`, so a record carries its full xid, epoch included, as a ghost.
-/

namespace Walshadow.ToastCeiling

open List

/-- WAL bytes between samples. -/
def sampleBytes : ℕ := 2^20

/-- Retained samples, oldest evicted first. -/
def sampleCap : ℕ := 16*1024

/-- The first xid is later than the second in xid order. -/
def follows (a b : UInt32) : Bool := decide (0<(a-b).toInt32.toInt)

/-- Samples fed by the pump and read by the shadow TOAST store. -/
structure XidCeiling where
  maxXid : UInt32
  nextSampleLsn : ℕ
  samples : List (ℕ×UInt32)

/-- Fold one record in. -/
def observe (c : XidCeiling) (lsn : ℕ) (xid : UInt32) : XidCeiling :=
  let maxXid := if xid≠0 ∧ (c.maxXid=0 ∨ follows xid c.maxXid=true) then xid else c.maxXid
  if lsn<c.nextSampleLsn then {c with maxXid := maxXid}
  else if maxXid=0 then {c with nextSampleLsn := (lsn+sampleBytes)%2^64, maxXid := maxXid}
  else
    let samples := c.samples++[(lsn,maxXid)]
    ⟨maxXid,(lsn+sampleBytes)%2^64,samples.drop (samples.length-sampleCap)⟩

/-- Xid of the earliest sample at or behind a position, zero without one. -/
def atLsn (c : XidCeiling) (lsn : ℕ) : UInt32 :=
  (c.samples.find? (fun s => decide (lsn ≤ s.1))).elim 0 Prod.snd

/-- A fetched value with the newest xmin of its chunks. -/
structure FetchedChunks (V : Type) where
  value : V
  xmin : UInt32

/-- Value of the chunks, none if they belong to a later generation. -/
def judge {V : Type} (c : FetchedChunks V) (ceiling : UInt32) : Option V :=
  if ceiling≠0 ∧ c.xmin≠0 ∧ follows c.xmin ceiling=true then none else some c.value

/-- Record as the pump sees it with its full xid, zero without one. -/
structure Observed where
  lsn : ℕ
  full : ℕ

def Observed.xid (o : Observed) : UInt32 := UInt32.ofNat o.full

/-- Newest full xid of the records. -/
def newest : List Observed→ℕ
  | [] => 0
  | o::os => max o.full (newest os)

/-- The ceiling after these records, the last one first. -/
def feed : List Observed→XidCeiling
  | [] => ⟨0,0,[]⟩
  | o::os => observe (feed os) o.lsn o.xid

/-- Positions increase, no epoch has an xid zero, and an xid that is logged lies within `2^31` of
the newest before it. -/
def Orderly : List Observed→Prop
  | [] => True
  | o::os => (∀ p∈os,p.lsn<o.lsn) ∧ (o.full≠0 → o.xid≠0 ∧
      (newest os≠0→newest os<o.full+2^31 ∧ o.full<newest os+2^31)) ∧ Orderly os

/-- Within half of the circle the order of xids is the order of full xids. -/
theorem follows_ofNat {a b : ℕ} (hab : a<b+2^31) (hba : b<a+2^31) :
    follows (.ofNat a) (.ofNat b)=true ↔ b<a := by
  unfold follows
  rw [decide_eq_true_iff]
  have hdiff : (UInt32.ofNat a-UInt32.ofNat b).toNat=(2^32-b%2^32+a%2^32)%2^32 := by
    rw [UInt32.toNat_sub,UInt32.toNat_ofNat',UInt32.toNat_ofNat']
  have hint := BitVec.toInt_eq_toNat_cond (UInt32.ofNat a-UInt32.ofNat b).toBitVec
  change (UInt32.ofNat a-UInt32.ofNat b).toInt32.toInt=_ at hint
  rw [UInt32.toNat_toBitVec,hdiff] at hint
  omega

theorem le_newest {os : List Observed} {o : Observed} (h : o∈os) : o.full≤newest os := by
  induction os with
  | nil => cases h
  | cons p os ih =>
    obtain rfl | h := mem_cons.mp h
    · exact le_max_left _ _
    · exact (ih h).trans (le_max_right _ _)

/-- The newest xid is not zero in its epoch. -/
theorem xid_newest {os : List Observed} (h : Orderly os) (hne : newest os≠0) :
    UInt32.ofNat (newest os)≠0 := by
  induction os with
  | nil => exact absurd rfl hne
  | cons o os ih =>
    rw [newest] at hne ⊢
    obtain hle | hle := Nat.le_total o.full (newest os)
    · rw [max_eq_right hle] at hne ⊢
      exact ih h.2.2 hne
    · rw [max_eq_left hle] at hne ⊢
      exact (h.2.1 hne).1

/-- Each kept sample is a full xid that no record up to its position exceeds. -/
structure Covers (c : XidCeiling) (os : List Observed) : Prop where
  running : c.maxXid=.ofNat (newest os)
  sampled : ∀ s∈c.samples,(∃ p∈os,s.1=p.lsn) ∧ ∃ m, s.2=.ofNat m ∧ m≤newest os ∧
    ∀ o∈os,o.lsn ≤ s.1 → o.full ≤ m

/-- The running maximum after a record is the newest xid. -/
theorem running_observe {c : XidCeiling} {o : Observed} {os : List Observed}
    (h : Orderly (o::os)) (hc : Covers c os) :
    (if o.xid≠0 ∧ (c.maxXid=0 ∨ follows o.xid c.maxXid=true) then o.xid else c.maxXid) =
      .ofNat (newest (o::os)) := by
  obtain ⟨-,hxid,hos⟩ := h
  rw [newest]
  by_cases hfull : o.full=0
  · rw [if_neg (fun hnew => hnew.1 (congrArg UInt32.ofNat hfull)),hfull,Nat.zero_max]
    exact hc.running
  · obtain ⟨hne,hspan⟩ := hxid hfull
    by_cases hfirst : newest os=0
    · rw [if_pos ⟨hne,.inl (hc.running.trans (congrArg _ hfirst))⟩,hfirst,Nat.max_zero]
      rfl
    · obtain ⟨hold,hnew⟩ := hspan hfirst
      have hlater := follows_ofNat hnew hold
      rw [←hc.running] at hlater
      split_ifs with hmax
      · have hlt := hlater.mp (hmax.2.resolve_left (hc.running ▸ xid_newest hos hfirst))
        rw [max_eq_left hlt.le]
        rfl
      · have hle : o.full≤newest os := Nat.le_of_not_lt fun hlt =>
          hmax ⟨hne,.inr (hlater.mpr hlt)⟩
        rw [max_eq_right hle]
        exact hc.running

theorem Covers.observe {c : XidCeiling} {o : Observed} {os : List Observed}
    (h : Orderly (o::os)) (hc : Covers c os) : Covers (observe c o.lsn o.xid) (o::os) := by
  have hmax := running_observe h hc
  -- a later record lies behind every sample taken so far
  have hkept : ∀ s∈c.samples,(∃ p∈o::os,s.1=p.lsn) ∧ ∃ m, s.2=.ofNat m ∧
      m≤newest (o::os) ∧ ∀ p∈o::os,p.lsn ≤ s.1→p.full ≤ m := by
    intro s hs
    obtain ⟨⟨p,hp,hlsn⟩,m,hm,hle,hall⟩ := hc.sampled s hs
    refine ⟨⟨p,mem_cons_of_mem _ hp,hlsn⟩,m,hm,hle.trans (le_max_right _ _),fun q hq hql => ?_⟩
    obtain rfl | hq := mem_cons.mp hq
    · exact absurd (hlsn ▸ hql) (Nat.not_le_of_lt (h.1 p hp))
    · exact hall q hq hql
  unfold ToastCeiling.observe
  dsimp only
  rw [hmax]
  split_ifs
  · exact ⟨rfl,hkept⟩
  · exact ⟨rfl,hkept⟩
  · refine ⟨rfl,fun s hs => ?_⟩
    dsimp only at hs
    obtain hs | hs := mem_append.mp (mem_of_mem_drop hs)
    · exact hkept s hs
    · obtain rfl := mem_singleton.mp hs
      exact ⟨⟨o,mem_cons_self,rfl⟩,_,rfl,le_rfl,fun p hp _ => le_newest hp⟩

theorem covers_feed {os : List Observed} (h : Orderly os) : Covers (feed os) os := by
  induction os with
  | nil => exact ⟨rfl,nofun⟩
  | cons o os ih => exact Covers.observe h (ih h.2.2)

/-- The ceiling of a position does not precede an xid logged at or before it that is still
within `2^31` of the newest, and chunks of its transaction keep their value. -/
theorem ceiling_covers {os : List Observed} (h : Orderly os) {o : Observed} (ho : o∈os)
    (hlive : newest os<o.full+2^31) {l : ℕ} (hl : o.lsn≤l) :
    (atLsn (feed os) l≠0→follows o.xid (atLsn (feed os) l)=false) ∧
      ∀ {V : Type} (value : V), judge ⟨value,o.xid⟩ (atLsn (feed os) l)=some value := by
  have hceiling : atLsn (feed os) l≠0→follows o.xid (atLsn (feed os) l)=false := by
    unfold atLsn
    cases hfind : (feed os).samples.find? (fun s => decide (l ≤ s.1)) with
    | none => exact fun hne => absurd rfl hne
    | some s =>
      intro _
      obtain ⟨-,m,hm,hle,hall⟩ := (covers_feed h).sampled s (mem_of_find?_eq_some hfind)
      have hbehind := find?_some hfind
      rw [decide_eq_true_iff] at hbehind
      have hfull := hall o ho (hl.trans hbehind)
      rw [Option.elim_some,hm,←Bool.not_eq_true]
      have hiff := @follows_ofNat o.full m (by omega) (by omega)
      exact fun hlater => Nat.not_le_of_lt (hiff.mp hlater) hfull
  refine ⟨hceiling,fun value => if_neg fun hlater => ?_⟩
  rw [hceiling hlater.1] at hlater
  exact Bool.false_ne_true hlater.2.2

/-- Xids that wrap around between two samples. -/
theorem ceiling_covers_wrapped : follows (Observed.xid ⟨0,2^32-5⟩)
    (atLsn (feed [⟨2^20,2^32+6⟩,⟨0,2^32-5⟩]) 1)=false := by
  have hcover := @ceiling_covers [⟨2^20,2^32+6⟩,⟨0,2^32-5⟩] (by simp [Orderly,newest,Observed.xid])
    ⟨0,2^32-5⟩ (by simp) (by simp [newest]) 1 (by decide)
  exact hcover.1 (by decide)

end Walshadow.ToastCeiling
