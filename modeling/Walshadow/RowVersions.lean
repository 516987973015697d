import Walshadow.Newest

/-!
# Versions of rows and the changes they come from

Changes of a keyed table stand in the order in which they take effect and carry the
positions at which they were logged. A change writes versions of the rows it touches,
stamped with its position; a reader keeps for each key the version with the greatest
stamp. The two agree on a key where the last change of the key is also stamped last.
-/

namespace Walshadow.RowVersions

open Newest List

variable {K V : Type}

/-- A version of one row; without a value the row is removed. -/
structure Version (K V : Type) where
  key : K
  /-- Versions of one key replace each other by stamp. -/
  stamp : ℕ
  value : Option V
deriving DecidableEq

/-- Every newest version of a key leaves the key with this value. -/
def Settles (written : Version K V→Prop) (k : K) (v : Option V) : Prop :=
  ∀ x, IsNewest Version.stamp (fun w => written w ∧ w.key=k) x→x.bind Version.value=v

/-- A change of a keyed table. -/
inductive Change (K V : Type) where
  | put (k : K) (v : V)
  /-- A row gets other values, perhaps another key. -/
  | replace (k k' : K) (v : V)
  | remove (k : K)
deriving DecidableEq

/-- A change and where it was logged. -/
structure Logged (K V : Type) where
  /-- Position of its record. -/
  pos : ℕ
  change : Change K V
deriving DecidableEq

/-- The change needs a row under the key. -/
def Change.ActsOn (k : K) : Change K V→Prop
  | .put _ _ => False
  | .replace k₀ _ _ => k₀=k
  | .remove k₀ => k₀=k

/-- The change puts a row under a key that had none. -/
def Change.Enters (k : K) : Change K V→Prop
  | .put k₀ _ => k₀=k
  | .replace k₀ k₁ _ => k₁=k ∧ k₀≠k
  | .remove _ => False

/-- The change says what is under the key. -/
def Change.Touches (k : K) (c : Change K V) : Prop := c.ActsOn k ∨ c.Enters k

variable [DecidableEq K]

/-- What is under a key after the change. -/
def Change.valueAt (k : K) : Change K V→Option V
  | .put _ v => some v
  | .replace _ k₁ v => if k₁=k then some v else none
  | .remove _ => none

/-- The table after a change. -/
def Change.apply (table : K→Option V) (c : Change K V) : K→Option V :=
  match c with
  | .put k v => Function.update table k (some v)
  | .replace k k' v => Function.update (Function.update table k none) k' (some v)
  | .remove k => Function.update table k none

/-- The change is possible in a table with one row for each key. -/
def Change.Possible (table : K→Option V) : Change K V→Prop
  | .put k _ => table k=none
  | .replace k k' _ => table k≠none ∧ (k'=k ∨ table k'=none)
  | .remove k => table k≠none

/-- The table after changes in the order in which they take effect. -/
def tableAfter (table : K→Option V) : List (Logged K V)→K→Option V
  | [] => table
  | c::cs => tableAfter (c.change.apply table) cs

/-- Every change is possible where it takes effect. -/
def Possible (table : K→Option V) : List (Logged K V)→Prop
  | [] => True
  | c::cs => c.change.Possible table ∧ Possible (c.change.apply table) cs

/-- Versions a change writes: the removal from a key that is left is stamped just below
the row under the new key. -/
def Logged.versions (c : Logged K V) : List (Version K V) :=
  match c.change with
  | .put k v => [⟨k,c.pos,some v⟩]
  | .replace k k' v => (if k=k' then [] else [⟨k,c.pos-1,none⟩])++[⟨k',c.pos,some v⟩]
  | .remove k => [⟨k,c.pos,none⟩]

variable {table : K→Option V} {k : K} {cs before after : List (Logged K V)} {c d : Logged K V}
  {w : Version K V} {written : Version K V→Prop} {v : Option V}

theorem apply_of_touches {c : Change K V} (h : c.Touches k) : c.apply table k=c.valueAt k := by
  cases c with
  | put k₀ =>
    have hk : k₀=k := h.resolve_left id
    subst hk
    exact Function.update_self ..
  | replace k₀ k₁ =>
    by_cases hk : k₁=k
    · subst hk
      rw [Change.apply,Function.update_self,Change.valueAt,if_pos rfl]
    · have hleft : k₀=k := h.resolve_right (fun hin => hk hin.1)
      subst hleft
      rw [Change.apply,Function.update_of_ne (Ne.symm hk),Function.update_self,Change.valueAt,
        if_neg hk]
  | remove k₀ =>
    have hk : k₀=k := h.resolve_right id
    subst hk
    exact Function.update_self ..

theorem apply_of_not_touches {c : Change K V} (h : ¬c.Touches k) : c.apply table k=table k := by
  cases c with
  | put k₀ =>
    have hk : k≠k₀ := fun heq => h (.inr heq.symm)
    exact Function.update_of_ne hk ..
  | replace k₀ k₁ =>
    have hleft : k≠k₀ := fun heq => h (.inl heq.symm)
    have hin : k≠k₁ := fun heq => h (.inr ⟨heq.symm,hleft.symm⟩)
    rw [Change.apply,Function.update_of_ne hin,Function.update_of_ne hleft]
  | remove k₀ =>
    have hk : k≠k₀ := fun heq => h (.inl heq.symm)
    exact Function.update_of_ne hk ..

theorem tableAfter_append (table : K→Option V) (cs ds : List (Logged K V)) :
    tableAfter table (cs++ds)=tableAfter (tableAfter table cs) ds := by
  induction cs generalizing table with
  | nil => rfl
  | cons c _ ih => exact ih (c.change.apply table)

/-- Changes that do not touch a key leave what is under it. -/
theorem tableAfter_untouched (h : ∀ c∈cs,¬c.change.Touches k) :
    tableAfter table cs k=table k := by
  induction cs generalizing table with
  | nil => rfl
  | cons c _ ih =>
    rw [tableAfter,ih (fun d hd => h d (mem_cons_of_mem c hd)),
      apply_of_not_touches (h c mem_cons_self)]

theorem tableAfter_last (hc : c.change.Touches k) (hafter : ∀ d∈after,¬d.change.Touches k) :
    tableAfter table (before++c::after) k=c.change.valueAt k := by
  rw [tableAfter_append,tableAfter,tableAfter_untouched hafter,apply_of_touches hc]

theorem possible_append {ds : List (Logged K V)} (h : Possible table (cs++ds)) :
    Possible (tableAfter table cs) ds := by
  induction cs generalizing table with
  | nil => exact h
  | cons _ _ ih => exact ih h.2

omit [DecidableEq K] in
/-- Some change of a key is the last, or none touches it. -/
theorem untouched_or_last (cs : List (Logged K V)) (k : K) :
    (∀ c∈cs,¬c.change.Touches k) ∨ ∃ before c after, cs=before++c::after ∧
      c.change.Touches k ∧ ∀ d∈after,¬d.change.Touches k := by
  induction cs with
  | nil => exact .inl nofun
  | cons c cs ih =>
    obtain hnone | ⟨before,d,after,heq,hd,hafter⟩ := ih
    · by_cases hc : c.change.Touches k
      · exact .inr ⟨[],c,cs,rfl,hc,hnone⟩
      · refine .inl (fun d hd => ?_)
        obtain rfl | hd := mem_cons.mp hd
        · exact hc
        · exact hnone d hd
    · exact .inr ⟨c::before,d,after,by rw [heq,cons_append],hd,hafter⟩

/-- A version is of a key its change touches, says what is under it, and is stamped with
the position of the change or one below. -/
theorem mem_versions (hw : w∈c.versions) :
    c.change.Touches w.key ∧ w.value=c.change.valueAt w.key ∧ w.stamp ≤ c.pos ∧
      c.pos≤w.stamp+1 := by
  obtain ⟨_,change⟩ := c
  cases change with
  | put =>
    obtain rfl := mem_singleton.mp hw
    exact ⟨.inr rfl,rfl,le_rfl,Nat.le_succ _⟩
  | replace k k' =>
    obtain hw | hw := mem_append.mp hw
    · split_ifs at hw with hk
      · cases hw
      · obtain rfl := mem_singleton.mp hw
        refine ⟨.inl rfl,?_,Nat.sub_le _ _,Nat.le_add_of_sub_le (le_rfl)⟩
        exact (if_neg (Ne.symm hk)).symm
    · obtain rfl := mem_singleton.mp hw
      refine ⟨?_,(if_pos rfl).symm,le_rfl,Nat.le_succ _⟩
      by_cases hk : k=k'
      · exact .inl hk
      · exact .inr ⟨rfl,hk⟩
  | remove =>
    obtain rfl := mem_singleton.mp hw
    exact ⟨.inl rfl,rfl,le_rfl,Nat.le_succ _⟩

/-- A change writes a version of every key it touches. -/
theorem exists_version (h : c.change.Touches k) : ∃ w∈c.versions,w.key=k := by
  obtain ⟨pos,change⟩ := c
  cases change with
  | put => exact ⟨_,mem_singleton_self _,h.resolve_left id⟩
  | replace k₀ k₁ =>
    obtain hk | ⟨hk,_⟩ := h
    · by_cases hsame : k₀=k₁
      · exact ⟨_,mem_append_right _ (mem_singleton_self _),hsame.symm.trans hk⟩
      · refine ⟨⟨k₀,pos-1,none⟩,mem_append_left _ ?_,hk⟩
        rw [if_neg hsame]
        exact mem_singleton_self _
    · exact ⟨_,mem_append_right _ (mem_singleton_self _),hk⟩
  | remove => exact ⟨_,mem_singleton_self _,h.resolve_right id⟩

/-- Versions changes write. -/
def versionsOf (cs : List (Logged K V)) : List (Version K V) := cs.flatMap Logged.versions

section

omit [DecidableEq K]

/-- A version settles its key where every other of the key agrees with it or is stamped
before it. -/
theorem Settles.of_last (hw : written w) (hkey : w.key=k)
    (hall : ∀ w', written w'→w'.key=k→w'.stamp<w.stamp ∨ w'.value=w.value) :
    Settles written k w.value := by
  intro x hx
  obtain ⟨w',rfl,hle⟩ := hx.bound ⟨hw,hkey⟩
  exact (hall w' hx.holds.1 hx.holds.2).resolve_left (Nat.not_lt_of_le hle)

theorem Settles.of_none (h : ∀ w, written w→w.key≠k) : Settles written k none := by
  intro x hx
  cases x with
  | none => rfl
  | some w => exact absurd hx.holds.2 (h w hx.holds.1)

/-- A greatest version says what a settled key has. -/
theorem Settles.value_eq (h : Settles written k v) (hw : written w) (hkey : w.key=k)
    (hmax : ∀ w', written w'→w'.key=k→w'.stamp≤w.stamp) : w.value=v :=
  h (some w) ⟨⟨hw,hkey⟩,fun w' hw' => hmax w' hw'.1 hw'.2⟩

/-- What is written are the versions meant and some that are replaced: each of these is
stamped before one that is meant of its key. -/
structure Writes (written meant : Version K V→Prop) : Prop where
  all : ∀ w, meant w→written w
  only : ∀ w, written w→meant w ∨ ∃ w', meant w' ∧ w'.key=w.key ∧ w.stamp<w'.stamp

/-- Rows that have the versions meant. -/
theorem writes_of_map {α : Type} {rows : List α} {f : α→Version K V} {meant : List (Version K V)}
    (h : rows.map f=meant) : Writes (fun w => ∃ r∈rows,f r=w) (·∈meant) := by
  rw [←h]
  exact ⟨fun _ => List.mem_map.mp,fun _ hw => .inl (List.mem_map.mpr hw)⟩

/-- Replaced versions do not change what a key settles on. -/
theorem Writes.settles_iff {meant : Version K V→Prop} (h : Writes written meant) :
    Settles written k v ↔ Settles meant k v := by
  refine forall_congr' fun x => imp_congr_left ?_
  cases x with
  | none =>
    constructor
    · exact fun hx w hw => hx w ⟨h.all w hw.1,hw.2⟩
    · rintro hx w ⟨hw,hkey⟩
      obtain hmeant | ⟨w',hmeant,hsame,_⟩ := h.only w hw
      · exact hx w ⟨hmeant,hkey⟩
      · exact hx w' ⟨hmeant,hsame.trans hkey⟩
  | some a =>
    constructor
    · rintro ⟨⟨ha,hkey⟩,hmax⟩
      refine ⟨⟨?_,hkey⟩,fun w hw => hmax w ⟨h.all w hw.1,hw.2⟩⟩
      obtain hmeant | ⟨w',hmeant,hsame,hlt⟩ := h.only a ha
      · exact hmeant
      · have hle := hmax w' ⟨h.all w' hmeant,hsame.trans hkey⟩
        omega
    · rintro ⟨⟨ha,hkey⟩,hmax⟩
      refine ⟨⟨h.all a ha,hkey⟩,?_⟩
      rintro w ⟨hw,hwkey⟩
      obtain hmeant | ⟨w',hmeant,hsame,hlt⟩ := h.only w hw
      · exact hmax w ⟨hmeant,hwkey⟩
      · exact hlt.le.trans (hmax w' ⟨hmeant,hsame.trans hwkey⟩)

theorem Settles.or_other {low high : Version K V→Prop} (h : Settles low k v)
    (hother : ∀ w, high w→w.key≠k) : Settles (fun w => low w ∨ high w) k v := by
  intro x hx
  refine h x (hx.congr (fun w => and_congr_left (fun hkey => ?_)))
  exact or_iff_left (fun hw => hother w hw hkey)

/-- How a store with row locks and one row for each key logs its changes: positions are
multiples of eight; a change of a row is logged after every change of its key that took
effect before, since the row was locked or not yet visible until then; and records of one
key have different positions. A row that enters a key may be logged before the record
that freed the key: the key is checked after the row is logged. -/
structure Locked (cs : List (Logged K V)) : Prop where
  aligned : ∀ c∈cs,8 ∣ c.pos ∧ 0<c.pos
  /-- A row is changed after the changes that made it. -/
  acts : cs.Pairwise (fun d c => ∀ k, c.change.ActsOn k→d.change.Touches k→d.pos<c.pos)
  /-- Records of one key are apart. -/
  apart : cs.Pairwise (fun d c => ∀ k, c.change.Touches k→d.change.Touches k→d.pos≠c.pos)

/-- A row that stays under the key it entered was logged after the records that were about
the key before it. -/
def EntersLast (cs : List (Logged K V)) : Prop :=
  ∀ before c after k, cs=before++c::after→c.change.Enters k →
    (∀ d∈after,¬d.change.Touches k)→∀ d∈before,d.change.Touches k→d.pos<c.pos

theorem Locked.lt_of_acts (h : Locked (before++c::after)) (hc : c.change.ActsOn k) (hd : d∈before)
    (hdk : d.change.Touches k) : d.pos<c.pos :=
  (pairwise_append.mp h.acts).2.2 d hd c mem_cons_self k hc hdk

theorem Locked.ne (h : Locked (before++c::after)) (hc : c.change.Touches k) (hd : d∈before)
    (hdk : d.change.Touches k) : d.pos≠c.pos :=
  (pairwise_append.mp h.apart).2.2 d hd c mem_cons_self k hc hdk

theorem Locked.of_append (h : Locked (before++after)) : Locked before where
  aligned := fun c hc => h.aligned c (mem_append_left after hc)
  acts := (pairwise_append.mp h.acts).1
  apart := (pairwise_append.mp h.apart).1

theorem Locked.of_append_right (h : Locked (before++after)) : Locked after where
  aligned := fun c hc => h.aligned c (mem_append_right before hc)
  acts := (pairwise_append.mp h.acts).2.1
  apart := (pairwise_append.mp h.apart).2.1

/-- Of two aligned positions the later is above all stamps of the earlier. -/
theorem Locked.gap (h : Locked cs) (hc : c∈cs) (hd : d∈cs) (hlt : d.pos<c.pos) :
    d.pos+1<c.pos := by
  obtain ⟨_,_⟩ := (h.aligned c hc).1
  obtain ⟨_,_⟩ := (h.aligned d hd).1
  omega

theorem mem_middle : c∈before++c::after := mem_append_right before mem_cons_self

end

theorem mem_versionsOf : w∈versionsOf cs ↔ ∃ c∈cs,w∈c.versions := mem_flatMap

/-- The versions of the last change of a key come last where its record does. -/
theorem last_version_greatest (hlocked : Locked (before++c::after))
    (hafter : ∀ d∈after,¬d.change.Touches k)
    (hlast : ∀ d∈before,d.change.Touches k→d.pos<c.pos) {w' : Version K V}
    (hw : w∈c.versions) (hw' : w'∈versionsOf (before++c::after)) (hkey : w'.key=k) :
    w'.stamp<w.stamp ∨ w'∈c.versions := by
  obtain ⟨d,hd,hmem⟩ := mem_versionsOf.mp hw'
  obtain ⟨htouch,_,_,_⟩ := mem_versions hmem
  obtain ⟨_,_,_,_⟩ := mem_versions hw
  rw [hkey] at htouch
  obtain hd | hd := mem_append.mp hd
  · have hgap := hlocked.gap mem_middle (mem_append_left _ hd) (hlast d hd htouch)
    exact .inl (by omega)
  · obtain rfl | hd := mem_cons.mp hd
    · exact .inr hmem
    · exact absurd htouch (hafter d hd)

/-- A change writes one version of a key. -/
theorem versions_unique {w' : Version K V} (hw : w∈c.versions) (hw' : w'∈c.versions)
    (hkey : w'.key=w.key) : w'=w := by
  obtain ⟨_,change⟩ := c
  cases change with
  | put =>
    obtain rfl := mem_singleton.mp hw
    exact mem_singleton.mp hw'
  | replace =>
    unfold Logged.versions at hw hw'
    dsimp only at hw hw'
    split_ifs at hw hw' with hk
    · obtain rfl := mem_singleton.mp hw
      exact mem_singleton.mp hw'
    · obtain rfl | hw := mem_cons.mp hw
      · obtain rfl | hw' := mem_cons.mp hw'
        · rfl
        · obtain rfl := mem_singleton.mp hw'
          exact absurd hkey.symm hk
      · obtain rfl := mem_singleton.mp hw
        obtain rfl | hw' := mem_cons.mp hw'
        · exact absurd hkey hk
        · exact mem_singleton.mp hw'
  | remove =>
    obtain rfl := mem_singleton.mp hw
    exact mem_singleton.mp hw'

/-- A key settles on its last change where that was logged last. -/
theorem settles_last (hlocked : Locked (before++c::after)) (hc : c.change.Touches k)
    (hafter : ∀ d∈after,¬d.change.Touches k)
    (hlast : ∀ d∈before,d.change.Touches k→d.pos<c.pos) :
    Settles (·∈versionsOf (before++c::after)) k (c.change.valueAt k) := by
  obtain ⟨w,hw,hkey⟩ := exists_version hc
  have hvalue : w.value=c.change.valueAt k := by
    rw [←hkey]
    exact (mem_versions hw).2.1
  rw [←hvalue]
  refine Settles.of_last (mem_versionsOf.mpr ⟨c,mem_middle,hw⟩) hkey (fun w' hw' hkey' => ?_)
  refine (last_version_greatest hlocked hafter hlast hw hw' hkey').imp_right (fun hmem => ?_)
  rw [versions_unique hw hmem (hkey'.trans hkey.symm)]

/-- Before a row enters a key the last change of the key removed a row from it. -/
theorem removed_before_enters {before' after' : List (Logged K V)}
    (hpossible : Possible table (before++c::after)) (hc : c.change.Enters k)
    (hbefore : before=before'++d::after') (hd : d.change.Touches k)
    (hafter : ∀ e∈after',¬e.change.Touches k) :
    d.change.ActsOn k ∧ d.change.valueAt k=none := by
  have hfree : tableAfter table before k=none := by
    have hcan := (possible_append hpossible).1
    obtain ⟨_,change⟩ := c
    cases change with
    | put k₀ =>
      have hk : k₀=k := hc
      exact hk ▸ hcan
    | replace =>
      obtain ⟨rfl,hne⟩ := hc
      exact hcan.2.resolve_left (fun heq => hne heq.symm)
    | remove => exact hc.elim
  have hvalue : d.change.valueAt k=none := by
    rw [hbefore,tableAfter_last hd hafter] at hfree
    exact hfree
  refine ⟨hd.resolve_right (fun henters => ?_),hvalue⟩
  obtain ⟨_,change⟩ := d
  cases change with
  | put => cases hvalue
  | replace =>
    obtain ⟨rfl,_⟩ := henters
    dsimp only [Change.valueAt] at hvalue
    rw [if_pos rfl] at hvalue
    cases hvalue
  | remove => exact henters

omit [DecidableEq K] in
/-- The last change of a key was logged after the others. -/
theorem EntersLast.lt_last (h : EntersLast (before++c::after)) (hlocked : Locked (before++c::after))
    (hc : c.change.Touches k) (hafter : ∀ d∈after,¬d.change.Touches k) :
    ∀ d∈before,d.change.Touches k→d.pos<c.pos := by
  intro d hd hdk
  obtain hacts | henters := hc
  · exact hlocked.lt_of_acts hacts hd hdk
  · exact h before c after k rfl henters hafter d hd hdk

/-- Where no row stays under a key on an earlier record, every key settles on the table. -/
theorem settles_of_entersLast (hlocked : Locked cs) (hlast : EntersLast cs) (k : K) :
    Settles (·∈versionsOf cs) k (tableAfter (fun _ => none) cs k) := by
  obtain hnone | ⟨_,c,_,rfl,hc,hafter⟩ := untouched_or_last cs k
  · rw [tableAfter_untouched hnone]
    refine Settles.of_none (fun w hw hkey => ?_)
    obtain ⟨c,hcs,hmem⟩ := mem_versionsOf.mp hw
    exact hnone c hcs (hkey ▸ (mem_versions hmem).1)
  · rw [tableAfter_last hc hafter]
    exact settles_last hlocked hc hafter (hlast.lt_last hlocked hc hafter)

/-- A row is changed or removed before another change is about its key. -/
theorem exists_acts {mid : List (Logged K V)}
    (hpossible : Possible table (before++c::mid++d::after)) (hc : c.change.Touches k)
    (hvalue : c.change.valueAt k≠none) (hd : d.change.Touches k) :
    ∃ e∈mid++d::after,e.change.ActsOn k := by
  obtain hacts | henters := hd
  · exact ⟨d,mem_middle,hacts⟩
  obtain hnone | ⟨mid',e,mid'',hmid,he,hlast⟩ := untouched_or_last mid k
  · have hbefore : before++c::mid=before++c::mid := rfl
    have hremoved := (removed_before_enters hpossible henters hbefore hc hnone).2
    exact absurd hremoved hvalue
  · have hbefore : before++c::mid=(before++c::mid')++e::mid'' := by
      rw [hmid,append_assoc,cons_append]
    have hremoved := removed_before_enters hpossible henters hbefore he hlast
    exact ⟨e,mem_append_left _ (hmid ▸ mem_middle),hremoved.1⟩

/-- A row that entered a key has values. -/
theorem valueAt_of_enters {c : Change K V} (h : c.Enters k) : c.valueAt k≠none := by
  cases c with
  | put _ v => exact Option.some_ne_none v
  | replace _ _ v =>
    obtain ⟨rfl,_⟩ := h
    rw [Change.valueAt,if_pos rfl]
    exact Option.some_ne_none v
  | remove => exact h.elim

/-- Where every key settles on the table, no row stays under a key on a record before the
one that freed the key. -/
theorem entersLast_of_settles (hpossible : Possible (fun _ => none) cs) (hlocked : Locked cs)
    (hsettles : ∀ k, Settles (·∈versionsOf cs) k (tableAfter (fun _ => none) cs k)) :
    EntersLast cs := by
  intro before c after k hcs henters hafter d hd hdk
  subst hcs
  by_contra hlt
  obtain hnone | ⟨before',e,after',hbefore,he,hafter'⟩ := untouched_or_last before k
  · exact hnone d hd hdk
  obtain ⟨hacts,hremoved⟩ := removed_before_enters hpossible henters hbefore he hafter'
  have hebefore : e∈before := hbefore ▸ mem_middle
  have hlocked' : Locked (before'++e::after') := hbefore ▸ hlocked.of_append
  have hde : d.pos≤e.pos := by
    rw [hbefore] at hd
    obtain hd | hd := mem_append.mp hd
    · exact le_of_lt (hlocked'.lt_of_acts hacts hd hdk)
    · obtain rfl | hd := mem_cons.mp hd
      · exact le_rfl
      · exact absurd hdk (hafter' d hd)
  have hne := hlocked.ne (.inr henters) hebefore he
  obtain ⟨w,hw,hkey⟩ := exists_version he
  obtain ⟨_,hvalue,_,_⟩ := mem_versions hw
  have hmax : ∀ w', w'∈versionsOf (before++c::after)→w'.key=k→w'.stamp≤w.stamp := by
    intro w' hw' hkey'
    obtain ⟨f,hf,hmem⟩ := mem_versionsOf.mp hw'
    obtain ⟨hfk,_,_,_⟩ := mem_versions hmem
    rw [hkey'] at hfk
    obtain hf | hf := mem_append.mp hf
    · have hin : w'∈versionsOf (before'++e::after') :=
        mem_versionsOf.mpr ⟨f,hbefore ▸ hf,hmem⟩
      obtain hlower | hsame := last_version_greatest hlocked' hafter'
        (fun g hg hgk => hlocked'.lt_of_acts hacts hg hgk) hw hin hkey'
      · exact le_of_lt hlower
      · rw [versions_unique hw hsame (hkey'.trans hkey.symm)]
    · obtain rfl | hf := mem_cons.mp hf
      · omega
      · exact absurd hfk (hafter f hf)
  have hmem : w∈versionsOf (before++c::after) :=
    mem_versionsOf.mpr ⟨e,mem_append_left _ hebefore,hw⟩
  have heq := (hsettles k).value_eq hmem hkey hmax
  rw [tableAfter_last (.inr henters) hafter,hvalue,hkey,hremoved] at heq
  exact valueAt_of_enters henters heq.symm

end Walshadow.RowVersions
