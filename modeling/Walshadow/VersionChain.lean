import Mathlib

/-!
# Binary search over lists and ordered version chains

The halving search of the standard slice library, the partition point derived
from it, and the two insertions built on them: a stable one that lands after
every equal key and a replacing one that keeps keys distinct. The search runs
on any list; its result is the true cut exactly when the list is partitioned by
the tested predicate. The chain lemmas say what an insertion does to order,
membership, filters and the last element.
-/

namespace Walshadow.VersionChain

open List

universe u v

variable {α : Type u} {κ : Type v}

/-- Halving loop. The base moves up whenever the probed element is not past the
target; the window `size` shrinks by half of itself in either case. -/
def narrow (notPast : α→Bool) (xs : List α) : ℕ→ℕ→ℕ→ℕ
  | 0,_,base => base
  | fuel+1,size,base =>
    if size≤1 then base
    else
      narrow notPast xs fuel (size-size/2)
        (if (xs[base+size/2]?).any notPast then base+size/2 else base)

/-- Search by a three-way comparison: the found index, or the insertion index. -/
def binarySearchBy (f : α→Ordering) (xs : List α) : Except ℕ ℕ :=
  let base := narrow (fun x => f x != .gt) xs xs.length xs.length 0
  match (xs[base]?).map f with
  | none => .error 0
  | some .eq => .ok base
  | some .lt => .error (base+1)
  | some .gt => .error base

/-- Index of the first element failing `p`, as the halving search finds it. -/
def partitionPoint (p : α→Bool) (xs : List α) : ℕ :=
  match binarySearchBy (fun x => if p x then .lt else .gt) xs with
  | .ok i => i
  | .error i => i

/-- Elements passing `p` all precede those failing it. -/
def Partitioned (p : α→Bool) (xs : List α) : Prop :=
  xs.Pairwise (fun a b => p b=true→p a=true)

variable {p : α→Bool} {xs : List α}

/-- In a partitioned list an index lies before the cut exactly when its element
passes. -/
theorem Partitioned.getElem_iff (h : Partitioned p xs) {i : ℕ} (hi : i<xs.length) :
    p xs[i]=true ↔ i<(xs.takeWhile p).length := by
  induction xs generalizing i with
  | nil => exact absurd hi (Nat.not_lt_zero i)
  | cons x xs ih =>
    obtain ⟨hx,hxs⟩ := pairwise_cons.mp h
    cases hp : p x with
    | true =>
      rw [takeWhile_cons_of_pos hp]
      cases i with
      | zero => simp [hp]
      | succ => simpa using ih hxs (by simpa using hi)
    | false =>
      rw [takeWhile_cons_of_neg (by simp [hp])]
      simp only [length_nil,Nat.not_lt_zero,iff_false]
      cases i with
      | zero => simp [hp]
      | succ i =>
        intro hq
        have hlen : i<xs.length := by simpa using hi
        have hmem : xs[i]∈xs := getElem_mem hlen
        have := hx _ hmem (by simpa using hq)
        rw [hp] at this
        exact Bool.noConfusion this

/-- The halving loop closes in on the cut: at the end the base is the last
passing index, or zero when nothing passes. -/
theorem narrow_cut (h : Partitioned p xs) :
    ∀ (fuel size base : ℕ), size≤fuel→0<size→base+size≤xs.length →
      (xs.takeWhile p).length≤base+size→(base=0 ∨ base<(xs.takeWhile p).length) →
      narrow p xs fuel size base<xs.length ∧
        (xs.takeWhile p).length≤narrow p xs fuel size base+1 ∧
        (narrow p xs fuel size base=0 ∨
          narrow p xs fuel size base<(xs.takeWhile p).length) := by
  intro fuel
  induction fuel with
  | zero => intro size base hf h0; omega
  | succ _ ih =>
    intro size base hf h0 hlen hcut hbase
    rw [narrow]
    split
    · exact ⟨by omega,by omega,hbase⟩
    · have hmid : base+size/2<xs.length := by omega
      rw [getElem?_eq_getElem hmid]
      have hiff := h.getElem_iff hmid
      split
      case isTrue hp =>
        have hlt := hiff.mp hp
        exact ih _ _ (by omega) (by omega) (by omega) (by omega) (.inr hlt)
      case isFalse hp =>
        have hge : ¬ base+size/2<(xs.takeWhile p).length := fun hlt => hp (hiff.mpr hlt)
        exact ih _ _ (by omega) (by omega) (by omega) (by omega) hbase

/-- The whole search of a nonempty partitioned list. -/
theorem narrow_full (h : Partitioned p xs) (hne : xs≠[]) :
    narrow p xs xs.length xs.length 0<xs.length ∧
      (xs.takeWhile p).length≤narrow p xs xs.length xs.length 0+1 ∧
      (narrow p xs xs.length xs.length 0=0 ∨
        narrow p xs xs.length xs.length 0<(xs.takeWhile p).length) := by
  have hpos := length_pos_of_ne_nil hne
  have hle := (takeWhile_sublist p (l := xs)).length_le
  exact narrow_cut h xs.length xs.length 0 le_rfl hpos (by omega) (by omega) (.inl rfl)

/-- On a partitioned list the search finds the cut. -/
theorem partitionPoint_eq (h : Partitioned p xs) :
    partitionPoint p xs=(xs.takeWhile p).length := by
  have hp : (fun x => (if p x then Ordering.lt else Ordering.gt) != Ordering.gt)=p := by
    funext x
    cases p x <;> rfl
  unfold partitionPoint binarySearchBy
  dsimp only
  rw [hp]
  by_cases hne : xs=[]
  · subst hne
    rfl
  obtain ⟨hlt,hle,hor⟩ := narrow_full h hne
  generalize narrow p xs xs.length xs.length 0=base at hlt hle hor
  have hiff := h.getElem_iff hlt
  rw [getElem?_eq_getElem hlt,Option.map_some]
  cases hq : p xs[base] with
  | true =>
    have := hiff.mp hq
    simp only [if_true]
    omega
  | false =>
    have hge : ¬ base<(xs.takeWhile p).length := by
      rw [←hiff,hq]
      exact Bool.false_ne_true
    simp only [Bool.false_eq_true,if_false]
    omega

/-- When everything passes, the cut is the length; no order is needed. -/
theorem partitionPoint_all (h : ∀ x∈xs,p x=true) : partitionPoint p xs=xs.length := by
  have hp : Partitioned p xs :=
    pairwise_of_forall_mem_list (fun a ha _ _ _ => h a ha)
  rw [partitionPoint_eq hp,takeWhile_eq_self_iff.mpr h]

section

variable (h : Partitioned p xs)

include h

theorem Partitioned.takeWhile_eq : xs.takeWhile p=xs.filter p := by
  induction xs with
  | nil => rfl
  | cons x xs ih =>
    obtain ⟨hx,hxs⟩ := pairwise_cons.mp h
    cases hp : p x with
    | true => rw [takeWhile_cons_of_pos hp,filter_cons_of_pos hp,ih hxs]
    | false =>
      have hnone : ∀ y∈xs,¬ p y=true := by
        intro y hy hpy
        have := hx y hy hpy
        rw [hp] at this
        exact Bool.noConfusion this
      rw [takeWhile_cons_of_neg (by simp [hp]),filter_cons_of_neg (by simp [hp]),
        filter_eq_nil_iff.mpr hnone]

theorem Partitioned.dropWhile_eq : xs.dropWhile p=xs.filter (fun x => !p x) := by
  induction xs with
  | nil => rfl
  | cons x xs ih =>
    obtain ⟨hx,hxs⟩ := pairwise_cons.mp h
    cases hp : p x with
    | true =>
      rw [dropWhile_cons_of_pos hp,filter_cons_of_neg (by simp [hp]),ih hxs]
    | false =>
      have hall : ∀ y∈xs,(!p y)=true := by
        intro y hy
        cases hpy : p y with
        | false => rfl
        | true =>
          have := hx y hy hpy
          rw [hp] at this
          exact Bool.noConfusion this
      rw [dropWhile_cons_of_neg (by simp [hp]),filter_cons_of_pos (by simp [hp]),
        filter_eq_self.mpr hall]

/-- The search splits a partitioned list into what passes and what fails. -/
theorem Partitioned.take_eq : xs.take (partitionPoint p xs)=xs.filter p := by
  rw [partitionPoint_eq h,←h.takeWhile_eq]
  exact (prefix_iff_eq_take.mp ( takeWhile_prefix p)).symm

theorem Partitioned.drop_eq : xs.drop (partitionPoint p xs)=xs.filter (fun x => !p x) := by
  have hsplit := take_append_drop (partitionPoint p xs) xs
  rw [h.take_eq,←h.takeWhile_eq] at hsplit
  rw [←h.dropWhile_eq]
  exact append_cancel_left (hsplit.trans takeWhile_append_dropWhile.symm)

/-- Last element before the partition point. -/
def lastPassing (p : α→Bool) (xs : List α) : Option α :=
  (xs.take (partitionPoint p xs)).getLast?

theorem lastPassing_eq : lastPassing p xs=(xs.filter p).getLast? := by
  rw [lastPassing,h.take_eq]

end

theorem lastPassing_all (h : ∀ x∈xs,p x=true) : lastPassing p xs=xs.getLast? := by
  rw [lastPassing,partitionPoint_all h,take_length]

theorem getLast?_filter_of_pass {s : α} (h : xs.getLast?=some s) {q : α→Bool} (hq : q s=true)
    : (xs.filter q).getLast?=some s := by
  obtain ⟨_,rfl⟩ := getLast?_eq_some_iff.mp h
  rw [filter_append,filter_cons_of_pos hq]
  exact getLast?_concat

section Insertion

variable [LinearOrder κ] (key : α→κ)

/-- Keys ascend, equal keys allowed. -/
def SortedBy (xs : List α) : Prop := xs.Pairwise (fun a b => key a≤key b)

instance (xs : List α) : Decidable (SortedBy key xs) :=
  inferInstanceAs (Decidable (xs.Pairwise (fun a b => key a≤key b)))

/-- Stable ordered insertion: the new element lands after every equal key. -/
def insertSorted (xs : List α) (x : α) : List α :=
  let pos := partitionPoint (fun a => decide (key a≤key x)) xs
  xs.take pos++x::xs.drop pos

variable {key}

variable {xs ys : List α} {x a : α}

theorem SortedBy.partitioned_le (h : SortedBy key xs) (k : κ) :
    Partitioned (fun a => decide (key a≤k)) xs :=
  List.Pairwise.imp (fun hab hb => decide_eq_true (hab.trans (of_decide_eq_true hb))) h

/-- Lexicographic order is order by the first component. -/
theorem partitioned_fst (f g : α→ℕ) (h : SortedBy (fun a => (toLex (f a,g a) : ℕ ×ₗ ℕ)) xs)
    (n : ℕ) : Partitioned (fun a => decide (f a≤n)) xs := by
  refine List.Pairwise.imp (fun {a b} hab hb => decide_eq_true ?_) h
  have hbound := of_decide_eq_true hb
  rcases Prod.Lex.le_iff.mp hab with hlt|heq
  · exact (le_of_lt hlt).trans hbound
  · exact heq.1.le.trans hbound

/-- An insertion splits the chain at the new key. -/
theorem insertSorted_eq (h : SortedBy key xs) (x : α) :
    insertSorted key xs x =
      xs.filter (fun a => decide (key a≤key x))++
        x::xs.filter (fun a => !decide (key a≤key x)) := by
  have hp := h.partitioned_le (key x)
  unfold insertSorted
  dsimp only
  rw [hp.take_eq,hp.drop_eq]

theorem mem_insertSorted {y : α} : y∈insertSorted key xs x ↔ y=x ∨ y∈xs := by
  unfold insertSorted
  have happ := take_append_drop (partitionPoint (fun a => decide (key a≤key x)) xs) xs
  constructor
  · intro hy
    rcases mem_append.mp hy with hy|hy
    · exact .inr (mem_of_mem_take hy)
    · rcases mem_cons.mp hy with hy|hy
      · exact .inl hy
      · exact .inr (mem_of_mem_drop hy)
  · rintro (rfl|hy)
    · simp
    · rw [←happ] at hy
      rcases mem_append.mp hy with hy|hy
      · exact mem_append_left _ hy
      · exact mem_append_right _ (mem_cons_of_mem _ hy)

theorem SortedBy.insertSorted (h : SortedBy key xs) (x : α) :
    SortedBy key (insertSorted key xs x) := by
  rw [insertSorted_eq h x]
  refine pairwise_append.mpr ⟨h.filter _,pairwise_cons.mpr ⟨?_,h.filter _⟩,?_⟩
  · intro b hb
    have := (mem_filter.mp hb).2
    simp only [Bool.not_eq_true',decide_eq_false_iff_not,not_le] at this
    exact this.le
  · intro a ha b hb
    have hax : key a≤key x := of_decide_eq_true (mem_filter.mp ha).2
    rcases mem_cons.mp hb with rfl|hb
    · exact hax
    · have := (mem_filter.mp hb).2
      simp only [Bool.not_eq_true',decide_eq_false_iff_not,not_le] at this
      exact hax.trans this.le

/-- A filter sees an insertion exactly when it passes the new element. -/
theorem filter_insertSorted (h : SortedBy key xs) (x : α) (q : α→Bool) :
    (insertSorted key xs x).filter q =
      if q x then insertSorted key (xs.filter q) x else xs.filter q := by
  rw [insertSorted_eq h x,filter_append,filter_cons]
  split
  · rw [insertSorted_eq (h.filter q) x,filter_filter,filter_filter,filter_filter,filter_filter]
    simp only [Bool.and_comm]
  · have hq : SortedBy key (xs.filter q) := h.filter q
    have hp := hq.partitioned_le (key x)
    have happ := takeWhile_append_dropWhile
      (p := fun a => decide (key a≤key x)) (l := xs.filter q)
    rw [hp.takeWhile_eq,hp.dropWhile_eq,filter_filter,filter_filter] at happ
    rw [filter_filter,filter_filter]
    conv_rhs => rw [←happ]
    simp only [Bool.and_comm]

theorem getLast?_insertSorted_of_le (h : ∀ a∈xs,key a≤key x) :
    (insertSorted key xs x).getLast?=some x := by
  unfold insertSorted
  rw [partitionPoint_all (fun a ha => decide_eq_true (h a ha))]
  simp

/-- A larger key keeps the old end of the chain. -/
theorem getLast?_insertSorted_of_lt (h : SortedBy key xs) (ha : a∈xs) (hlt : key x<key a) :
    (insertSorted key xs x).getLast?=xs.getLast? := by
  have hp := h.partitioned_le (key x)
  have happ := takeWhile_append_dropWhile (p := fun a => decide (key a≤key x)) (l := xs)
  rw [hp.dropWhile_eq] at happ
  have hmem : a∈xs.filter (fun a => !decide (key a≤key x)) :=
    mem_filter.mpr ⟨ha,by simpa using hlt⟩
  rw [insertSorted_eq h x]
  conv_rhs => rw [←happ]
  rw [getLast?_append_of_ne_nil _ (cons_ne_nil _ _),
    getLast?_append_of_ne_nil _ (ne_nil_of_mem hmem),
    getLast?_cons_of_ne_nil (ne_nil_of_mem hmem)]

/-- The last element of a chain carries its largest key. -/
theorem SortedBy.le_getLast? (h : SortedBy key xs) {l : α} (ha : a∈xs) (hl : xs.getLast?=some l)
    : key a≤key l := by
  obtain ⟨_,rfl⟩ := getLast?_eq_some_iff.mp hl
  rcases mem_append.mp ha with ha|ha
  · exact (pairwise_append.mp h).2.2 a ha l (mem_singleton.mpr rfl)
  · rw [mem_singleton.mp ha]

theorem SortedBy.foldl_insertSorted (h : SortedBy key xs) (ys : List α) :
    SortedBy key (ys.foldl (VersionChain.insertSorted key) xs) := by
  induction ys generalizing xs with
  | nil => exact h
  | cons y _ ih => exact ih (h.insertSorted y)

theorem mem_foldl_insertSorted : a∈ys.foldl (insertSorted key) xs ↔ a∈xs ∨ a∈ys := by
  induction ys generalizing xs with
  | nil => simp
  | cons _ _ ih =>
    rw [foldl_cons,ih,mem_insertSorted,mem_cons]
    tauto

/-- Elements with one key, in chain order. -/
def fiber (key : α→κ) (k : κ) (xs : List α) : List α := xs.filter (fun a => decide (key a=k))

/-- An insertion extends its own fiber at the end and no other. -/
theorem fiber_insertSorted (h : SortedBy key xs) (x : α) (k : κ) :
    fiber key k (insertSorted key xs x)=fiber key k xs++if key x=k then [x] else [] := by
  unfold fiber
  rw [filter_insertSorted h]
  by_cases hx : key x=k
  · rw [if_pos (decide_eq_true hx),if_pos hx]
    have hle : ∀ a∈xs.filter (fun a => decide (key a=k)),key a≤key x := by
      intro a ha
      rw [of_decide_eq_true (mem_filter.mp ha).2,hx]
    unfold insertSorted
    dsimp only
    rw [partitionPoint_all (fun a ha => decide_eq_true (hle a ha)),take_length,drop_length]
  · rw [if_neg (by simpa using hx),if_neg hx,append_nil]

/-- Fibers of a chain built from a list are the list's. -/
theorem fiber_foldl_insertSorted (h : SortedBy key xs) (ys : List α) (k : κ) :
    fiber key k (ys.foldl (insertSorted key) xs)=fiber key k xs++fiber key k ys := by
  induction ys generalizing xs with
  | nil => simp [fiber]
  | cons y _ ih =>
    rw [foldl_cons,ih (h.insertSorted y),fiber_insertSorted h,append_assoc]
    congr 1
    unfold fiber
    rw [filter_cons]
    by_cases hy : key y=k
    · rw [if_pos hy,if_pos (decide_eq_true hy)]
      rfl
    · rw [if_neg hy,if_neg (by simpa using hy)]
      rfl

theorem mem_iff_of_fiber (h : ∀ k, fiber key k xs=fiber key k ys) (a : α) : a∈xs ↔ a∈ys := by
  have hiff : ∀ zs : List α, a∈zs ↔ a∈fiber key (key a) zs := by
    intro zs
    simp [fiber]
  rw [hiff xs,hiff ys,h]

/-- A sorted list is determined by its fibers. -/
theorem SortedBy.ext_fiber (hx : SortedBy key xs) (hy : SortedBy key ys)
    (h : ∀ k, fiber key k xs=fiber key k ys) : xs=ys := by
  induction xs generalizing ys with
  | nil =>
    have hnone : ∀ a, a∉ys := fun a ha => absurd ((mem_iff_of_fiber h a).mpr ha) not_mem_nil
    exact (eq_nil_iff_forall_not_mem.mpr hnone).symm
  | cons a _ ih =>
    obtain ⟨hax,hxs⟩ := pairwise_cons.mp hx
    cases ys with
    | nil => exact absurd ((mem_iff_of_fiber h a).mp (mem_cons_self ..)) not_mem_nil
    | cons b =>
      obtain ⟨hby,hys⟩ := pairwise_cons.mp hy
      have hba : key b≤key a := by
        rcases mem_cons.mp ((mem_iff_of_fiber h a).mp (mem_cons_self ..)) with heq|hin
        · rw [heq]
        · exact hby a hin
      have hab : key a≤key b := by
        rcases mem_cons.mp ((mem_iff_of_fiber h b).mpr (mem_cons_self ..)) with heq|hin
        · rw [heq]
        · exact hax b hin
      have hkey : key b=key a := le_antisymm hba hab
      have hheads := h (key a)
      unfold fiber at hheads
      rw [filter_cons_of_pos (by simp),filter_cons_of_pos (by simpa using hkey)] at hheads
      have heq := (cons.inj hheads).1
      subst heq
      rw [ih hxs hys (fun k => ?_)]
      have hk := h k
      unfold fiber at hk ⊢
      rw [filter_cons,filter_cons] at hk
      split at hk
      · exact (cons.inj hk).2
      · exact hk

/-- A filter on the key keeps or empties a fiber. -/
theorem fiber_filter (p : κ→Bool) (k : κ) (xs : List α) :
    fiber key k (xs.filter (fun a => p (key a)))=if p k then fiber key k xs else [] := by
  unfold fiber
  rw [filter_filter]
  by_cases hp : p k=true
  · rw [if_pos hp]
    refine filter_congr fun a _ => ?_
    by_cases ha : key a=k
    · simp [ha,hp]
    · simp [ha]
  · rw [if_neg hp,filter_eq_nil_iff]
    intro a _ ha
    obtain ⟨hk,hpass⟩ := Bool.and_eq_true_iff.mp ha
    rw [of_decide_eq_true hk] at hpass
    exact hp hpass

/-- Sorted lists whose fibers end alike end alike. -/
theorem SortedBy.getLast?_map_congr {β : Type*} {f : α→β} (hx : SortedBy key xs)
    (hy : SortedBy key ys)
    (h : ∀ k, ((fiber key k xs).getLast?).map f=((fiber key k ys).getLast?).map f) :
    (xs.getLast?).map f=(ys.getLast?).map f := by
  have hend : ∀ {zs : List α} {z : α}, zs.getLast?=some z→(fiber key (key z) zs).getLast?=some z :=
    fun hz => getLast?_filter_of_pass hz (decide_eq_true rfl)
  have hmem : ∀ {zs : List α} {k : κ} {t : α}, (fiber key k zs).getLast?=some t→t∈zs ∧ key t=k :=
    fun ht => (mem_filter.mp (mem_of_getLast? ht)).imp_right of_decide_eq_true
  cases hlx : xs.getLast? with
  | none =>
    cases hly : ys.getLast? with
    | none => rfl
    | some y =>
      have hk := h (key y)
      rw [hend hly,getLast?_eq_none_iff.mp hlx] at hk
      cases hk
  | some x =>
    have hk := h (key x)
    rw [hend hlx] at hk
    obtain ⟨t,ht,-⟩ := Option.map_eq_some_iff.mp hk.symm
    cases hly : ys.getLast? with
    | none =>
      rw [getLast?_eq_none_iff.mp hly] at ht
      cases ht
    | some y =>
      have hk' := h (key y)
      rw [hend hly] at hk'
      obtain ⟨u,hu,-⟩ := Option.map_eq_some_iff.mp hk'
      have hxy : key x≤key y := (hmem ht).2 ▸ hy.le_getLast? (hmem ht).1 hly
      have hyx : key y≤key x := (hmem hu).2 ▸ hx.le_getLast? (hmem hu).1 hlx
      rw [le_antisymm hxy hyx,hend hly] at hk
      exact hk

/-- Two runs in which equal keys mean equal elements can be swapped inside every
fiber. -/
theorem fiber_append_comm {zs : List α} (h : ∀ y∈ys,∀ z∈zs,key y=key z→y=z) (k : κ) :
    fiber key k (ys++zs)=fiber key k (zs++ys) := by
  unfold fiber
  rw [filter_append,filter_append]
  cases hy : ys.filter (fun a => decide (key a=k)) with
  | nil => simp
  | cons y rest =>
    cases hz : zs.filter (fun a => decide (key a=k)) with
    | nil => simp
    | cons z rest' =>
      have hin : ∀ {ws : List α} {w : α}, w∈ws.filter (fun a => decide (key a=k)) →
          w∈ws ∧ key w=k := by
        intro ws w hw
        exact ⟨(mem_filter.mp hw).1,of_decide_eq_true (mem_filter.mp hw).2⟩
      have hyin := hin (hy ▸ mem_cons_self .. : y∈ys.filter _)
      have hzin := hin (hz ▸ mem_cons_self .. : z∈zs.filter _)
      have hys : y::rest=replicate (y::rest).length z := by
        refine eq_replicate_iff.mpr ⟨rfl,fun w hw => ?_⟩
        have hwin := hin (hy ▸ hw : w∈ys.filter _)
        exact h w hwin.1 z hzin.1 (hwin.2.trans hzin.2.symm)
      have hzs : z::rest'=replicate (z::rest').length z := by
        refine eq_replicate_iff.mpr ⟨rfl,fun w hw => ?_⟩
        have hwin := hin (hz ▸ hw : w∈zs.filter _)
        have hyw := h y hyin.1 w hwin.1 (hyin.2.trans hwin.2.symm)
        have hyz := h y hyin.1 z hzin.1 (hyin.2.trans hzin.2.symm)
        exact hyw.symm.trans hyz
      rw [hys,hzs,←replicate_add,←replicate_add,add_comm]

/-- Chains built from lists with equal fibers are equal, whatever the order. -/
theorem foldl_insertSorted_congr {zs : List α} (h : ∀ k, fiber key k ys=fiber key k zs) :
    ys.foldl (insertSorted key) []=zs.foldl (insertSorted key) [] := by
  have hnil : SortedBy key ([] : List α) := List.Pairwise.nil
  refine (hnil.foldl_insertSorted ys).ext_fiber (hnil.foldl_insertSorted zs) (fun k => ?_)
  rw [fiber_foldl_insertSorted hnil,fiber_foldl_insertSorted hnil,h]

/-- Elements arriving in order are filed in order. -/
theorem foldl_insertSorted_of_sorted (h : SortedBy key ys) :
    ys.foldl (insertSorted key) []=ys := by
  have hnil : SortedBy key ([] : List α) := List.Pairwise.nil
  refine (hnil.foldl_insertSorted ys).ext_fiber h (fun k => ?_)
  rw [fiber_foldl_insertSorted hnil]
  rfl

/-- A filter commutes with building a chain. -/
theorem filter_foldl_insertSorted (h : SortedBy key xs) (ys : List α) (q : α→Bool) :
    (ys.foldl (insertSorted key) xs).filter q =
      (ys.filter q).foldl (insertSorted key) (xs.filter q) := by
  induction ys generalizing xs with
  | nil => rfl
  | cons y _ ih =>
    rw [foldl_cons,ih (h.insertSorted y),filter_insertSorted h,filter_cons]
    split <;> rfl

/-- Insertions a filter rejects leave the filtered chain as it was. -/
theorem filter_foldl_insertSorted_of_neg (h : SortedBy key xs) {q : α→Bool}
    (hq : ∀ y∈ys,q y=false) : (ys.foldl (insertSorted key) xs).filter q=xs.filter q := by
  have hnone : ys.filter q=[] := by
    rw [filter_eq_nil_iff]
    intro y hy
    rw [hq y hy]
    exact Bool.false_ne_true
  rw [filter_foldl_insertSorted h,hnone,foldl_nil]

/-- A key-preserving map commutes with building a chain. -/
theorem map_foldl_insertSorted {f : α→α} (hf : ∀ a, key (f a)=key a) (ys : List α) :
    (ys.foldl (insertSorted key) []).map f=(ys.map f).foldl (insertSorted key) [] := by
  have hnil : SortedBy key ([] : List α) := List.Pairwise.nil
  have hmapped : SortedBy key ((ys.foldl (insertSorted key) []).map f) := by
    refine pairwise_map.mpr (List.Pairwise.imp (fun {a b} hab => ?_) (hnil.foldl_insertSorted ys))
    rw [hf,hf]
    exact hab
  have hfiber : ∀ (k : κ) (zs : List α), fiber key k (zs.map f)=(fiber key k zs).map f := by
    intro k zs
    unfold fiber
    rw [filter_map]
    congr 1
    exact filter_congr (fun a _ => by simp only [Function.comp,hf])
  refine hmapped.ext_fiber (hnil.foldl_insertSorted _) (fun k => ?_)
  rw [hfiber,fiber_foldl_insertSorted hnil,fiber_foldl_insertSorted hnil,hfiber]
  rfl

/-- Keys ascend strictly. -/
def StrictBy (key : α→κ) (xs : List α) : Prop := xs.Pairwise (fun a b => key a<key b)

/-- Ordered insertion that overwrites an equal key. -/
def insertOrReplace (key : α→κ) (xs : List α) (x : α) : List α :=
  match binarySearchBy (fun a => compare (key a) (key x)) xs with
  | .ok pos => xs.set pos x
  | .error pos => xs.take pos++x::xs.drop pos

/-- Two runs on either side of a key are what the filters on that key select. -/
theorem filter_sides (as bs : List α) {k : κ} (ha : ∀ a∈as,key a<k)
    (hb : ∀ b∈bs,k<key b) :
    (as++bs).filter (fun a => decide (key a<k))=as ∧
      (as++bs).filter (fun a => decide (k<key a))=bs := by
  rw [filter_append,filter_append]
  rw [filter_eq_self.mpr (fun a h => decide_eq_true (ha a h)),
    filter_eq_nil_iff.mpr (fun b h => by simpa using (hb b h).le),
    filter_eq_nil_iff.mpr (fun a h => by simpa using (ha a h).le),
    filter_eq_self.mpr (fun b h => decide_eq_true (hb b h))]
  simp

/-- On strictly ascending keys the outcome is independent of the search: what
lies below the key, the new element, what lies above. -/
theorem insertOrReplace_eq (h : StrictBy key xs) (x : α) :
    insertOrReplace key xs x =
      xs.filter (fun a => decide (key a<key x))++
        x::xs.filter (fun a => decide (key x<key a)) := by
  have hsorted : SortedBy key xs := List.Pairwise.imp (fun hab => le_of_lt hab) h
  have hp := hsorted.partitioned_le (key x)
  have hpred : (fun a => compare (key a) (key x) != Ordering.gt) =
      (fun a => decide (key a≤key x)) := by
    funext a
    rw [Bool.eq_iff_iff,bne_iff_ne,decide_eq_true_iff,←compare_le_iff_le]
  unfold insertOrReplace binarySearchBy
  dsimp only
  rw [hpred]
  by_cases hne : xs=[]
  · subst hne
    rfl
  obtain ⟨hlt,hle,hor⟩ := narrow_full hp hne
  generalize narrow (fun a => decide (key a≤key x)) xs xs.length xs.length 0=base at hlt hle hor
  have hiff := hp.getElem_iff hlt
  have hsplit : xs.take base++xs[base]::xs.drop (base+1)=xs := by
    rw [getElem_cons_drop,take_append_drop]
  obtain ⟨-,hright,hbefore⟩ := pairwise_append.mp (hsplit ▸ h)
  have hafter := (pairwise_cons.mp hright).1
  have hbelow : ∀ a∈xs.take base,key a<key xs[base] :=
    fun a ha => hbefore a ha _ (mem_cons_self ..)
  have habove : ∀ j, (xs.takeWhile (fun a => decide (key a≤key x))).length≤j →
      ∀ b∈xs.drop j,key x<key b := by
    intro j hj b hb
    obtain ⟨i,_,rfl⟩ := mem_drop_iff_getElem.mp hb
    have hcut := hp.getElem_iff (i := j+i) (by omega)
    by_contra hnot
    have := hcut.mp (decide_eq_true (not_lt.mp hnot))
    omega
  rw [getElem?_eq_getElem hlt,Option.map_some]
  cases hc : compare (key xs[base]) (key x) with
  | eq =>
    have heq := compare_eq_iff_eq.mp hc
    obtain ⟨hlow,hhigh⟩ := filter_sides (xs.take base) (xs.drop (base+1)) (k := key x)
      (fun a ha => heq ▸ hbelow a ha) (fun b hb => heq ▸ hafter b hb)
    have hskip : ∀ q : α→Bool, q xs[base]=false →
        xs.filter q=(xs.take base++xs.drop (base+1)).filter q := by
      intro q hq
      conv_lhs => rw [←hsplit]
      rw [filter_append,filter_append,filter_cons_of_neg (by simp [hq])]
    rw [hskip _ (by simp [heq]),hskip _ (by simp [heq]),hlow,hhigh]
    exact set_eq_take_append_cons_drop.trans (if_pos hlt)
  | lt =>
    have hless := compare_lt_iff_lt.mp hc
    obtain ⟨hlow,hhigh⟩ := filter_sides (xs.take (base+1)) (xs.drop (base+1)) (k := key x) (by
        intro a ha
        rw [take_succ_eq_append_getElem hlt] at ha
        rcases mem_append.mp ha with ha|ha
        · exact (hbelow a ha).trans hless
        · rw [mem_singleton.mp ha]
          exact hless) (habove (base+1) hle)
    rw [take_append_drop] at hlow hhigh
    rw [hlow,hhigh]
  | gt =>
    have hgreater := compare_gt_iff_gt.mp hc
    have hge : ¬ base<(xs.takeWhile (fun a => decide (key a≤key x))).length := by
      intro hcut
      exact absurd (of_decide_eq_true (hiff.mpr hcut)) (not_le.mpr hgreater)
    have hzero : base=0 := by omega
    obtain ⟨hlow,hhigh⟩ := filter_sides [] (xs.drop base) (k := key x)
      nofun (habove base (by omega))
    rw [hzero,drop_zero,nil_append] at hlow hhigh
    rw [hlow,hhigh,hzero]
    rfl

theorem StrictBy.insertOrReplace (h : StrictBy key xs) (x : α) :
    StrictBy key (insertOrReplace key xs x) := by
  rw [insertOrReplace_eq h x]
  have hbelow : ∀ a∈xs.filter (fun a => decide (key a<key x)),key a<key x :=
    fun a ha => of_decide_eq_true (mem_filter.mp ha).2
  have habove : ∀ b∈xs.filter (fun a => decide (key x<key a)),key x<key b :=
    fun b hb => of_decide_eq_true (mem_filter.mp hb).2
  refine pairwise_append.mpr ⟨h.filter _,pairwise_cons.mpr ⟨habove,h.filter _⟩,?_⟩
  intro a ha b hb
  rcases mem_cons.mp hb with rfl|hb
  · exact hbelow a ha
  · exact (hbelow a ha).trans (habove b hb)

theorem mem_insertOrReplace (h : StrictBy key xs) {y : α} (hy : y∈insertOrReplace key xs x) :
    y=x ∨ y∈xs := by
  rw [insertOrReplace_eq h x] at hy
  rcases mem_append.mp hy with hy|hy
  · exact .inr (mem_filter.mp hy).1
  · rcases mem_cons.mp hy with hy|hy
    · exact .inl hy
    · exact .inr (mem_filter.mp hy).1

theorem insertOrReplace_above (h : StrictBy key xs) (hx : ∀ a∈xs,key a<key x) :
    insertOrReplace key xs x=xs++[x] := by
  rw [insertOrReplace_eq h x,filter_eq_self.mpr (fun a ha => decide_eq_true (hx a ha)),
    filter_eq_nil_iff.mpr (fun a ha => by simpa using (hx a ha).le)]

end Insertion

section Filing

variable {γ : Type*} [DecidableEq κ]

/-- Change the value kept under one optional key, as an entry-or-default update
of a map does. -/
def filed (k : α→Option κ) (g : γ→α→γ) (m : κ→γ) (x : α) : κ→γ :=
  fun a => if k x=some a then g (m a) x else m a

/-- Filing a list leaves under each key the fold over the elements with it. -/
theorem foldl_filed (k : α→Option κ) (g : γ→α→γ) (m : κ→γ) (xs : List α) (a : κ) :
    xs.foldl (filed k g) m a=(xs.filter (fun x => decide (k x=some a))).foldl g (m a) := by
  induction xs generalizing m with
  | nil => rfl
  | cons x _ ih =>
    rw [foldl_cons,ih]
    by_cases hk : k x=some a
    · rw [filter_cons_of_pos (by simpa using hk),foldl_cons]
      simp only [filed,if_pos hk]
    · rw [filter_cons_of_neg (by simpa using hk)]
      simp only [filed,if_neg hk]

end Filing

end Walshadow.VersionChain
