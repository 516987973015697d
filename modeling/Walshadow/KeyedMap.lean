import Mathlib

/-!
# Finite maps and sums over them

Maps with distinct keys, kept in insertion order, and how a sum over the values
moves when a key is written or erased.
-/

namespace Walshadow.KeyedMap

open List

variable {κ ν : Type} [DecidableEq κ]

/-- Value of the first pair with a key. -/
def lookup : List (κ×ν)→κ→Option ν
  | [],_ => none
  | (a,v)::m,k => if a=k then some v else lookup m k

/-- Replace the value of a key, or add it behind the others. -/
def store : List (κ×ν)→κ→ν→List (κ×ν)
  | [],k,v => [(k,v)]
  | (a,w)::m,k,v => if a=k then (k,v)::m else (a,w)::store m k v

/-- Drop a key. -/
def dropKey (m : List (κ×ν)) (k : κ) : List (κ×ν) := m.filter (fun p => decide (p.1≠k))

theorem mem_keys_store (m : List (κ×ν)) (k a : κ) (v : ν) :
    a∈(store m k v).map Prod.fst ↔ a=k ∨ a∈m.map Prod.fst := by
  induction m with
  | nil => simp [store]
  | cons p _ ih =>
    obtain ⟨b,w⟩ := p
    by_cases hb : b=k
    · subst hb
      simp [store]
    · simp only [store,if_neg hb,map_cons,mem_cons,ih]
      exact or_left_comm

theorem nodup_store {m : List (κ×ν)} (h : (m.map Prod.fst).Nodup) (k : κ) (v : ν) :
    ((store m k v).map Prod.fst).Nodup := by
  induction m with
  | nil => simp [store]
  | cons p m ih =>
    obtain ⟨b,w⟩ := p
    obtain ⟨hb,hm⟩ := nodup_cons.mp h
    by_cases hk : b=k
    · subst hk
      simpa [store] using h
    · simp only [store,if_neg hk,map_cons,nodup_cons]
      refine ⟨fun hmem => ?_,ih hm⟩
      rcases (mem_keys_store m k b v).mp hmem with heq|hin
      · exact hk heq
      · exact hb hin

theorem nodup_dropKey {m : List (κ×ν)} (h : (m.map Prod.fst).Nodup) (k : κ) :
    ((dropKey m k).map Prod.fst).Nodup :=
  h.sublist (filter_sublist.map Prod.fst)

variable {k : κ}

theorem lookup_eq_none {m : List (κ×ν)} : lookup m k=none ↔ k∉m.map Prod.fst := by
  induction m with
  | nil => simp [lookup]
  | cons p _ ih =>
    obtain ⟨b,w⟩ := p
    by_cases hb : b=k
    · simp [lookup,hb]
    · simp [lookup,hb,ih,Ne.symm hb]

variable {v : ν}

theorem mem_of_lookup {m : List (κ×ν)} (h : lookup m k=some v) : (k,v)∈m := by
  induction m with
  | nil => cases h
  | cons p _ ih =>
    obtain ⟨b,w⟩ := p
    by_cases hb : b=k
    · rw [lookup,if_pos hb] at h
      rw [hb,Option.some.inj h]
      exact mem_cons_self
    · rw [lookup,if_neg hb] at h
      exact mem_cons_of_mem _ (ih h)

theorem lookup_of_mem {m : List (κ×ν)} (hm : (m.map Prod.fst).Nodup)
    (h : (k,v)∈m) : lookup m k=some v := by
  induction m with
  | nil => cases h
  | cons p _ ih =>
    obtain ⟨b,w⟩ := p
    obtain ⟨hb,hrest⟩ := nodup_cons.mp hm
    rcases mem_cons.mp h with heq|hin
    · obtain ⟨rfl,rfl⟩ := Prod.mk.inj heq
      rw [lookup,if_pos rfl]
    · have hne : b≠k := fun heq => hb (heq ▸ mem_map.mpr ⟨(k,v),hin,rfl⟩)
      rw [lookup,if_neg hne]
      exact ih hrest hin

theorem lookup_store (m : List (κ×ν)) (k a : κ) (v : ν) :
    lookup (store m k v) a=if a=k then some v else lookup m a := by
  induction m with
  | nil => simp only [store,lookup,eq_comm]
  | cons p _ ih =>
    obtain ⟨b,w⟩ := p
    by_cases hb : b=k
    · subst hb
      by_cases ha : b=a
      · simp [store,lookup,ha]
      · simp [store,lookup,ha,Ne.symm ha]
    · by_cases ha : b=a
      · subst ha
        simp [store,lookup,hb]
      · simp [store,lookup,hb,ha,ih]

theorem lookup_dropKey (m : List (κ×ν)) (k a : κ) :
    lookup (dropKey m k) a=if a=k then none else lookup m a := by
  induction m with
  | nil => simp [dropKey,lookup]
  | cons p _ ih =>
    obtain ⟨b,w⟩ := p
    unfold dropKey at ih ⊢
    by_cases hb : b=k
    · subst hb
      by_cases ha : a=b
      · simpa [lookup,ha] using ih
      · simpa [lookup,ha,Ne.symm ha] using ih
    · by_cases ha : b=a
      · subst ha
        simp [lookup,hb]
      · simpa [lookup,hb,ha] using ih

/-- Sum of a measure over the values. -/
def total (f : ν→ℕ) (m : List (κ×ν)) : ℕ := (m.map (fun p => f p.2)).sum

variable (f : ν→ℕ)

/-- Writing a key moves a sum by the new term minus the replaced one. -/
theorem total_store (m : List (κ×ν)) (k : κ) (v : ν) :
    total f (store m k v)+(lookup m k).elim 0 f=total f m+f v := by
  induction m with
  | nil => simp [store,lookup,total]
  | cons p _ ih =>
    obtain ⟨b,w⟩ := p
    by_cases hb : b=k
    · simp only [store,lookup,total,if_pos hb,map_cons,sum_cons,Option.elim_some]
      omega
    · simp only [store,lookup,total,if_neg hb,map_cons,sum_cons] at ih ⊢
      omega

/-- Erasing a key moves a sum by its term. -/
theorem total_dropKey {m : List (κ×ν)} (h : (m.map Prod.fst).Nodup) (k : κ) :
    total f (dropKey m k)+(lookup m k).elim 0 f=total f m := by
  induction m with
  | nil => rfl
  | cons p m ih =>
    obtain ⟨b,w⟩ := p
    obtain ⟨hb,hm⟩ := nodup_cons.mp h
    by_cases hk : b=k
    · subst hk
      have hnone : lookup m b=none := lookup_eq_none.mpr hb
      have hrest := ih hm
      rw [hnone] at hrest
      simp only [dropKey,lookup,total,decide_not,decide_true,Bool.not_true,Bool.false_eq_true,
        not_false_eq_true,filter_cons_of_neg,if_true,Option.elim_some,map_cons,
        sum_cons] at hrest ⊢
      simp only [Option.elim_none] at hrest
      omega
    · have hrest := ih hm
      simp only [dropKey,lookup,total,hk,decide_not,decide_false,Bool.not_false,
        filter_cons_of_pos,if_false,map_cons,sum_cons] at hrest ⊢
      omega

/-- Map with distinct keys. -/
structure FinMap (κ ν : Type) where
  /-- Pairs in insertion order. -/
  entries : List (κ×ν)
  distinct : (entries.map Prod.fst).Nodup

namespace FinMap

/-- No keys. -/
def empty : FinMap κ ν := ⟨[],List.nodup_nil⟩

/-- Value of a key. -/
def get (m : FinMap κ ν) (k : κ) : Option ν := lookup m.entries k

/-- Write a key. -/
def put (m : FinMap κ ν) (k : κ) (v : ν) : FinMap κ ν :=
  ⟨store m.entries k v,nodup_store m.distinct k v⟩

/-- Erase a key. -/
def erase (m : FinMap κ ν) (k : κ) : FinMap κ ν :=
  ⟨dropKey m.entries k,nodup_dropKey m.distinct k⟩

/-- Number of keys. -/
def size (m : FinMap κ ν) : ℕ := m.entries.length

/-- Sum of a measure over the values. -/
def sum (f : ν→ℕ) (m : FinMap κ ν) : ℕ := total f m.entries

@[simp]
theorem get_empty (k : κ) : (empty : FinMap κ ν).get k=none := rfl

variable (m : FinMap κ ν)

theorem get_put (k a : κ) (v : ν) :
    (m.put k v).get a=if a=k then some v else m.get a := lookup_store ..

theorem get_erase (k a : κ) :
    (m.erase k).get a=if a=k then none else m.get a := lookup_dropKey ..

theorem get_eq_some {m : FinMap κ ν} : m.get k=some v ↔ (k,v)∈m.entries :=
  ⟨mem_of_lookup,lookup_of_mem m.distinct⟩

theorem sum_put (k : κ) (v : ν) :
    (m.put k v).sum f+(m.get k).elim 0 f=m.sum f+f v := total_store ..

theorem sum_erase (k : κ) :
    (m.erase k).sum f+(m.get k).elim 0 f=m.sum f := total_dropKey f m.distinct k

omit [DecidableEq κ] in
theorem size_eq_sum : m.size=m.sum (fun _ => 1) := by
  simp [size,sum,total]

omit [DecidableEq κ] in
@[simp]
theorem sum_empty : (empty : FinMap κ ν).sum f=0 := rfl

theorem le_sum {m : FinMap κ ν} (h : m.get k=some v) : f v ≤ m.sum f := by
  have hsum := m.sum_erase f k
  rw [h,Option.elim_some] at hsum
  omega

omit [DecidableEq κ] in
theorem nodup_filter {m : List (κ×ν)} (h : (m.map Prod.fst).Nodup) (p : κ→Bool) :
    ((m.filter (fun e => p e.1)).map Prod.fst).Nodup :=
  h.sublist (filter_sublist.map Prod.fst)

/-- Keep the keys with a property. -/
def restrict (m : FinMap κ ν) (p : κ→Bool) : FinMap κ ν :=
  ⟨m.entries.filter (fun e => p e.1),nodup_filter m.distinct p⟩

theorem get_restrict (p : κ→Bool) (k : κ) :
    (m.restrict p).get k=if p k=true then m.get k else none := by
  refine Option.ext fun v => ?_
  rw [get_eq_some]
  change (k,v)∈m.entries.filter (fun e => p e.1) ↔ _
  rw [mem_filter,←get_eq_some]
  split_ifs with hp
  · exact and_iff_left hp
  · simp [hp]

/-- Remove keys in order, collecting the values found. -/
def takeAll : FinMap κ ν→List κ→List ν×FinMap κ ν
  | m,[] => ([],m)
  | m,k::ks =>
    match m.get k with
    | none => takeAll m ks
    | some v => (v::(takeAll (m.erase k) ks).1,(takeAll (m.erase k) ks).2)

variable (ks : List κ)

/-- What is taken and what stays make up the sum. -/
theorem sum_takeAll : ((m.takeAll ks).1.map f).sum+(m.takeAll ks).2.sum f=m.sum f := by
  induction ks generalizing m with
  | nil => exact zero_add _
  | cons k _ ih =>
    cases hget : m.get k with
    | none =>
      simp only [takeAll,hget]
      exact ih m
    | some =>
      have herase := m.sum_erase f k
      rw [hget,Option.elim_some] at herase
      have hrest := ih (m.erase k)
      simp only [takeAll,hget,map_cons,sum_cons]
      omega

/-- A key stays with its value unless it is taken. -/
theorem get_takeAll (k : κ) : (m.takeAll ks).2.get k=if k∈ks then none else m.get k := by
  induction ks generalizing m with
  | nil => simp [takeAll]
  | cons a _ ih =>
    cases hget : m.get a with
    | none =>
      simp only [takeAll,hget,ih]
      by_cases hk : k=a
      · simp [hk,hget]
      · simp [hk]
    | some =>
      simp only [takeAll,hget,ih,get_erase]
      by_cases hk : k=a
      · simp [hk]
      · simp [hk]

/-- The values taken are those of the keys. -/
theorem mem_takeAll (v : ν) : v∈(m.takeAll ks).1 ↔ ∃ k∈ks,m.get k=some v := by
  induction ks generalizing m with
  | nil => simp [takeAll]
  | cons a _ ih =>
    cases hget : m.get a with
    | none => simp [takeAll,hget,ih]
    | some =>
      simp only [takeAll,hget,mem_cons,ih,get_erase,exists_eq_or_imp,Option.some.injEq]
      constructor
      · rintro (rfl|⟨k,hk,hv⟩)
        · exact .inl rfl
        · by_cases hka : k=a
          · simp [hka] at hv
          · rw [if_neg hka] at hv
            exact .inr ⟨k,hk,hv⟩
      · rintro (rfl|⟨k,hk,hv⟩)
        · exact .inl rfl
        · by_cases hka : k=a
          · subst hka
            rw [hget] at hv
            exact .inl (Option.some.inj hv).symm
          · exact .inr ⟨k,hk,by rw [if_neg hka]; exact hv⟩

/-- Maps related key by key give related values when keys are taken. -/
theorem forall₂_takeAll {μ : Type} {R : ν→μ→Prop} {m : FinMap κ ν} {m' : FinMap κ μ}
    (h : ∀ k, Option.Rel R (m.get k) (m'.get k)) (ks : List κ) :
    List.Forall₂ R (m.takeAll ks).1 (m'.takeAll ks).1 := by
  induction ks generalizing m m' with
  | nil => exact .nil
  | cons a _ ih =>
    have ha := h a
    cases hget : m.get a with
    | none =>
      cases hget' : m'.get a with
      | none =>
        simp only [takeAll,hget,hget']
        exact ih h
      | some =>
        rw [hget,hget'] at ha
        cases ha
    | some =>
      cases hget' : m'.get a with
      | none =>
        rw [hget,hget'] at ha
        cases ha
      | some =>
        rw [hget,hget'] at ha
        cases ha with
        | some hvw =>
          simp only [takeAll,hget,hget']
          refine .cons hvw (ih fun k => ?_)
          rw [get_erase,get_erase]
          split_ifs with hk
          · exact .none
          · exact h k

end FinMap

end Walshadow.KeyedMap
