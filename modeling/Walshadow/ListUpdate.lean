import Mathlib

/-!
# Point updates and accepted runs of lists

How a mapped sum moves when one element of a list is replaced, and how the
accepted run at the front of a list changes when an element is appended.
-/

namespace Walshadow.ListUpdate

open List

variable {α : Type}

/-- Replacing one element moves a mapped sum by the difference of its terms. -/
theorem sum_map_set (f : α→Nat) (xs : List α) (i : Nat) (old new : α) (h : xs[i]?=some old) :
    ((xs.set i new).map f).sum+f old=(xs.map f).sum+f new := by
  induction xs generalizing i with
  | nil => simp at h
  | cons _ _ ih =>
    cases i with
    | zero =>
      simp only [getElem?_cons_zero,Option.some.injEq] at h
      subst h
      simp only [set_cons_zero,map_cons,sum_cons]
      omega
    | succ i =>
      have hi := ih i (by simpa using h)
      simp only [set_cons_succ,map_cons,sum_cons]
      omega

variable (p : α→Bool) (xs : List α)

theorem takeWhile_snoc (a : α) (h : p a=false) : (xs++[a]).takeWhile p=xs.takeWhile p := by
  rw [takeWhile_append]
  split_ifs with hlen
  · rw [takeWhile_cons_of_neg (by simp [h]),append_nil,(takeWhile_sublist p).eq_of_length hlen]
  · rfl

theorem dropWhile_snoc (a : α) (h : p a=false) : (xs++[a]).dropWhile p=xs.dropWhile p++[a] := by
  rw [dropWhile_append]
  simp [h]

/-- A concatenation to which one element alone contributes is that element's
part. -/
theorem flatMap_eq_single {β : Type} {f : α→List β} {xs : List α} {a : α} (hnodup : xs.Nodup)
    (ha : a∈xs) (h : ∀ x∈xs,x≠a→f x=[]) : xs.flatMap f=f a := by
  obtain ⟨as,bs,rfl⟩ := append_of_mem ha
  have hsplit := nodup_append.mp hnodup
  have htail := nodup_cons.mp hsplit.2.1
  have hleft : as.flatMap f=[] := by
    rw [flatMap_eq_nil_iff]
    intro x hx
    exact h x (mem_append_left _ hx) (hsplit.2.2 x hx a (mem_cons_self ..))
  have hright : bs.flatMap f=[] := by
    rw [flatMap_eq_nil_iff]
    intro x hx
    refine h x (mem_append_right _ (mem_cons_of_mem _ hx)) ?_
    rintro rfl
    exact htail.1 hx
  rw [flatMap_append,flatMap_cons,hleft,hright,nil_append,append_nil]

/-- Elements picked for the members of a list, read back, are a part of it. -/
theorem map_filterMap_sublist {β : Type} {pick : α→Option β} {back : β→α}
    (h : ∀ a b, pick a=some b→back b=a) (xs : List α) :
    ((xs.filterMap pick).map back).Sublist xs := by
  induction xs with
  | nil => exact List.Sublist.slnil
  | cons a _ ih =>
    cases hp : pick a with
    | none =>
      rw [filterMap_cons_none hp]
      exact ih.cons a
    | some b =>
      rw [filterMap_cons_some hp,map_cons,h a b hp]
      exact ih.cons_cons a

theorem sum_map_le_of_subset {f : α→ℕ} {xs ys : List α} (hnodup : xs.Nodup)
    (hsub : ∀ x∈xs,x∈ys) : (xs.map f).sum≤(ys.map f).sum := by
  obtain ⟨_,hperm,hsublist⟩ := hnodup.subperm hsub
  rw [←(hperm.map f).sum_eq]
  exact (hsublist.map f).sum_le_sum fun _ _ => Nat.zero_le _

end Walshadow.ListUpdate
