import Mathlib

/-!
# The newest element of a set

What it means for an optional element to be the newest of the elements with a
property, how the newest of a union is found from the newest of its parts, and
the newest element of a list. Ranks come from any linear order; two elements of
one rank are told apart only by where they stand in the list.
-/

namespace Walshadow.Newest

variable {α ρ : Type} [LinearOrder ρ] {rank : α→ρ}

/-- Nothing has the property, or the given element does and none has a higher
rank. -/
def IsNewest (rank : α→ρ) (P : α→Prop) : Option α→Prop
  | none => ∀ a, ¬P a
  | some a => P a ∧ ∀ b, P b → rank b ≤ rank a

/-- The later ranked of two optional elements, the first when they tie. -/
def newer (rank : α→ρ) : Option α→Option α→Option α
  | none,y => y
  | some a,none => some a
  | some a,some b => if rank a < rank b then some b else some a

/-- Newest element of a list. -/
def newestOf (rank : α→ρ) : List α→Option α
  | [] => none
  | a::as => newer rank (some a) (newestOf rank as)

theorem IsNewest.congr {P Q : α→Prop} {x : Option α} (h : IsNewest rank P x)
    (hPQ : ∀ a, P a ↔ Q a) : IsNewest rank Q x := by
  cases x with
  | none => exact fun a ha => h a ((hPQ a).mpr ha)
  | some a => exact ⟨(hPQ a).mp h.1,fun b hb => h.2 b ((hPQ b).mpr hb)⟩

/-- The newest of a union is the newer of the two newest. -/
theorem IsNewest.union {P Q : α→Prop} {x y : Option α} (hx : IsNewest rank P x)
    (hy : IsNewest rank Q y) : IsNewest rank (fun a => P a ∨ Q a) (newer rank x y) := by
  cases x with
  | none => exact hy.congr fun a => ⟨Or.inr,fun h => h.resolve_left (hx a)⟩
  | some =>
    cases y with
    | none => exact hx.congr fun b => ⟨Or.inl,fun h => h.resolve_right (hy b)⟩
    | some =>
      rw [newer]
      split_ifs with hlt
      · refine ⟨.inr hy.1,fun c hc => ?_⟩
        rcases hc with hc|hc
        · exact (hx.2 c hc).trans hlt.le
        · exact hy.2 c hc
      · refine ⟨.inl hx.1,fun c hc => ?_⟩
        rcases hc with hc|hc
        · exact hx.2 c hc
        · exact (hy.2 c hc).trans (not_lt.mp hlt)

/-- The newest element of a list is the newest of its members. -/
theorem isNewest_newestOf (rank : α→ρ) (as : List α) :
    IsNewest rank (·∈as) (newestOf rank as) := by
  induction as with
  | nil => exact fun a => List.not_mem_nil
  | cons a _ ih =>
    have ha : IsNewest rank (·=a) (some a) := ⟨rfl,fun b hb => hb ▸ le_rfl⟩
    exact (ha.union ih).congr fun b => List.mem_cons.symm

variable {P : α→Prop}

/-- Where ranks tell elements apart the newest is unique. -/
theorem IsNewest.unique {x y : Option α} (hinj : ∀ a b, P a→P b → rank a=rank b→a=b)
    (hx : IsNewest rank P x) (hy : IsNewest rank P y) : x=y := by
  cases x with
  | none =>
    cases y with
    | none => rfl
    | some b => exact absurd hy.1 (hx b)
  | some a =>
    cases y with
    | none => exact absurd hx.1 (hy a)
    | some b =>
      have heq := hinj a b hx.1 hy.1 (le_antisymm (hy.2 a hx.1) (hx.2 b hy.1))
      rw [heq]

theorem IsNewest.holds {a : α} (h : IsNewest rank P (some a)) : P a := h.1

theorem IsNewest.bound {x : Option α} (h : IsNewest rank P x) {a : α}
    (ha : P a) : ∃ b, x=some b ∧ rank a ≤ rank b := by
  cases x with
  | none => exact absurd ha (h a)
  | some b => exact ⟨b,rfl,h.2 a ha⟩

end Walshadow.Newest
