import Mathlib.Tactic

/-!
# Two-way links

Names that refer to objects, and objects that are tied to names. Both directions are set
together by `tie`, and an object may go away without the name being told, so a reference
may dangle. `Paired` is the direction from the names to the objects that are there, `Owned`
the other one.

* `paired_tie_iff`: a tie keeps the links paired unless it takes an object away from
  another name.
-/

/-- References from names to objects, and the objects that are there, each with the name it
is tied to. -/
@[ext] structure Pairing (ι κ : Type*) where
  ref : ι → Option κ
  side : κ → Option (Option ι)

namespace Pairing

variable {ι κ : Type*} {p : Pairing ι κ} {x : ι} {o : κ}

/-- An object that a name refers to is tied to that name. -/
def Paired (p : Pairing ι κ) : Prop :=
  ∀ x o y, p.ref x = some o → p.side o = some y → y = some x

/-- The name an object is tied to refers to it. -/
def Owned (p : Pairing ι κ) : Prop :=
  ∀ x o, p.side o = some (some x) → p.ref x = some o

/-- An object that a name refers to is tied to some name. -/
def Touched (p : Pairing ι κ) : Prop := ∀ x o, p.ref x = some o → p.side o ≠ some none

/-- No two names refer to one object. -/
theorem Paired.unique (h : p.Paired) {x' : ι} {y : Option ι} (hx : p.ref x = some o)
    (hx' : p.ref x' = some o) (ho : p.side o = some y) : x = x' := by
  have h1 := h x o y hx ho
  rw [h x' o y hx' ho] at h1
  exact (Option.some.inj h1).symm

/-! ## Objects come and go -/

section Objects

variable [DecidableEq κ]

/-- An object appears, tied to no name. -/
def add (p : Pairing ι κ) (o : κ) : Pairing ι κ :=
  { p with side := Function.update p.side o (some none) }

/-- An object goes away. -/
def drop (p : Pairing ι κ) (o : κ) : Pairing ι κ :=
  { p with side := Function.update p.side o none }

theorem side_add (p : Pairing ι κ) (o o' : κ) :
    (p.add o).side o' = if o' = o then some none else p.side o' :=
  Function.update_apply _ _ _ _

theorem side_drop (p : Pairing ι κ) (o o' : κ) :
    (p.drop o).side o' = if o' = o then none else p.side o' :=
  Function.update_apply _ _ _ _

theorem Paired.add (h : p.Paired) (hfresh : ∀ x, p.ref x ≠ some o) : (p.add o).Paired := by
  intro x o' y hx ho
  rw [side_add] at ho
  split_ifs at ho with heq
  · rw [heq] at hx
    exact absurd hx (hfresh x)
  · exact h x o' y hx ho

theorem Owned.add (h : p.Owned) : (p.add o).Owned := by
  intro x o' ho
  rw [side_add] at ho
  split_ifs at ho with heq
  · cases Option.some.inj ho
  · exact h x o' ho

theorem Paired.drop (h : p.Paired) (o : κ) : (p.drop o).Paired := by
  intro x o' y hx ho
  rw [side_drop] at ho
  split_ifs at ho with heq
  exact h x o' y hx ho

theorem Owned.drop (h : p.Owned) (o : κ) : (p.drop o).Owned := by
  intro x o' ho
  rw [side_drop] at ho
  split_ifs at ho with heq
  exact h x o' ho

theorem Touched.add (h : p.Touched) (hfresh : ∀ x, p.ref x ≠ some o) : (p.add o).Touched := by
  intro x o' hx
  rw [side_add, if_neg fun heq => hfresh x (by rw [← heq]; exact hx)]
  exact h x o' hx

theorem Touched.drop (h : p.Touched) (o : κ) : (p.drop o).Touched := by
  intro x o' hx
  rw [side_drop]
  split_ifs
  · simp
  · exact h x o' hx

end Objects

/-! ## Ties -/

variable [DecidableEq ι] [DecidableEq κ]

/-- A name and an object are tied to each other. -/
def tie (p : Pairing ι κ) (x : ι) (o : κ) : Pairing ι κ where
  ref := Function.update p.ref x (some o)
  side := Function.update p.side o (some (some x))

theorem ref_tie (p : Pairing ι κ) (x z : ι) (o : κ) :
    (p.tie x o).ref z = if z = x then some o else p.ref z :=
  Function.update_apply _ _ _ _

theorem side_tie (p : Pairing ι κ) (x : ι) (o o' : κ) :
    (p.tie x o).side o' = if o' = o then some (some x) else p.side o' :=
  Function.update_apply _ _ _ _

theorem Touched.tie (h : p.Touched) (x : ι) (o : κ) : (p.tie x o).Touched := by
  intro z o' hz
  rw [ref_tie] at hz
  rw [side_tie]
  by_cases heq : o' = o
  · simp [heq]
  · rw [if_neg heq]
    split_ifs at hz
    · exact absurd (Option.some.inj hz).symm heq
    · exact h z o' hz

/-- A name is tied to one object at a time if the other one has gone. -/
theorem Owned.tie (h : p.Owned) (hother : ∀ o', o' ≠ o → p.side o' ≠ some (some x)) :
    (p.tie x o).Owned := by
  intro z o' ho
  rw [side_tie] at ho
  rw [ref_tie]
  split_ifs at ho with heq
  · have hz : x = z := Option.some.inj (Option.some.inj ho)
    rw [if_pos hz.symm, heq]
  · have hz : z ≠ x := fun hzx => hother o' heq (by rw [← hzx]; exact ho)
    rw [if_neg hz]
    exact h z o' ho

/-- **When a tie keeps the links paired**: the object was free or tied to that name already. -/
theorem paired_tie_iff (hp : p.Paired) (ho : p.Owned) {y : Option ι} (hside : p.side o = some y) :
    (p.tie x o).Paired ↔ ∀ z, y = some z → z = x := by
  constructor
  · intro h z hz
    by_contra hne
    -- the name the object is taken away from still refers to it
    rw [hz] at hside
    have href : (p.tie x o).ref z = some o := by
      rw [ref_tie, if_neg hne]
      exact ho z o hside
    have htied := h z o (some x) href (by rw [side_tie, if_pos rfl])
    exact hne (Option.some.inj htied).symm
  · intro hfree z o' w hz hw
    rw [ref_tie] at hz
    rw [side_tie] at hw
    by_cases hzx : z = x
    · rw [if_pos hzx] at hz
      rw [if_pos (Option.some.inj hz).symm] at hw
      rw [hzx]
      exact (Option.some.inj hw).symm
    · rw [if_neg hzx] at hz
      by_cases heq : o' = o
      · rw [heq] at hz
        exact absurd (hfree z (hp z o y hz hside)) hzx
      · rw [if_neg heq] at hw
        exact hp z o' w hz hw

end Pairing
