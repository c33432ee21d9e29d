import Mathlib.Tactic

/-!
# Logs ordered by extension

A replicated log is a list that is only extended, and a replica's copy is a prefix of it.
`prefix_agree` is the reason why copies of one log never disagree.
-/

namespace Log

variable {α : Type*} {xs ys zs : List α} {a b : α} {i : ℕ}

/-- An entry stays at its index when the log is extended. -/
theorem getElem?_of_isPrefix (h : xs <+: ys) (ha : xs[i]? = some a) : ys[i]? = some a := by
  obtain ⟨t, rfl⟩ := h
  have hi : i < xs.length := (List.getElem?_eq_some_iff.mp ha).1
  rw [List.getElem?_append_left hi, ha]

/-- Two copies of one log hold the same entry wherever both hold one. -/
theorem prefix_agree (hx : xs <+: zs) (hy : ys <+: zs) (ha : xs[i]? = some a)
    (hb : ys[i]? = some b) : a = b := by
  -- both entries are the log's entry at that index
  have ha' : zs[i]? = some a := getElem?_of_isPrefix hx ha
  have hb' : zs[i]? = some b := getElem?_of_isPrefix hy hb
  rw [hb'] at ha'
  exact (Option.some.inj ha').symm

end Log
