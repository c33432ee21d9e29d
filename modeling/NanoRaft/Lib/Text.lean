import Mathlib.Tactic

/-!
# Lines and words

Texts over any alphabet, cut at a separator. `lines` is what a reader of lines sees of a file, and
`between` cuts the words out of a line between the places of its separators.

* `lines_append`: a complete file is read up to its end before what is written behind it;
* `between_places`: the slices are the words between the first separator and the last;
* `infix_iff_exists_word`: a pattern without the separator is found inside one word.
-/

namespace Text

variable {α : Type*} [DecidableEq α]

/-- The lines of a file; the last one need not be ended. -/
def lines (nl : α) (s : List α) : List (List α) :=
  let ls := s.splitOn nl
  if ls.getLast? = some [] then ls.dropLast else ls

/-- Every line of the file is ended. -/
def Complete (nl : α) (s : List α) : Prop := s = [] ∨ ∃ t, s = t ++ [nl]

/-- The places of the separator, the first element being at `k`. -/
def places (c : α) : ℕ → List α → List ℕ
  | _, [] => []
  | k, x :: s => if x = c then k :: places c (k + 1) s else places c (k + 1) s

/-- The slices between neighbouring places. -/
def between (s : List α) (a : List ℕ) : List (List α) :=
  (a.zip a.tail).map fun x => (s.drop (x.1 + 1)).take (x.2 - x.1 - 1)

variable {c nl : α} {s t w p : List α} {k : ℕ}

/-- **Induction over the words.** A text is a word, or a word, a separator and a text. -/
@[elab_as_elim]
theorem words_induction (c : α) {P : List α → Prop} (word : ∀ w, c ∉ w → P w)
    (sep : ∀ w s, c ∉ w → P s → P (w ++ c :: s)) (s : List α) : P s := by
  induction hn : s.length using Nat.strong_induction_on generalizing s with
  | _ n ih =>
    by_cases hc : c ∈ s
    · obtain ⟨w, t, rfl, hw⟩ := List.eq_append_cons_of_mem hc
      refine sep w t hw (ih t.length ?_ t rfl)
      rw [← hn, List.length_append, List.length_cons]
      omega
    · exact word s hc

/-! ## Words -/

theorem not_mem_of_mem_splitOn (h : w ∈ s.splitOn c) : c ∉ w := by
  induction s using words_induction c with
  | word v hv =>
    rw [List.splitOn_eq_singleton hv, List.mem_singleton] at h
    rw [h]
    exact hv
  | sep v s hv ih =>
    rw [List.splitOn_append_cons_self_of_not_mem hv, List.mem_cons] at h
    rcases h with rfl | h
    · exact hv
    · exact ih h

theorem infix_of_mem_splitOn (h : w ∈ s.splitOn c) : w <:+: s := by
  induction s using words_induction c with
  | word v hv =>
    rw [List.splitOn_eq_singleton hv, List.mem_singleton] at h
    rw [h]
  | sep v s hv ih =>
    rw [List.splitOn_append_cons_self_of_not_mem hv, List.mem_cons] at h
    rcases h with rfl | h
    · exact (List.prefix_append w (c :: s)).isInfix
    · have hs : s <:+: v ++ c :: s := ⟨v ++ [c], [], by simp⟩
      exact (ih h).trans hs

omit [DecidableEq α] in
/-- A pattern without the separator does not reach across it. -/
theorem infix_append_cons_iff (hp : c ∉ p) : p <:+: s ++ c :: t ↔ p <:+: s ∨ p <:+: t := by
  constructor
  · rintro ⟨u, v, h⟩
    rcases List.append_eq_append_iff.mp h with ⟨x, hs, _⟩ | ⟨x, hup, hct⟩
    · exact Or.inl ⟨u, x, hs.symm⟩
    · cases x with
      | nil => exact Or.inl ⟨u, [], by rw [List.append_nil, hup, List.append_nil]⟩
      | cons y x =>
        -- the separator is in `u`, so the pattern begins behind it
        obtain ⟨rfl, rfl⟩ := List.cons.inj hct
        rcases List.append_eq_append_iff.mp hup with ⟨z, _, hpz⟩ | ⟨z, _, hz⟩
        · exact absurd (by rw [hpz]; simp) hp
        · cases z with
          | nil => exact absurd (by rw [← show c :: x = p from hz]; simp) hp
          | cons y z =>
            obtain ⟨rfl, rfl⟩ := List.cons.inj hz
            exact Or.inr ⟨z, v, rfl⟩
  · rintro (h | h)
    · exact h.trans (List.prefix_append s (c :: t)).isInfix
    · exact h.trans ⟨s ++ [c], [], by simp⟩

/-- A pattern without the separator is found inside one word. -/
theorem infix_iff_exists_word (hp : c ∉ p) : p <:+: s ↔ ∃ w ∈ s.splitOn c, p <:+: w := by
  induction s using words_induction c with
  | word v hv => simp [List.splitOn_eq_singleton hv]
  | sep v s hv ih =>
    rw [infix_append_cons_iff hp, ih, List.splitOn_append_cons_self_of_not_mem hv,
      List.exists_mem_cons_iff]

/-! ## Places -/

theorem places_append (hw : c ∉ w) : places c k (w ++ s) = places c (k + w.length) s := by
  induction w generalizing k with
  | nil => rfl
  | cons x w ih =>
    rw [List.mem_cons, not_or] at hw
    rw [List.cons_append, places, if_neg (Ne.symm hw.1), ih hw.2, List.length_cons]
    congr 1
    omega

theorem places_of_not_mem (hw : c ∉ w) : places c k w = [] := by
  have h := places_append (s := []) (k := k) hw
  rwa [List.append_nil] at h

theorem places_sep (hw : c ∉ w) :
    places c k (w ++ c :: s) = (k + w.length) :: places c (k + w.length + 1) s := by
  rw [places_append hw, places, if_pos rfl]

/-- There is a separator less than there are words. -/
theorem length_places (c : α) (k : ℕ) (s : List α) :
    (places c k s).length + 1 = (s.splitOn c).length := by
  induction s using words_induction c generalizing k with
  | word w hw => rw [places_of_not_mem hw, List.splitOn_eq_singleton hw]; rfl
  | sep w s hw ih =>
    rw [places_sep hw, List.splitOn_append_cons_self_of_not_mem hw, List.length_cons,
      List.length_cons, ih]

omit [DecidableEq α] in
theorem between_cons (s : List α) (x y : ℕ) (a : List ℕ) :
    between s (x :: y :: a) = (s.drop (x + 1)).take (y - x - 1) :: between s (y :: a) := rfl

/-- The slices behind a separator. -/
theorem between_cons_places {u : List α} (hs : u.drop (k + 1) = s) :
    between u (k :: places c (k + 1) s) = (s.splitOn c).dropLast := by
  induction s using words_induction c generalizing k with
  | word w hw => rw [places_of_not_mem hw, List.splitOn_eq_singleton hw]; rfl
  | sep w s hw ih =>
    have hrest : u.drop (k + 1 + w.length + 1) = s := by
      rw [Nat.add_assoc (k + 1), ← List.drop_drop, hs, List.drop_append]
      simp
    have hlen : k + 1 + w.length - k - 1 = w.length := by omega
    rw [places_sep hw, between_cons, hs, ih hrest, hlen, List.take_left,
      List.splitOn_append_cons_self_of_not_mem hw,
      List.dropLast_cons_of_ne_nil (List.splitOn_ne_nil c s)]

/-- **The slices.** They are the words between the first separator and the last. -/
theorem between_places (c : α) (s : List α) :
    between s (places c 0 s) = (s.splitOn c).tail.dropLast := by
  induction s using words_induction c with
  | word w hw => rw [places_of_not_mem hw, List.splitOn_eq_singleton hw]; rfl
  | sep w s hw _ =>
    have hrest : (w ++ c :: s).drop (0 + w.length + 1) = s := by simp
    rw [places_sep hw, between_cons_places hrest, List.splitOn_append_cons_self_of_not_mem hw]
    rfl

/-! ## Lines -/

theorem lines_nil (nl : α) : lines nl [] = [] := rfl

/-- What is written behind an ended line is read after it. -/
theorem lines_append (s t : List α) : lines nl (s ++ nl :: t) = s.splitOn nl ++ lines nl t := by
  have hne := List.splitOn_ne_nil nl t
  unfold lines
  dsimp only
  rw [List.splitOn_append_cons_self, List.getLast?_append_of_ne_nil _ hne]
  split_ifs
  · rw [List.dropLast_append_of_ne_nil hne]
  · rfl

theorem lines_ended (s : List α) : lines nl (s ++ [nl]) = s.splitOn nl := by
  rw [lines_append, lines_nil, List.append_nil]

/-- **A complete file.** It is read up to its end before what is written behind it. -/
theorem lines_of_complete (h : Complete nl s) (t : List α) :
    lines nl (s ++ t) = lines nl s ++ lines nl t := by
  rcases h with rfl | ⟨u, rfl⟩
  · rfl
  · rw [List.append_assoc, List.singleton_append, lines_append, lines_ended]

omit [DecidableEq α] in
theorem complete_ended (s t : List α) : Complete nl (s ++ (t ++ [nl])) :=
  Or.inr ⟨s ++ t, (List.append_assoc s t [nl]).symm⟩

theorem not_mem_of_mem_lines (h : w ∈ lines nl s) : nl ∉ w := by
  unfold lines at h
  dsimp only at h
  split_ifs at h
  · exact not_mem_of_mem_splitOn (List.mem_of_mem_dropLast h)
  · exact not_mem_of_mem_splitOn h

end Text
