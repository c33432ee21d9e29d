import Mathlib.Tactic

/-!
# Splitting a stream into frames

A `Framing` takes one frame off the front of a list of symbols, or says that no complete
frame is there yet. Two laws are asked of it: a frame takes at least one symbol, and what
comes later in the stream does not change a frame that is already complete.

* `split` takes off frames as long as there are complete ones;
* `consume` does so chunk by chunk and keeps the rest for the next chunk;
* `consume_eq_split`: the frames and the rest do not depend on the chunks;
* `split_eq_parts`: on a beginning of encoded frames they are the frames that are complete
  in it and the incomplete end.
-/

/-- A way to take one frame off the front of a stream. -/
structure Framing (β φ : Type*) where
  /-- The first frame and what follows it; `none` while it is incomplete. -/
  next : List β → Option (φ × List β)
  shorter : ∀ {bs f rest}, next bs = some (f, rest) → rest.length < bs.length
  stable : ∀ {bs f rest} (later : List β), next bs = some (f, rest) →
    next (bs ++ later) = some (f, rest ++ later)

namespace Framing

variable {β φ : Type*} (F : Framing β φ)

/-! ## Taking off all complete frames -/

/-- All complete frames, and the incomplete end. -/
def split (bs : List β) : List φ × List β :=
  match _h : F.next bs with
  | none => ([], bs)
  | some (f, rest) => (f :: (split rest).1, (split rest).2)
termination_by bs.length
decreasing_by all_goals exact F.shorter _h

variable {F}

theorem split_of_none {bs : List β} (h : F.next bs = none) : F.split bs = ([], bs) := by
  rw [split]
  split
  · rfl
  · next heq => simp [h] at heq

theorem split_of_some {bs rest : List β} {f : φ} (h : F.next bs = some (f, rest)) :
    F.split bs = (f :: (F.split rest).1, (F.split rest).2) := by
  rw [split]
  split
  · next heq => simp [h] at heq
  · next heq =>
    obtain ⟨rfl, rfl⟩ := Prod.mk.inj (Option.some.inj (h.symm.trans heq))
    rfl

/-- What is left holds no complete frame. -/
theorem next_split (bs : List β) : F.next (F.split bs).2 = none := by
  fun_induction split F bs with
  | case1 bs h => exact h
  | case2 bs f rest h ih => exact ih

/-- There are no more frames than symbols. -/
theorem length_split_le (bs : List β) : (F.split bs).1.length ≤ bs.length := by
  fun_induction split F bs with
  | case1 bs h => exact Nat.zero_le _
  | case2 bs f rest h ih =>
    have hshort := F.shorter h
    rw [List.length_cons]
    omega

/-- Splitting a longer stream goes on where splitting its beginning stopped. -/
theorem split_append (bs later : List β) :
    F.split (bs ++ later) =
      ((F.split bs).1 ++ (F.split ((F.split bs).2 ++ later)).1,
        (F.split ((F.split bs).2 ++ later)).2) := by
  fun_induction split F bs with
  | case1 bs h => rfl
  | case2 bs f rest h ih =>
    rw [split_of_some (F.stable later h), ih]
    rfl

/-! ## Chunks -/

variable (F)

/-- Take the chunks in order, keeping what is incomplete in front of the next one. -/
def consume (pending : List β) : List (List β) → List φ × List β
  | [] => ([], pending)
  | c :: cs =>
    let r := F.split (pending ++ c)
    let t := consume r.2 cs
    (r.1 ++ t.1, t.2)

variable {F}

/-- **However the stream is cut into chunks, the same frames come out of it.** -/
theorem consume_eq_split {pending : List β} (cs : List (List β)) (h : F.next pending = none) :
    F.consume pending cs = F.split (pending ++ cs.flatten) := by
  induction cs generalizing pending with
  | nil => rw [List.flatten_nil, List.append_nil, split_of_none h, consume]
  | cons c cs ih =>
    rw [List.flatten_cons, ← List.append_assoc, split_append (pending ++ c), consume,
      ih (next_split _)]

/-! ## Encoded frames -/

/-- The frames of `fs` that are complete in a beginning `bs` of their encodings, and the
incomplete end of `bs`. -/
def parts (enc : φ → List β) : List φ → List β → List φ × List β
  | [], bs => ([], bs)
  | f :: fs, bs =>
    if (enc f).length ≤ bs.length then
      let r := parts enc fs (bs.drop (enc f).length)
      (f :: r.1, r.2)
    else ([], bs)

variable {enc : φ → List β}

/-- A proper beginning of a frame holds no complete frame. -/
theorem next_eq_none_of_append {f : φ} {bs later : List β}
    (henc : F.next (enc f) = some (f, [])) (h : bs ++ later = enc f) (hl : later ≠ []) :
    F.next bs = none := by
  cases hn : F.next bs with
  | none => rfl
  | some r =>
    obtain ⟨g, rest⟩ := r
    -- the frame found would leave over what comes later
    have happ := F.stable later hn
    rw [h, henc, Option.some.injEq, Prod.mk.injEq] at happ
    exact absurd (List.append_eq_nil_iff.mp happ.2.symm).2 hl

/-- **Splitting a beginning of encoded frames gives the complete ones and the incomplete
end.** -/
theorem split_eq_parts {fs : List φ} {bs later : List β}
    (henc : ∀ f ∈ fs, F.next (enc f) = some (f, [])) (hnil : F.next [] = none)
    (h : bs ++ later = fs.flatMap enc) : F.split bs = parts enc fs bs := by
  induction fs generalizing bs with
  | nil =>
    obtain ⟨rfl, _⟩ := List.append_eq_nil_iff.mp h
    exact split_of_none hnil
  | cons f fs ih =>
    have hf := henc f (List.mem_cons_self ..)
    rw [List.flatMap_cons] at h
    rw [parts]
    by_cases hlen : (enc f).length ≤ bs.length
    · -- the frame is complete: what follows it is a beginning of the others
      obtain ⟨rest, rfl⟩ : enc f <+: bs :=
        List.prefix_of_prefix_length_le ⟨_, rfl⟩ ⟨_, h⟩ hlen
      have hnext := F.stable rest hf
      rw [List.nil_append] at hnext
      rw [List.append_assoc, List.append_cancel_left_eq] at h
      rw [if_pos hlen, split_of_some hnext, List.drop_left,
        ih (fun g hg => henc g (List.mem_cons_of_mem f hg)) h]
    · obtain ⟨more, hmore⟩ : bs <+: enc f :=
        List.prefix_of_prefix_length_le ⟨_, h⟩ ⟨_, rfl⟩ (by omega)
      have hne : more ≠ [] := by
        rintro rfl
        rw [List.append_nil] at hmore
        rw [hmore] at hlen
        exact hlen (le_refl _)
      rw [if_neg hlen, split_of_none (next_eq_none_of_append hf hmore hne)]

/-- In the whole stream every frame is complete. -/
theorem parts_flatMap (enc : φ → List β) (fs : List φ) :
    parts enc fs (fs.flatMap enc) = (fs, []) := by
  induction fs with
  | nil => rfl
  | cons f fs ih =>
    rw [List.flatMap_cons, parts, List.drop_left, ih, if_pos]
    rw [List.length_append]
    omega

/-- The incomplete end is a beginning of one of the frames. -/
theorem parts_snd {fs : List φ} {bs later : List β} (h : bs ++ later = fs.flatMap enc) :
    (parts enc fs bs).2 = [] ∨ ∃ f ∈ fs, (parts enc fs bs).2 <+: enc f := by
  induction fs generalizing bs with
  | nil => exact Or.inl (List.append_eq_nil_iff.mp h).1
  | cons f fs ih =>
    rw [List.flatMap_cons] at h
    rw [parts]
    by_cases hlen : (enc f).length ≤ bs.length
    · obtain ⟨rest, rfl⟩ : enc f <+: bs :=
        List.prefix_of_prefix_length_le ⟨_, rfl⟩ ⟨_, h⟩ hlen
      rw [List.append_assoc, List.append_cancel_left_eq] at h
      rw [if_pos hlen, List.drop_left]
      exact (ih h).imp_right fun ⟨g, hg, hpre⟩ => ⟨g, List.mem_cons_of_mem f hg, hpre⟩
    · rw [if_neg hlen]
      have hpre : bs <+: enc f := List.prefix_of_prefix_length_le ⟨_, h⟩ ⟨_, rfl⟩ (by omega)
      exact Or.inr ⟨f, List.mem_cons_self .., hpre⟩

/-- A complete frame is not longer than the stream it is complete in. -/
theorem length_le_of_mem_parts {fs : List φ} {bs : List β} {f : φ}
    (h : f ∈ (parts enc fs bs).1) : (enc f).length ≤ bs.length := by
  induction fs generalizing bs with
  | nil => exact absurd h List.not_mem_nil
  | cons g fs ih =>
    rw [parts] at h
    by_cases hlen : (enc g).length ≤ bs.length
    · rw [if_pos hlen] at h
      rcases List.mem_cons.mp h with rfl | h
      · exact hlen
      · have hle := ih h
        rw [List.length_drop] at hle
        omega
    · rw [if_neg hlen] at h
      exact absurd h List.not_mem_nil

/-- A frame that a chunk completes is not longer than what was kept, with the chunk. -/
theorem mem_parts_append {fs : List φ} {bs c : List β} {f : φ}
    (h : f ∈ (parts enc fs (bs ++ c)).1) :
    f ∈ (parts enc fs bs).1 ∨ (enc f).length ≤ (parts enc fs bs).2.length + c.length := by
  induction fs generalizing bs with
  | nil => exact absurd h List.not_mem_nil
  | cons g fs ih =>
    by_cases hlen : (enc g).length ≤ bs.length
    · rw [parts, List.length_append, if_pos (by omega),
        List.drop_append_of_le_length hlen] at h
      rw [parts, if_pos hlen]
      rcases List.mem_cons.mp h with rfl | h
      · exact Or.inl (List.mem_cons_self ..)
      · exact (ih h).imp_left (List.mem_cons_of_mem g)
    · -- nothing was complete, so everything was kept
      have hle := length_le_of_mem_parts h
      rw [List.length_append] at hle
      rw [parts, if_neg hlen]
      exact Or.inr hle

/-- What is kept and the next chunk never exceed `n` symbols. -/
def Fits (enc : φ → List β) (n : ℕ) (fs : List φ) (chunks : List (List β)) : Prop :=
  ∀ k c, chunks[k]? = some c →
    (parts enc fs (chunks.take k).flatten).2.length + c.length ≤ n

/-- Then no frame of the stream is longer than that. -/
theorem Fits.length_le {n : ℕ} {fs : List φ} {chunks : List (List β)}
    (h : Fits enc n fs chunks) (hall : chunks.flatten = fs.flatMap enc) {f : φ} (hf : f ∈ fs) :
    (enc f).length ≤ n := by
  have key : ∀ k, ∀ f ∈ (parts enc fs (chunks.take k).flatten).1, (enc f).length ≤ n := by
    intro k
    induction k with
    | zero =>
      intro f hf
      have hle := length_le_of_mem_parts hf
      rw [List.take_zero, List.flatten_nil, List.length_nil] at hle
      omega
    | succ k ih =>
      intro f hf
      cases hc : chunks[k]? with
      | none =>
        rw [List.take_of_length_le (by have := List.getElem?_eq_none_iff.mp hc; omega),
          ← List.take_of_length_le (List.getElem?_eq_none_iff.mp hc)] at hf
        exact ih f hf
      | some c =>
        rw [List.take_add_one, hc, Option.toList_some, List.flatten_append, List.flatten_singleton] at hf
        rcases mem_parts_append hf with hf | hle
        · exact ih f hf
        · exact le_trans hle (h k c hc)
  apply key chunks.length
  rw [List.take_length, hall, parts_flatMap]
  exact hf

end Framing
