import NanoRaft.Lib.System

/-!
# Forward simulation

A system `S` against a system `T`, both with guarded runs: one step of `S` is matched by any
number of steps of `T`. The states of `T` to be matched from are reachable ones, so that an
invariant of `T` is there in the proof of a step.

* `Simulates.reachable` is the induction over a run.
-/

namespace System

variable {σ α τ β : Type*} {S : System σ α} {T : System τ β} {C : σ → α → Prop}
  {D : τ → β → Prop} {R : σ → τ → Prop}

/-- These labels, each meeting the guard where it is taken, lead from `t` to `t'`. -/
def Path (T : System τ β) (D : τ → β → Prop) (t : τ) (bs : List β) (t' : τ) : Prop :=
  T.Allowed D t bs ∧ T.run t bs = some t'

theorem Path.nil (T : System τ β) (D : τ → β → Prop) (t : τ) : T.Path D t [] t := ⟨trivial, rfl⟩

theorem Path.cons {t t' t'' : τ} {b : β} {bs : List β} (hD : D t b) (hn : T.next t b = some t')
    (h : T.Path D t' bs t'') : T.Path D t (b :: bs) t'' := by
  refine ⟨⟨hD, fun u hu => ?_⟩, ?_⟩
  · obtain rfl := Option.some.inj (hn.symm.trans hu)
    exact h.1
  · rw [run, hn, Option.bind_some]
    exact h.2

theorem Path.single {t t' : τ} {b : β} (hD : D t b) (hn : T.next t b = some t') :
    T.Path D t [b] t' := (Path.nil T D t').cons hD hn

theorem Reachable.path {t t' : τ} {bs : List β} (h : T.Reachable D t) (hp : T.Path D t bs t') :
    T.Reachable D t' := reachable_of_run h hp.1 hp.2

/-- Each guarded step of `S` is a guarded run of `T`, as `R` relates the states. -/
structure Simulates (S : System σ α) (T : System τ β) (C : σ → α → Prop) (D : τ → β → Prop)
    (R : σ → τ → Prop) : Prop where
  init : ∀ s, S.init s → ∃ t, T.init t ∧ R s t
  step : ∀ s t a s', T.Reachable D t → R s t → C s a → S.next s a = some s' →
    ∃ bs t', T.Path D t bs t' ∧ R s' t'

/-- **The simulation rule.** -/
theorem Simulates.reachable (h : Simulates S T C D R) {s : σ} (hs : S.Reachable C s) :
    ∃ t, T.Reachable D t ∧ R s t := by
  apply hs.invariant (I := fun s => ∃ t, T.Reachable D t ∧ R s t)
  · intro s hinit
    obtain ⟨t, ht, hR⟩ := h.init s hinit
    exact ⟨t, reachable_init ht, hR⟩
  · intro s a s' _ hI hC hn
    obtain ⟨t, ht, hR⟩ := hI
    obtain ⟨bs, t', hp, hR'⟩ := h.step s t a s' ht hR hC hn
    exact ⟨t', ht.path hp, hR'⟩

end System
