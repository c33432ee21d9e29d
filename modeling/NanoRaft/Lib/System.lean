import Mathlib.Tactic

/-!
# Labelled transition systems with guarded runs

A `System` has a set of initial states and a partial step function on labels; a label
that is not enabled in a state has no successor there. The runs considered are the ones
all of whose steps meet a guard `C`, so that a property can be stated both of every run
(`C` trivially true) and of the runs that avoid some steps.

* `Reachable.invariant` is the induction over a run;
* `runs_mono` carries a preorder from one step to a whole run;
* `reachable_of_run` turns the evaluation of a list of labels into a reachable state;
* `exists_step_of_run` finds the step that has brought about what holds at the end of a run;
* `allowed_iff_always` reads a guard that is exact for one step along a whole run, and
  `last_iff_allowed` one that keeps what can only be lost; `allowed_congr` puts one guard for
  another and `allowed_mono` a weaker one;
* `Lowers.length_add_le` bounds the length of a run by a rank that every step lowers, and
  `Lowers.exists_final` takes a run to its end.
-/

/-- A labelled transition system, deterministic once the label is chosen. -/
structure System (σ α : Type*) where
  init : σ → Prop
  next : σ → α → Option σ

namespace System

variable {σ α : Type*} (S : System σ α) {C : σ → α → Prop}

/-- One step whose label meets the guard. -/
def Step (C : σ → α → Prop) (s s' : σ) : Prop := ∃ a, C s a ∧ S.next s a = some s'

/-- The guarded runs from `s` to `s'`. -/
def Runs (C : σ → α → Prop) : σ → σ → Prop := Relation.ReflTransGen (S.Step C)

/-- The states reached from an initial state by a guarded run. -/
def Reachable (C : σ → α → Prop) (s : σ) : Prop := ∃ s₀, S.init s₀ ∧ S.Runs C s₀ s

/-- No guard: every run. -/
def anyStep : σ → α → Prop := fun _ _ => True

variable {S}

theorem reachable_init {s : σ} (h : S.init s) : S.Reachable C s := ⟨s, h, .refl⟩

theorem Reachable.step {s s' : σ} {a : α} (h : S.Reachable C s) (hC : C s a)
    (hn : S.next s a = some s') : S.Reachable C s' := by
  obtain ⟨s₀, h0, hr⟩ := h
  exact ⟨s₀, h0, hr.tail ⟨a, hC, hn⟩⟩

/-- Fewer steps are allowed, so that fewer states are reached. -/
theorem Reachable.mono {D : σ → α → Prop} {s : σ} (h : S.Reachable C s)
    (hCD : ∀ s a, C s a → D s a) : S.Reachable D s := by
  obtain ⟨s₀, h0, hr⟩ := h
  have hstep : S.Step C ≤ S.Step D := fun u u' ⟨a, hC, hn⟩ => ⟨a, hCD u a hC, hn⟩
  exact ⟨s₀, h0, Relation.ReflTransGen.mono hstep s₀ s hr⟩

/-- **The invariant rule.** What holds initially and is kept by every guarded step from a
reachable state holds in every state reached. -/
theorem Reachable.invariant {I : σ → Prop} (hinit : ∀ s, S.init s → I s)
    (hstep : ∀ s a s', S.Reachable C s → I s → C s a → S.next s a = some s' → I s')
    {s : σ} (h : S.Reachable C s) : I s := by
  obtain ⟨s₀, h0, hr⟩ := h
  induction hr with
  | refl => exact hinit s₀ h0
  | tail hr hs ih =>
    -- the run up to the last step shows that its pre-state is reachable
    obtain ⟨a, hC, hn⟩ := hs
    exact hstep _ a _ ⟨s₀, h0, hr⟩ ih hC hn

/-- A quantity that no guarded step decreases is not decreased by a run. -/
theorem runs_mono {β : Type*} [Preorder β] {f : σ → β}
    (hstep : ∀ s a s', C s a → S.next s a = some s' → f s ≤ f s')
    {s s' : σ} (h : S.Runs C s s') : f s ≤ f s' := by
  induction h with
  | refl => exact le_refl _
  | tail _ hs ih =>
    obtain ⟨a, hC, hn⟩ := hs
    exact le_trans ih (hstep _ a _ hC hn)

/-! ## Runs given by a list of labels -/

variable (S)

/-- Take the labels in order. -/
def run (s : σ) : List α → Option σ
  | [] => some s
  | a :: as => (S.next s a).bind fun s' => run s' as

/-- Every label of the list meets the guard where it is taken. -/
def Allowed (C : σ → α → Prop) (s : σ) : List α → Prop
  | [] => True
  | a :: as => C s a ∧ ∀ s' ∈ S.next s a, Allowed C s' as

instance decidableAllowed [∀ s a, Decidable (C s a)] :
    ∀ (as : List α) (s : σ), Decidable (S.Allowed C s as)
  | [], _ => isTrue trivial
  | a :: as, s =>
    have : ∀ s', Decidable (S.Allowed C s' as) := decidableAllowed as
    inferInstanceAs (Decidable (C s a ∧ ∀ s' ∈ S.next s a, S.Allowed C s' as))

variable {S}

theorem allowed_anyStep (as : List α) (s : σ) : S.Allowed anyStep s as := by
  induction as generalizing s with
  | nil => trivial
  | cons a as ih => exact ⟨trivial, fun s' _ => ih s'⟩

theorem reachable_of_run {as : List α} {s s' : σ} (h : S.Reachable C s)
    (hC : S.Allowed C s as) (hr : S.run s as = some s') : S.Reachable C s' := by
  induction as generalizing s with
  | nil =>
    obtain rfl : s = s' := Option.some.inj hr
    exact h
  | cons a as ih =>
    obtain ⟨t, ht, hrt⟩ := Option.bind_eq_some_iff.mp hr
    exact ih (h.step hC.1 ht) (hC.2 t ht) hrt

theorem run_append (as bs : List α) (s : σ) :
    S.run s (as ++ bs) = (S.run s as).bind fun t => S.run t bs := by
  induction as generalizing s with
  | nil => rfl
  | cons a as ih =>
    rw [List.cons_append, run, run, Option.bind_assoc]
    simp only [ih]

/-- A list meets a guard if each of its labels meets it in the state it is taken in. -/
theorem allowed_iff_forall (as : List α) (s : σ) :
    S.Allowed C s as ↔ ∀ bs a u, bs ++ [a] <+: as → S.run s bs = some u → C u a := by
  induction as generalizing s with
  | nil => exact iff_of_true trivial fun bs a u h _ => by simp at h
  | cons b as ih =>
    constructor
    · rintro ⟨hC, hrest⟩ bs a u hbs hu
      cases bs with
      | nil =>
        obtain ⟨rfl, _⟩ := List.cons_prefix_cons.mp hbs
        rw [← Option.some.inj hu]
        exact hC
      | cons c cs =>
        obtain ⟨rfl, hcs⟩ := List.cons_prefix_cons.mp hbs
        obtain ⟨s', hs', hu⟩ := Option.bind_eq_some_iff.mp hu
        exact (ih s').mp (hrest s' hs') cs a u hcs hu
    · intro hall
      refine ⟨hall [] b s (List.cons_prefix_cons.mpr ⟨rfl, List.nil_prefix⟩) rfl, fun s' hs' => ?_⟩
      refine (ih s').mpr fun cs a u hcs hu => ?_
      refine hall (b :: cs) a u (List.cons_prefix_cons.mpr ⟨rfl, hcs⟩) ?_
      rw [run, hs', Option.bind_some, hu]

/-- The states of a run are reachable. -/
theorem reachable_in_run {as bs : List α} {s u : σ} (h : S.Reachable C s)
    (hC : S.Allowed C s as) (hbs : bs <+: as) (hu : S.run s bs = some u) : S.Reachable C u := by
  refine reachable_of_run h ?_ hu
  rw [allowed_iff_forall] at hC ⊢
  exact fun cs a v hcs hv => hC cs a v (hcs.trans hbs) hv

/-- **Crossing.** What does not hold at the start of a run and holds at its end, some step of
the run has brought about. -/
theorem exists_step_of_run {P : σ → Prop} {as : List α} {s t : σ} (hrun : S.run s as = some t)
    (hs : ¬ P s) (ht : P t) :
    ∃ bs a u u', bs ++ [a] <+: as ∧ S.run s bs = some u ∧ S.next u a = some u' ∧ ¬ P u ∧ P u' := by
  induction as generalizing s with
  | nil =>
    obtain rfl : s = t := Option.some.inj hrun
    exact absurd ht hs
  | cons a as ih =>
    obtain ⟨s', hs', hrun'⟩ := Option.bind_eq_some_iff.mp hrun
    by_cases hP : P s'
    · exact ⟨[], a, s, s', ⟨as, rfl⟩, rfl, hs', hs, hP⟩
    · obtain ⟨bs, b, u, u', hbs, hu, hu', hno, hyes⟩ := ih hrun' hP
      refine ⟨a :: bs, b, u, u', List.cons_prefix_cons.mpr ⟨rfl, hbs⟩, ?_, hu', hno, hyes⟩
      rw [run, hs', Option.bind_some, hu]

/-- A test that the last state of an allowed run passes is passed by a reachable state. -/
theorem exists_of_run (as : List α) {s : σ} (p : σ → Bool) (h : S.Reachable C s)
    (hC : S.Allowed C s as) (hr : (S.run s as).any p = true) :
    ∃ s', S.Reachable C s' ∧ p s' = true := by
  obtain ⟨s', hs', hp⟩ := (Option.any_eq_true p _).mp hr
  exact ⟨s', reachable_of_run h hC hs', hp⟩

/-- **Exact guards.** `P` is to hold in every state of a run and `K` is known wherever `P`
holds. When the guard of a step says exactly whether the step keeps `P`, the run meets the
guard throughout if and only if `P` holds throughout. -/
theorem allowed_iff_always {K P : σ → Prop}
    (hstep : ∀ s a s', K s → P s → S.next s a = some s' → (P s' ↔ C s a) ∧ (P s' → K s'))
    (as : List α) {s t : σ} (hK : K s) (hP : P s) (hrun : S.run s as = some t) :
    S.Allowed C s as ↔ ∀ bs u, bs <+: as → S.run s bs = some u → P u := by
  induction as generalizing s with
  | nil =>
    refine ⟨fun _ bs u hbs hu => ?_, fun _ => trivial⟩
    rw [List.prefix_nil.mp hbs] at hu
    rw [← Option.some.inj hu]
    exact hP
  | cons a as ih =>
    obtain ⟨s', hs', hrun'⟩ := Option.bind_eq_some_iff.mp hrun
    obtain ⟨hiff, hkeep⟩ := hstep s a s' hK hP hs'
    have hone : S.run s [a] = some s' := by
      simp [run, hs']
    constructor
    · rintro ⟨hC, hrest⟩ bs u hbs hu
      -- a prefix is empty or begins with the first label
      rcases List.prefix_cons_iff.mp hbs with rfl | ⟨cs, rfl, hcs⟩
      · rw [← Option.some.inj hu]
        exact hP
      · obtain ⟨_, hs'', hu'⟩ := Option.bind_eq_some_iff.mp hu
        obtain rfl := Option.some.inj (hs'.symm.trans hs'')
        have hP' := hiff.mpr hC
        exact (ih (hkeep hP') hP' hrun').mp (hrest s' hs') cs u hcs hu'
    · intro hall
      have hP' : P s' := hall [a] s' ⟨as, rfl⟩ hone
      refine ⟨hiff.mp hP', fun s'' hs'' => ?_⟩
      obtain rfl := Option.some.inj (hs'.symm.trans hs'')
      refine (ih (hkeep hP') hP' hrun').mpr fun bs u hbs hu => ?_
      refine hall (a :: bs) u (List.prefix_cons_iff.mpr (Or.inr ⟨bs, rfl, hbs⟩)) ?_
      rw [run, hs', Option.bind_some, hu]

/-- **Another guard.** `K` is known at the start and kept by what `C` allows. Where two guards
say the same in the states in which `K` is known, they allow the same runs. -/
theorem allowed_congr {C D : σ → α → Prop} {K : σ → Prop}
    (hstep : ∀ s a s', K s → S.next s a = some s' → (D s a ↔ C s a) ∧ (C s a → K s'))
    (as : List α) {s t : σ} (hK : K s) (hrun : S.run s as = some t) :
    S.Allowed D s as ↔ S.Allowed C s as := by
  induction as generalizing s with
  | nil => exact Iff.rfl
  | cons a as ih =>
    obtain ⟨s', hs', hrun'⟩ := Option.bind_eq_some_iff.mp hrun
    obtain ⟨hiff, hkeep⟩ := hstep s a s' hK hs'
    unfold Allowed
    rw [hiff]
    apply and_congr_right
    intro hC
    have hrest := ih (hkeep hC) hrun'
    constructor
    · intro hall s'' hs''
      obtain rfl := Option.some.inj (hs'.symm.trans hs'')
      exact hrest.mp (hall s' hs')
    · intro hall s'' hs''
      obtain rfl := Option.some.inj (hs'.symm.trans hs'')
      exact hrest.mpr (hall s' hs')

/-- What every allowed step keeps, an allowed run keeps. -/
theorem invariant_of_run {I : σ → Prop}
    (hstep : ∀ s a s', I s → C s a → S.next s a = some s' → I s')
    (as : List α) {s t : σ} (h : I s) (hC : S.Allowed C s as) (hrun : S.run s as = some t) :
    I t := by
  induction as generalizing s with
  | nil =>
    obtain rfl : s = t := Option.some.inj hrun
    exact h
  | cons a as ih =>
    obtain ⟨s', hs', hrun'⟩ := Option.bind_eq_some_iff.mp hrun
    exact ih (hstep s a s' h hC.1 hs') (hC.2 s' hs') hrun'

/-- What is known after so much time, and every allowed step keeps as time goes by, is known after
an allowed run when the time of its steps is added. -/
theorem timed_of_run {I : ℕ → σ → Prop} {w : α → ℕ}
    (hstep : ∀ n s a s', I n s → C s a → S.next s a = some s' → I (n + w a) s')
    (as : List α) {n : ℕ} {s t : σ} (h : I n s) (hC : S.Allowed C s as)
    (hrun : S.run s as = some t) : I (n + (as.map w).sum) t := by
  induction as generalizing n s with
  | nil =>
    obtain rfl : s = t := Option.some.inj hrun
    exact h
  | cons a as ih =>
    obtain ⟨s', hs', hrun'⟩ := Option.bind_eq_some_iff.mp hrun
    have hrest := ih (hstep n s a s' h hC.1 hs') (hC.2 s' hs') hrun'
    rw [List.map_cons, List.sum_cons, ← Nat.add_assoc]
    exact hrest

/-- Two allowed runs, one after the other. -/
theorem allowed_append {as bs : List α} {s t : σ} (hC : S.Allowed C s as)
    (hrun : S.run s as = some t) (hC' : S.Allowed C t bs) : S.Allowed C s (as ++ bs) := by
  induction as generalizing s with
  | nil =>
    obtain rfl : s = t := Option.some.inj hrun
    exact hC'
  | cons a as ih =>
    obtain ⟨s', hs', hrun'⟩ := Option.bind_eq_some_iff.mp hrun
    refine ⟨hC.1, fun s'' hs'' => ?_⟩
    obtain rfl := Option.some.inj (hs'.symm.trans hs'')
    exact ih (hC.2 s' hs') hrun'

/-- A guard that allows only what another one does, in the states in which `I` is known, allows
only runs that the other one allows. -/
theorem allowed_mono {C D : σ → α → Prop} {I : σ → Prop}
    (hstep : ∀ s a s', I s → C s a → S.next s a = some s' → D s a ∧ I s')
    (as : List α) {s t : σ} (h : I s) (hrun : S.run s as = some t) (hC : S.Allowed C s as) :
    S.Allowed D s as := by
  induction as generalizing s with
  | nil => trivial
  | cons a as ih =>
    obtain ⟨s', hs', hrun'⟩ := Option.bind_eq_some_iff.mp hrun
    obtain ⟨hD, hI⟩ := hstep s a s' h hC.1 hs'
    refine ⟨hD, fun s'' hs'' => ?_⟩
    obtain rfl := Option.some.inj (hs'.symm.trans hs'')
    exact ih hI hrun' (hC.2 s' hs')

/-- **Lost for good.** A property that no step brings back holds at the end of a run if and
only if it held before and every step has met the guard that keeps it. -/
theorem last_iff_allowed {P : σ → Prop}
    (hstep : ∀ s a s', S.next s a = some s' → (P s' ↔ P s ∧ C s a))
    (as : List α) {s t : σ} (hrun : S.run s as = some t) : P t ↔ P s ∧ S.Allowed C s as := by
  induction as generalizing s with
  | nil =>
    obtain rfl : s = t := Option.some.inj hrun
    exact (and_iff_left trivial).symm
  | cons a as ih =>
    obtain ⟨s', hs', hrun'⟩ := Option.bind_eq_some_iff.mp hrun
    rw [ih hrun', hstep s a s' hs', and_assoc]
    refine and_congr_right fun _ => and_congr_right fun _ => ?_
    constructor
    · intro hrest s'' hs''
      obtain rfl := Option.some.inj (hs'.symm.trans hs'')
      exact hrest
    · intro hall
      exact hall s' hs'

/-! ## Ranks -/

section Rank

variable {K : σ → Prop} {rank : σ → ℕ}

/-- Every allowed step, from a state in which `K` is known, keeps it and lowers the rank. -/
def Lowers (S : System σ α) (C : σ → α → Prop) (K : σ → Prop) (rank : σ → ℕ) : Prop :=
  ∀ s a s', K s → C s a → S.next s a = some s' → K s' ∧ rank s' < rank s

/-- An allowed run has no more steps than it costs rank. -/
theorem Lowers.length_add_le (h : S.Lowers C K rank) (as : List α) {s t : σ} (hK : K s)
    (hC : S.Allowed C s as) (hrun : S.run s as = some t) : as.length + rank t ≤ rank s := by
  induction as generalizing s with
  | nil =>
    obtain rfl : s = t := Option.some.inj hrun
    exact le_of_eq (Nat.zero_add _)
  | cons a as ih =>
    obtain ⟨s', hs', hrun'⟩ := Option.bind_eq_some_iff.mp hrun
    obtain ⟨hK', hlt⟩ := h s a s' hK hC.1 hs'
    have hle := ih hK' (hC.2 s' hs') hrun'
    rw [List.length_cons]
    omega

/-- Some allowed run ends where no allowed step is enabled. -/
theorem Lowers.exists_final (h : S.Lowers C K rank) {s : σ} (hK : K s) :
    ∃ as t, S.Allowed C s as ∧ S.run s as = some t ∧ ∀ a, C t a → S.next t a = none := by
  induction hn : rank s using Nat.strong_induction_on generalizing s with
  | _ n ih =>
    by_cases hfinal : ∀ a, C s a → S.next s a = none
    · exact ⟨[], s, trivial, rfl, hfinal⟩
    · push Not at hfinal
      obtain ⟨a, hC, hnext⟩ := hfinal
      obtain ⟨s', hs'⟩ := Option.ne_none_iff_exists'.mp hnext
      obtain ⟨hK', hlt⟩ := h s a s' hK hC hs'
      obtain ⟨as, t, hallowed, hrun, hlast⟩ := ih _ (hn ▸ hlt) hK' rfl
      refine ⟨a :: as, t, ⟨hC, fun u hu => ?_⟩, ?_, hlast⟩
      · obtain rfl := Option.some.inj (hs'.symm.trans hu)
        exact hallowed
      · rw [run, hs', Option.bind_some]
        exact hrun

end Rank

/-! ## Two systems side by side -/

/-- Each step is one of either system. -/
def both {τ β : Type*} (S : System σ α) (T : System τ β) : System (σ × τ) (α ⊕ β) where
  init p := S.init p.1 ∧ T.init p.2
  next p
    | .inl a => (S.next p.1 a).map fun s => (s, p.2)
    | .inr b => (T.next p.2 b).map fun t => (p.1, t)

theorem both_next_inr {τ β : Type*} {S : System σ α} {T : System τ β} {p p' : σ × τ} {b : β}
    (h : (S.both T).next p (.inr b) = some p') : T.next p.2 b = some p'.2 := by
  obtain ⟨t, ht, rfl⟩ := Option.map_eq_some_iff.mp h
  exact ht

end System
