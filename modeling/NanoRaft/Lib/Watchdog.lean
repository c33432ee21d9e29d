import NanoRaft.Lib.System

/-!
# Watchdogs

A run in which events take time and some of them reset a watchdog of `n` units: it stays quiet
as long as less than `n` units have gone by since the last reset, or since the start.

* `quiet_iff_recurs`: it stays quiet exactly if every stretch of the run that lasts `n` units has
  a reset in it.
-/

namespace Watchdog

variable {σ α : Type*} (S : System σ α) (dur : α → ℕ) (reset : σ → α → Bool) (n : ℕ)

/-- Less than `n` units have gone by since the last reset, all along a run that begins `x` units
after one. -/
def Quiet : ℕ → σ → List α → Prop
  | x, _, [] => x < n
  | x, s, a :: as => x < n ∧
    ∀ s' ∈ S.next s a, Quiet (if reset s a then 0 else x + dur a) s' as

instance decidableQuiet : ∀ (x : ℕ) (s : σ) (as : List α), Decidable (Quiet S dur reset n x s as)
  | x, _, [] => inferInstanceAs (Decidable (x < n))
  | x, s, a :: as =>
    have : ∀ s', Decidable (Quiet S dur reset n (if reset s a then 0 else x + dur a) s' as) :=
      fun s' => decidableQuiet _ s' as
    inferInstanceAs (Decidable (x < n ∧ ∀ s' ∈ S.next s a, _))

/-- A run without a reset. -/
def Idle (s : σ) (as : List α) : Prop := S.Allowed (fun s a => reset s a = false) s as

/-- Every stretch of the run without a reset lasts less than `n` units. -/
def Recurs (s : σ) (as : List α) : Prop :=
  ∀ bs cs u, bs ++ cs <+: as → S.run s bs = some u → Idle S reset u cs → (cs.map dur).sum < n

variable {S dur reset n} {x : ℕ} {s t : σ} {as cs : List α}

theorem Quiet.lt (h : Quiet S dur reset n x s as) : x < n := by
  cases as with
  | nil => exact h
  | cons a as => exact h.1

/-- A stretch without a reset takes its time off what is left. -/
theorem Quiet.sum_lt (h : Quiet S dur reset n x s as) (hrun : S.run s as = some t)
    (hcs : cs <+: as) (hidle : Idle S reset s cs) : x + (cs.map dur).sum < n := by
  induction cs generalizing x s as with
  | nil => exact h.lt
  | cons c cs ih =>
    cases as with
    | nil => simp at hcs
    | cons a as =>
      obtain ⟨rfl, hcs'⟩ := List.cons_prefix_cons.mp hcs
      obtain ⟨s', hs', hrun'⟩ := Option.bind_eq_some_iff.mp hrun
      have hrest := h.2 s' hs'
      rw [hidle.1, if_neg Bool.false_ne_true] at hrest
      have hlt := ih hrest hrun' hcs' (hidle.2 s' hs')
      rw [List.map_cons, List.sum_cons]
      omega

/-- A quiet run is quiet from every one of its states on. -/
theorem Quiet.rest {bs : List α} {u : σ} (h : Quiet S dur reset n x s as)
    (hu : S.run s bs = some u) (hbs : bs ++ cs <+: as) :
    ∃ y as', Quiet S dur reset n y u as' ∧ cs <+: as' ∧ as = bs ++ as' := by
  induction bs generalizing x s as with
  | nil =>
    obtain rfl := Option.some.inj hu
    exact ⟨x, as, h, hbs, rfl⟩
  | cons b bs ih =>
    cases as with
    | nil => simp at hbs
    | cons a as =>
      obtain ⟨rfl, hbs'⟩ := List.cons_prefix_cons.mp hbs
      obtain ⟨s', hs', hu'⟩ := Option.bind_eq_some_iff.mp hu
      obtain ⟨y, as', hy, hcs, rfl⟩ := ih (h.2 s' hs') hu' hbs'
      exact ⟨y, as', hy, hcs, rfl⟩

theorem Recurs.tail {a : α} {s' : σ} (h : Recurs S dur reset n s (a :: as))
    (hs' : S.next s a = some s') : Recurs S dur reset n s' as := by
  intro bs cs u hbs hu hidle
  refine h (a :: bs) cs u (List.cons_prefix_cons.mpr ⟨rfl, hbs⟩) ?_ hidle
  rw [System.run, hs', Option.bind_some, hu]

/-- The first reset is in time, and so are the later ones. -/
theorem quiet_of_recurs (hfirst : ∀ cs, cs <+: as → Idle S reset s cs → x + (cs.map dur).sum < n)
    (h : Recurs S dur reset n s as) : Quiet S dur reset n x s as := by
  have hx : x < n := hfirst [] List.nil_prefix trivial
  induction as generalizing x s with
  | nil => exact hx
  | cons a as ih =>
    refine ⟨hx, fun s' hs' => ?_⟩
    have hrest := h.tail hs'
    have hnext : ∀ cs, cs <+: as → Idle S reset s' cs →
        (if reset s a then 0 else x + dur a) + (cs.map dur).sum < n := by
      intro cs hcs hidle
      split_ifs with hreset
      · rw [Nat.zero_add]
        exact hrest [] cs s' hcs rfl hidle
      · -- the stretch began before the step
        have hidle' : Idle S reset s (a :: cs) := by
          refine ⟨Bool.eq_false_iff.mpr hreset, fun s'' hs'' => ?_⟩
          obtain rfl := Option.some.inj (hs'.symm.trans hs'')
          exact hidle
        have hlt := hfirst (a :: cs) (List.cons_prefix_cons.mpr ⟨rfl, hcs⟩) hidle'
        rw [List.map_cons, List.sum_cons] at hlt
        omega
    exact ih hnext hrest (hnext [] List.nil_prefix trivial)

/-- **Quiet runs.** A watchdog that has been reset at the start stays quiet in a run exactly if no
stretch of `n` units goes by without a reset. -/
theorem quiet_iff_recurs (hrun : S.run s as = some t) :
    Quiet S dur reset n 0 s as ↔ Recurs S dur reset n s as := by
  constructor
  · intro hq bs cs u hbs hu hidle
    obtain ⟨y, as', hy, hcs, rfl⟩ := hq.rest hu hbs
    rw [System.run_append, hu, Option.bind_some] at hrun
    have hlt := hy.sum_lt hrun hcs hidle
    omega
  · intro hrec
    refine quiet_of_recurs (fun cs hcs hidle => ?_) hrec
    rw [Nat.zero_add]
    exact hrec [] cs s hcs rfl hidle

end Watchdog
