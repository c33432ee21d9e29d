import NanoRaft.Receive

/-!
# Dispatch

The tables through which `HandleArrivedMsg` reaches the type and the handler of a message.
The 16-bit id of the frame is split into a row and a place in the row, and neither is
compared with the tables before it is used: `LoadMsg` registers six message types, and the
constructor of `ModApi` five handlers.

* `dispatch_inside_iff`: in which runs every access to a table stays inside it.
-/

namespace NanoRaft

/-- An access to a vector with `size` elements. -/
structure TableAccess where
  size : ℕ
  index : ℤ
  deriving DecidableEq, Repr

def TableAccess.Inside (a : TableAccess) : Prop := 0 ≤ a.index ∧ a.index < a.size

instance TableAccess.decidableInside (a : TableAccess) : Decidable a.Inside :=
  inferInstanceAs (Decidable (_ ∧ _))

namespace Mod

/-- The accesses of `(*(table[i]))[j]`: there is no row to look into behind an outer index
that is outside. -/
def rowAccesses (table : List (List MessageType)) (i j : ℤ) : List TableAccess :=
  ⟨table.length, i⟩ ::
    if 0 ≤ i then (table[i.toNat]?.map fun row => ⟨row.length, j⟩).toList else []

/-- The accesses made for a complete frame, up to the first that is outside: the message type,
whose name is looked up once more for the log line, then the module and its handler. -/
def tableAccesses (dwID : UInt16) : List TableAccess :=
  let messages := rowAccesses s_stMessages (iMainID dwID) (dwSubID dwID)
  if HasMessage dwID then
    messages ++ messages ++ rowAccesses s_stMods (iMainID dwID) (dwSubID dwID)
  else messages

end Mod

namespace Buffer

/-- The test of the loop: a header, and as many bytes as it announces. -/
def Complete (b : Buffer) : Prop := ¬ b.size < 6 ∧ ¬ b.size < b.dwLen.toInt32 + 6

instance decidableComplete (b : Buffer) : Decidable b.Complete :=
  inferInstanceAs (Decidable (_ ∧ _))

/-- The table accesses of one iteration of `HandleArrivedMsg`. -/
def tableAccesses (b : Buffer) : List TableAccess :=
  if b.Complete then Mod.tableAccesses b.dwID else []

end Buffer

/-- The input side of a connection, with every access made to a table so far. -/
structure Dispatcher where
  receiver : Receiver
  tables : List TableAccess

namespace Dispatcher

/-- The tables are accessed by the iterations. -/
def tablesOf (s : Dispatcher) : RecvEvent → List TableAccess
  | .recv _ => []
  | .iterate => s.receiver.buffer.tableAccesses

def next (s : Dispatcher) (e : RecvEvent) : Option Dispatcher :=
  (s.receiver.next e).map fun r => ⟨r, s.tables ++ s.tablesOf e⟩

/-- The receive history of a fresh `Conn`. -/
def dispatching : System Dispatcher RecvEvent where
  init s := Receiver.receiving.init s.receiver ∧ s.tables = []
  next := next

/-- A complete frame has one of the ids with a handler. -/
def Handled (s : Dispatcher) : RecvEvent → Prop
  | .recv _ => True
  | .iterate => s.receiver.buffer.Complete →
      257 ≤ s.receiver.buffer.dwID ∧ s.receiver.buffer.dwID ≤ 261

instance decidableHandled (s : Dispatcher) : (e : RecvEvent) → Decidable (s.Handled e)
  | .recv _ => isTrue trivial
  | .iterate => inferInstanceAs (Decidable (_ → _))

end Dispatcher

/-! ## One frame -/

namespace Mod

/-- A lookup succeeds when both of its accesses are inside. -/
theorem rowAccesses_inside_iff (table : List (List MessageType)) (i j : ℤ) :
    (∀ a ∈ rowAccesses table i j, a.Inside) ↔ (lookup table i j).isSome := by
  rw [rowAccesses, lookup, List.forall_mem_cons]
  by_cases hi : 0 ≤ i
  · rw [if_pos hi]
    cases hrow : table[i.toNat]? with
    | none =>
      have hlen := List.getElem?_eq_none_iff.mp hrow
      have hout : ¬ TableAccess.Inside ⟨table.length, i⟩ := by
        rintro ⟨_, hlt⟩
        change i < (table.length : ℤ) at hlt
        omega
      simp [hout]
    | some row =>
      obtain ⟨hlen, _⟩ := List.getElem?_eq_some_iff.mp hrow
      have hin : TableAccess.Inside ⟨table.length, i⟩ := ⟨hi, by
        show i < (table.length : ℤ)
        omega⟩
      -- what is left is the place in the row
      have hplace : TableAccess.Inside ⟨row.length, j⟩ ↔ 0 ≤ j ∧ j.toNat < row.length := by
        show 0 ≤ j ∧ j < (row.length : ℤ) ↔ _
        omega
      by_cases hj : 0 ≤ j
      · simp [hin, hplace, hi, hj]
      · simp [hin, hplace, hj]
  · have hout : ¬ TableAccess.Inside ⟨table.length, i⟩ := fun h => hi h.1
    simp [hout, hi]

theorem tableAccesses_inside_iff (dwID : UInt16) :
    (∀ a ∈ tableAccesses dwID, a.Inside) ↔ Registered dwID := by
  have hmsg := rowAccesses_inside_iff s_stMessages (iMainID dwID) (dwSubID dwID)
  have hmod := rowAccesses_inside_iff s_stMods (iMainID dwID) (dwSubID dwID)
  rw [Registered, tableAccesses]
  by_cases hhas : HasMessage dwID
  · have hin := hmsg.mpr hhas
    rw [if_pos hhas, List.forall_mem_append, List.forall_mem_append, ← hmod, and_iff_right hhas,
      and_iff_right ⟨hin, hin⟩]
  · rw [if_neg hhas]
    exact iff_of_false (fun hall => hhas (hmsg.mp hall)) fun h => hhas h.1

/-- The tables have one row, and the handlers are fewer than the message types. -/
theorem mem_of_registered {dwID : UInt16} (h : Registered dwID) : 257 ≤ dwID ∧ dwID ≤ 261 := by
  have hall := (rowAccesses_inside_iff s_stMods (iMainID dwID) (dwSubID dwID)).mpr h.2
  have houter : TableAccess.Inside ⟨1, iMainID dwID⟩ := hall _ List.mem_cons_self
  have hmain : iMainID dwID = 0 := by
    obtain ⟨hl, hu⟩ := houter
    change 0 ≤ iMainID dwID at hl
    change iMainID dwID < 1 at hu
    omega
  rw [hmain] at hall
  have hinner : TableAccess.Inside ⟨5, dwSubID dwID⟩ :=
    hall _ (List.mem_cons_of_mem _ List.mem_cons_self)
  obtain ⟨hl, hu⟩ := hinner
  change 0 ≤ dwSubID dwID at hl
  change dwSubID dwID < 5 at hu
  rw [iMainID] at hmain
  rw [dwSubID] at hl hu
  rw [UInt16.le_iff_toNat_le, UInt16.le_iff_toNat_le]
  show 257 ≤ dwID.toNat ∧ dwID.toNat ≤ 261
  omega

end Mod

/-! ## Runs -/

namespace Dispatcher

variable {s t : Dispatcher}

/-- One event stays inside the tables exactly when its frame, if it has one, is handled. -/
theorem tablesOf_inside_iff (s : Dispatcher) (e : RecvEvent) :
    (∀ a ∈ s.tablesOf e, a.Inside) ↔ s.Handled e := by
  cases e with
  | recv chunk => exact iff_of_true (fun a ha => absurd ha List.not_mem_nil) trivial
  | iterate =>
    rw [tablesOf, Buffer.tableAccesses, Handled]
    by_cases hc : s.receiver.buffer.Complete
    · rw [if_pos hc, Mod.tableAccesses_inside_iff]
      constructor
      · intro hreg _
        exact Mod.mem_of_registered hreg
      · intro h
        exact Mod.registered_of_mem (h hc)
    · rw [if_neg hc]
      exact iff_of_true (fun a ha => absurd ha List.not_mem_nil) fun h => absurd h hc

/-- The history only grows. -/
theorem tables_run {es : List RecvEvent} (h : dispatching.run s es = some t) :
    s.tables <+: t.tables := by
  induction es generalizing s with
  | nil =>
    obtain rfl : s = t := Option.some.inj h
    exact List.prefix_refl _
  | cons e es ih =>
    obtain ⟨s', hs', hrun⟩ := Option.bind_eq_some_iff.mp h
    obtain ⟨r, _, rfl⟩ := Option.map_eq_some_iff.mp hs'
    exact (List.prefix_append _ _).trans (ih hrun)

/-- **Dispatch stays inside the tables** in exactly those runs in which every complete frame
has an id from 257 to 261. -/
theorem dispatch_inside_iff {es : List RecvEvent} (hinit : dispatching.init s)
    (hrun : dispatching.run s es = some t) :
    (∀ a ∈ t.tables, a.Inside) ↔ dispatching.Allowed Handled s es := by
  have hnil : ∀ a ∈ s.tables, a.Inside := by
    rw [hinit.2]
    exact fun a ha => absurd ha List.not_mem_nil
  rw [System.allowed_iff_always (K := fun _ => True) (P := fun s => ∀ a ∈ s.tables, a.Inside)
    (fun s e s' _ hall hs' => by
      obtain ⟨r, _, rfl⟩ := Option.map_eq_some_iff.mp hs'
      refine ⟨?_, fun _ => trivial⟩
      rw [List.forall_mem_append, tablesOf_inside_iff]
      exact and_iff_right hall) es trivial hnil hrun]
  constructor
  · intro hall bs u hbs hu
    -- the accesses made up to there are among those of the whole run
    obtain ⟨cs, rfl⟩ := hbs
    rw [System.run_append, hu] at hrun
    exact fun a ha => hall a ((tables_run hrun).subset ha)
  · intro hall
    exact hall es t (List.prefix_refl _) hrun

/-- A connection that has received nothing yet. -/
def empty : Dispatcher := ⟨.empty, []⟩

theorem init_empty : dispatching.init empty := ⟨⟨rfl, rfl, rfl⟩, rfl⟩

/-- An `appendentries_r` in two chunks. -/
theorem dispatch_inside_two : ∃ t : Dispatcher, t.tables.length = 6 ∧ ∀ a ∈ t.tables, a.Inside := by
  have hrun : ((dispatching.run empty
      [.recv [4, 1, 2, 0], .iterate, .recv [0, 0, 8, 1], .iterate, .iterate]).any
        fun t : Dispatcher => t.tables.length == 6) = true := by decide +kernel
  obtain ⟨t, ht, hlen⟩ := (Option.any_eq_true _ _).mp hrun
  exact ⟨t, by simpa using hlen,
    (dispatch_inside_iff init_empty ht).mpr (by decide +kernel)⟩

/-- The message type with id 262 is registered, and has no handler. -/
theorem dispatch_past_handlers :
    ¬ ∀ s, dispatching.Reachable System.anyStep s → ∀ a ∈ s.tables, a.Inside := by
  intro hall
  obtain ⟨s, hs, hmem⟩ := System.exists_of_run [.recv [6, 1, 0, 0, 0, 0], .iterate]
    (fun s : Dispatcher => decide (TableAccess.mk 5 5 ∈ s.tables))
    (System.reachable_init init_empty) (System.allowed_anyStep _ _) (by decide +kernel)
  exact absurd (hall s hs ⟨5, 5⟩ (of_decide_eq_true hmem)) (by decide)

end Dispatcher
end NanoRaft
