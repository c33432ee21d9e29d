import NanoRaft.Lib.System
import NanoRaft.Logger

/-!
# Transactions and the recovery log

The lines that transactions write over a run, in any interleaving, and what `Restore` makes of
the file wherever it is cut off. A `done:` line does not say which line it belongs to: `Restore`
matches it with the newest, while replies come in the order in which the transactions were issued.

* `restore_eq`: what is restored are the ids of the open lines, newest first;
* `restores_iff`: in which runs these are the ids of the unfinished transactions;
* `allowed_of_serial`: transactions that do not overlap are such runs.
-/

namespace NanoRaft

/-- The file and the transactions that write it. -/
structure Journal where
  file : Bytes
  /-- The transactions without their `done:EXPIRE`, in the order in which they were issued. -/
  pending : List (List OpenId)
  /-- The ids of the `pre:` lines that are not taken off again, counting each `done:` line as the
  end of the newest. -/
  opened : List (List OpenId)
  /-- How many transactions are between `done:EXPIRE` and `pre:sync`. -/
  answered : ℕ
  /-- How many transactions are between `pre:sync` and `done:sync`. -/
  syncing : ℕ

/-- A transaction writes its next line; replies are answered in the order of issue. -/
inductive JournalEvent where
  | preExpire (ids : List OpenId)
  | doneExpire
  | preSync
  | doneSync

namespace Journal

open Logger

def empty : Journal := ⟨[], [], [], 0, 0⟩

/-- The line of an event. -/
def line : JournalEvent → Bytes
  | .preExpire ids => Logger.preExpire ids
  | .doneExpire => doneMark ++ expire
  | .preSync => preMark ++ sync
  | .doneSync => doneMark ++ sync

def next (j : Journal) (e : JournalEvent) : Option Journal :=
  let file := j.file ++ printLine (line e)
  match e with
  | .preExpire ids =>
    some { j with file := file, pending := j.pending ++ [ids], opened := ids :: j.opened }
  | .doneExpire =>
    match j.pending with
    | [] => none
    | _ :: pending => some { j with
        file := file, pending := pending, opened := j.opened.tail, answered := j.answered + 1 }
  | .preSync =>
    if 0 < j.answered then some { j with
      file := file, opened := [] :: j.opened, answered := j.answered - 1, syncing := j.syncing + 1 }
    else none
  | .doneSync =>
    if 0 < j.syncing then some { j with
      file := file, opened := j.opened.tail, syncing := j.syncing - 1 }
    else none

/-- The runs of the transactions, from an empty file on. -/
def journal : System Journal JournalEvent := ⟨fun j => j = empty, next⟩

/-- The ids of a list of transactions. -/
def texts (ts : List (List OpenId)) : List Bytes := ts.flatten.map OpenId.text

/-- `Restore` comes back with the ids of the transactions whose `done:EXPIRE` is missing. -/
def Restores (j : Journal) : Prop := ∃ out, restore j.file = .ok out ∧ out.Perm (texts j.pending)

/-- An id that a line can hold: it has no space, no newline and no `done:`. -/
def Plain (id : OpenId) : Prop :=
  space ∉ id.text ∧ newline ∉ id.text ∧ ¬ doneMark <:+: id.text

instance decidablePlain (id : OpenId) : Decidable (Plain id) :=
  inferInstanceAs (Decidable (_ ∧ _ ∧ _))

/-- A transaction has nine plain ids at most, and a `done:` line is matched with a line that names
the ids that it is about. -/
def Matches (j : Journal) : JournalEvent → Prop
  | .preExpire ids => ids.length ≤ 9 ∧ ∀ id ∈ ids, Plain id
  | .doneExpire => ∃ ids ∈ j.opened.head?, ∃ p ∈ j.pending.head?, ids.Perm p
  | .preSync => True
  | .doneSync => j.opened.head? = some []

instance decidableMatches (j : Journal) : (e : JournalEvent) → Decidable (j.Matches e)
  | .preExpire _ => inferInstanceAs (Decidable (_ ∧ _))
  | .doneExpire => inferInstanceAs (Decidable (∃ ids ∈ _, ∃ p ∈ _, _))
  | .preSync => isTrue trivial
  | .doneSync => inferInstanceAs (Decidable (_ = _))

/-- A transaction is issued when there is none under way. -/
def Serial (j : Journal) : JournalEvent → Prop
  | .preExpire ids => (j.pending = [] ∧ j.answered = 0 ∧ j.syncing = 0) ∧
      ids.length ≤ 9 ∧ ∀ id ∈ ids, Plain id
  | _ => True

variable {j j' : Journal} {e : JournalEvent} {es : List JournalEvent} {t : Journal}
  {ids : List OpenId}

/-! ## What is restored -/

/-- The file is complete, and the stack that is left of it names the ids of the open lines. -/
structure Reads (j : Journal) : Prop where
  complete : Text.Complete newline j.file
  stack : ∃ stack, readStack j.file = .ok stack ∧
    List.Forall₂ (fun l ids => lineIds l = .ok (ids.map OpenId.text)) stack j.opened

theorem collect_eq {stack : List Bytes} {opened : List (List OpenId)}
    (h : List.Forall₂ (fun l ids => lineIds l = .ok (ids.map OpenId.text)) stack opened) :
    collect stack = .ok (texts opened) := by
  induction h with
  | nil => rfl
  | cons hl _ ih =>
    rw [collect, hl, ih]
    simp [texts]

/-- **What is restored.** The ids of the open lines, newest first. -/
theorem Reads.restore_eq (h : j.Reads) : restore j.file = .ok (texts j.opened) := by
  obtain ⟨stack, hstack, hall⟩ := h.stack
  rw [restore, hstack, Except.ok_bind, collect_eq hall]

theorem text_injective : Function.Injective OpenId.text := by
  rintro ⟨a, _⟩ ⟨b, _⟩ h
  obtain rfl : a = b := h
  rfl

theorem Reads.restores_iff_perm (h : j.Reads) :
    j.Restores ↔ j.opened.flatten.Perm j.pending.flatten := by
  rw [← List.map_perm_map_iff text_injective]
  constructor
  · rintro ⟨out, hout, hperm⟩
    rw [h.restore_eq] at hout
    rwa [← Except.ok.inj hout] at hperm
  · exact fun hperm => ⟨_, h.restore_eq, hperm⟩

/-! ## One line -/

/-- A line of the journal is read after what was there. -/
theorem Reads.readStack_eq (h : j.Reads) {l : Bytes} (hl : newline ∉ l) :
    ∃ stack, readStack j.file = .ok stack ∧
      List.Forall₂ (fun l ids => lineIds l = .ok (ids.map OpenId.text)) stack j.opened ∧
      readStack (j.file ++ printLine l) = readLine stack l := by
  obtain ⟨stack, hstack, hall⟩ := h.stack
  refine ⟨stack, hstack, hall, ?_⟩
  rw [readStack_printLine h.complete hl, hstack, Except.ok_bind]

/-- A line that is pushed is the newest open line. -/
theorem Reads.push (h : j.Reads) {l : Bytes} {ids : List OpenId} (hl : newline ∉ l)
    (hpre : preMark <:+: l) (hdone : ¬ doneMark <:+: l)
    (hids : lineIds l = .ok (ids.map OpenId.text)) (hfile : j'.file = j.file ++ printLine l)
    (hopened : j'.opened = ids :: j.opened) : j'.Reads := by
  obtain ⟨stack, _, hall, hread⟩ := h.readStack_eq hl
  rw [readLine_pre hpre hdone] at hread
  refine ⟨?_, l :: stack, ?_, ?_⟩
  · rw [hfile]
    exact Text.complete_ended j.file l
  · rw [hfile, hread]
  · rw [hopened]
    exact List.Forall₂.cons hids hall

/-- A `done:` line takes the newest open line off, and may not come without one. -/
theorem Reads.pop (h : j.Reads) {l : Bytes} (hl : newline ∉ l) (hpre : ¬ preMark <:+: l)
    (hdone : doneMark <:+: l) (hfile : j'.file = j.file ++ printLine l)
    (hopened : j'.opened = j.opened.tail) :
    (j.opened = [] → ¬ j'.Restores) ∧ (j.opened ≠ [] → j'.Reads) := by
  obtain ⟨stack, _, hall, hread⟩ := h.readStack_eq hl
  cases stack with
  | nil =>
    have hnil : j.opened = [] := List.forall₂_nil_left_iff.mp hall
    refine ⟨fun _ => ?_, fun hne => absurd hnil hne⟩
    rintro ⟨out, hout, _⟩
    rw [hfile, restore, hread, readLine_done_nil hpre hdone] at hout
    cases hout
  | cons top stack =>
    obtain ⟨ids, opened, _, hrest, hcons⟩ := List.forall₂_cons_left_iff.mp hall
    refine ⟨fun hnil => ?_, fun _ => ⟨?_, stack, ?_, ?_⟩⟩
    · rw [hnil] at hcons
      cases hcons
    · rw [hfile]
      exact Text.complete_ended j.file l
    · rw [hfile, hread, readLine_done hpre hdone]
    · rw [hopened, hcons]
      exact hrest

/-! ## One event -/

theorem perm_tail_iff {α : Type*} {a b c d : List α} (h : (a ++ b).Perm (c ++ d)) :
    b.Perm d ↔ a.Perm c := by
  constructor
  · intro hbd
    exact (List.perm_append_right_iff b).mp (h.trans (hbd.symm.append_left c))
  · intro hac
    exact (List.perm_append_left_iff c).mp ((hac.symm.append_right b).trans h)

theorem texts_append (a b : List (List OpenId)) : texts (a ++ b) = texts a ++ texts b := by
  rw [texts, List.flatten_append, List.map_append]
  rfl

/-- What is restored has neither spaces nor newlines. -/
theorem clean_of_restores (hpending : j'.pending = j.pending ++ [ids]) (hr : j'.Restores) :
    ∀ id ∈ ids, space ∉ id.text ∧ newline ∉ id.text := by
  obtain ⟨out, hout, hperm⟩ := hr
  intro id hid
  have hmem : id.text ∈ texts j'.pending := by
    rw [hpending, texts_append]
    exact List.mem_append_right _ (List.mem_map_of_mem (by simpa using hid))
  exact mem_restore hout (hperm.symm.subset hmem)

/-- Only plain ids are restored: another one cuts the line in two, adds a space, or takes the line
off again. -/
theorem Reads.matches_of_restores (h : j.Reads) (hp : j.Restores)
    (hfile : j'.file = j.file ++ printLine (Logger.preExpire ids))
    (hpending : j'.pending = j.pending ++ [ids]) (hr : j'.Restores) :
    j.Matches (.preExpire ids) := by
  have hclean := clean_of_restores hpending hr
  have hspace : ∀ id ∈ ids, space ∉ id.text := fun id hid => (hclean id hid).1
  have hpre := pre_infix_preExpire ids
  obtain ⟨stack, _, hall, hread⟩ :=
    h.readStack_eq (newline_notMem_preExpire fun id hid => (hclean id hid).2)
  obtain ⟨out, hout, hperm⟩ := hr
  rw [hfile, restore, hread] at hout
  by_cases hdone : doneMark <:+: Logger.preExpire ids
  · -- the line is off again, and its ids are missing
    obtain ⟨id, hid, _⟩ := (done_infix_preExpire_iff hspace).mp hdone
    rw [readLine_both hpre hdone, Except.ok_bind, collect_eq hall] at hout
    rw [← Except.ok.inj hout, hpending, texts_append] at hperm
    have hlen := hperm.length_eq
    have hlen' := ((h.restores_iff_perm.mp hp).map OpenId.text).length_eq
    have hpos : 0 < (texts [ids]).length := by
      rw [texts, List.flatten_singleton, List.length_map]
      exact List.length_pos_of_mem hid
    rw [List.length_append] at hlen
    simp only [texts] at hlen hlen' hpos
    omega
  · rw [readLine_pre hpre hdone, Except.ok_bind, collect, lineIds_preExpire hspace] at hout
    have hle : ids.length ≤ 9 := by
      by_contra hlong
      rw [if_neg hlong] at hout
      cases hout
    refine ⟨hle, fun id hid => ⟨(hclean id hid).1, (hclean id hid).2, fun hin => ?_⟩⟩
    exact hdone ((done_infix_preExpire_iff hspace).mpr ⟨id, hid, hin⟩)

/-- A transaction is issued. -/
theorem Reads.preExpire_iff (h : j.Reads) (hp : j.Restores)
    (hn : next j (.preExpire ids) = some j') :
    (j'.Restores ↔ j.Matches (.preExpire ids)) ∧ (j'.Restores → j'.Reads) := by
  have hfile : j'.file = j.file ++ printLine (Logger.preExpire ids) := by
    rw [← Option.some.inj hn]
    rfl
  have hopened : j'.opened = ids :: j.opened := by rw [← Option.some.inj hn]
  have hpending : j'.pending = j.pending ++ [ids] := by rw [← Option.some.inj hn]
  have hmatches := h.matches_of_restores hp hfile hpending
  have hpush : j.Matches (.preExpire ids) → j'.Reads := by
    rintro ⟨hle, hplain⟩
    have hspace : ∀ id ∈ ids, space ∉ id.text := fun id hid => (hplain id hid).1
    have hnl := newline_notMem_preExpire fun id hid => (hplain id hid).2.1
    have hdone : ¬ doneMark <:+: Logger.preExpire ids := fun hin => by
      obtain ⟨id, hid, hin⟩ := (done_infix_preExpire_iff hspace).mp hin
      exact (hplain id hid).2.2 hin
    have hids : lineIds (Logger.preExpire ids) = .ok (ids.map OpenId.text) := by
      rw [lineIds_preExpire hspace, if_pos hle]
    exact h.push hnl (pre_infix_preExpire ids) hdone hids hfile hopened
  refine ⟨⟨hmatches, fun hm => ?_⟩, fun hr => hpush (hmatches hr)⟩
  rw [(hpush hm).restores_iff_perm, hopened, hpending, List.flatten_cons, List.flatten_append,
    List.flatten_singleton]
  exact List.perm_append_comm.trans ((h.restores_iff_perm.mp hp).append_right ids)

/-- A `done:` line ends the ids `p`, and the line that it takes off is to name just these. -/
theorem Reads.done_iff (h : j.Reads) {l : Bytes} {p rest : List OpenId} (hl : newline ∉ l)
    (hpre : ¬ preMark <:+: l) (hdone : doneMark <:+: l) (hfile : j'.file = j.file ++ printLine l)
    (hopened : j'.opened = j.opened.tail) (hp : j.opened.flatten.Perm (p ++ rest))
    (hpending : j'.pending.flatten = rest) :
    (j'.Restores ↔ ∃ ids ∈ j.opened.head?, ids.Perm p) ∧ (j'.Restores → j'.Reads) := by
  obtain ⟨hnone, hsome⟩ := h.pop hl hpre hdone hfile hopened
  cases hopen : j.opened with
  | nil =>
    have hnot := hnone hopen
    exact ⟨iff_of_false hnot (by simp), fun hr => absurd hr hnot⟩
  | cons ids opened =>
    have hreads := hsome (by rw [hopen]; exact List.cons_ne_nil ids opened)
    rw [hopen, List.flatten_cons] at hp
    refine ⟨?_, fun _ => hreads⟩
    rw [hreads.restores_iff_perm, hopened, hpending, hopen, List.tail_cons, perm_tail_iff hp]
    simp

/-- The `done:EXPIRE` of the oldest transaction takes the newest open line off. -/
theorem Reads.doneExpire_iff (h : j.Reads) (hp : j.Restores) (hn : next j .doneExpire = some j') :
    (j'.Restores ↔ j.Matches .doneExpire) ∧ (j'.Restores → j'.Reads) := by
  rw [h.restores_iff_perm] at hp
  unfold next at hn
  dsimp only at hn
  cases hpend : j.pending with
  | nil =>
    rw [hpend] at hn
    cases hn
  | cons p pending =>
    rw [hpend] at hn hp
    have hfile : j'.file = j.file ++ printLine (line .doneExpire) := by rw [← Option.some.inj hn]
    have hopened : j'.opened = j.opened.tail := by rw [← Option.some.inj hn]
    have hpending : j'.pending.flatten = pending.flatten := by rw [← Option.some.inj hn]
    have hdone := h.done_iff (by decide) (by decide) (by decide) hfile hopened hp hpending
    simpa [Matches, hpend] using hdone

/-- `pre:sync` opens a line that names no ids. -/
theorem Reads.preSync_iff (h : j.Reads) (hp : j.Restores) (hn : next j .preSync = some j') :
    (j'.Restores ↔ j.Matches .preSync) ∧ (j'.Restores → j'.Reads) := by
  rw [h.restores_iff_perm] at hp
  obtain ⟨_, hj'⟩ := Option.ite_none_right_eq_some.mp hn
  have hfile : j'.file = j.file ++ printLine (line .preSync) := by rw [← Option.some.inj hj']
  have hopened : j'.opened = [] :: j.opened := by rw [← Option.some.inj hj']
  have hpending : j'.pending = j.pending := by rw [← Option.some.inj hj']
  have hids : lineIds (line .preSync) = .ok [] := lineIds_of_not_expire (by decide)
  have hreads := h.push (by decide) (by decide) (by decide) hids hfile hopened
  refine ⟨iff_of_true ?_ trivial, fun _ => hreads⟩
  rw [hreads.restores_iff_perm, hopened, hpending]
  exact hp

/-- `done:sync` takes the newest open line off, which may name no ids. -/
theorem Reads.doneSync_iff (h : j.Reads) (hp : j.Restores) (hn : next j .doneSync = some j') :
    (j'.Restores ↔ j.Matches .doneSync) ∧ (j'.Restores → j'.Reads) := by
  rw [h.restores_iff_perm] at hp
  obtain ⟨_, hj'⟩ := Option.ite_none_right_eq_some.mp hn
  have hfile : j'.file = j.file ++ printLine (line .doneSync) := by rw [← Option.some.inj hj']
  have hopened : j'.opened = j.opened.tail := by rw [← Option.some.inj hj']
  have hpending : j'.pending.flatten = j.pending.flatten := by rw [← Option.some.inj hj']
  have hp' : j.opened.flatten.Perm ([] ++ j.pending.flatten) := hp
  have hdone := h.done_iff (by decide) (by decide) (by decide) hfile hopened hp' hpending
  simpa [Matches, List.perm_nil] using hdone

/-- **One event.** The lines still name the unfinished transactions exactly if the event is
matched. -/
theorem Reads.restores_next_iff (h : j.Reads) (hp : j.Restores) (hn : next j e = some j') :
    (j'.Restores ↔ j.Matches e) ∧ (j'.Restores → j'.Reads) := by
  cases e with
  | preExpire ids => exact h.preExpire_iff hp hn
  | doneExpire => exact h.doneExpire_iff hp hn
  | preSync => exact h.preSync_iff hp hn
  | doneSync => exact h.doneSync_iff hp hn

/-! ## Runs -/

theorem reads_empty : empty.Reads := ⟨Or.inl rfl, [], rfl, List.Forall₂.nil⟩

/-- **Recovery.** Wherever the file is cut off, `Restore` comes back with the ids of the unfinished
transactions, if and only if every event is matched. -/
theorem restores_iff (hrun : journal.run empty es = some t) :
    (∀ bs u, bs <+: es → journal.run empty bs = some u → u.Restores) ↔
      journal.Allowed Matches empty es := by
  have hempty : empty.Restores := reads_empty.restores_iff_perm.mpr (List.Perm.refl _)
  symm
  apply System.allowed_iff_always (K := Reads) _ es reads_empty hempty hrun
  exact fun s a s' hK hP hn => hK.restores_next_iff hP hn

/-- One transaction at most is under way, and the open line is its own. -/
structure Alone (j : Journal) : Prop where
  opened : j.opened = j.pending ++ List.replicate j.syncing []
  one : j.pending.length + j.answered + j.syncing ≤ 1

/-- Without an overlap every event is matched. -/
theorem Alone.matches (h : j.Alone) (hC : j.Serial e) (hn : next j e = some j') :
    j.Matches e ∧ j'.Alone := by
  have hone := h.one
  cases e with
  | preExpire ids =>
    obtain ⟨⟨hpend, hans, hsync⟩, hm⟩ := hC
    obtain rfl := Option.some.inj hn
    refine ⟨hm, ?_, ?_⟩
    · show ids :: j.opened = j.pending ++ [ids] ++ List.replicate j.syncing []
      rw [h.opened, hpend, hsync]
      rfl
    · show (j.pending ++ [ids]).length + j.answered + j.syncing ≤ 1
      rw [hpend, hans, hsync]
      exact le_refl 1
  | doneExpire =>
    unfold next at hn
    dsimp only at hn
    cases hpend : j.pending with
    | nil =>
      rw [hpend] at hn
      cases hn
    | cons p pending =>
      rw [hpend, List.length_cons] at hone
      obtain rfl : pending = [] := List.eq_nil_of_length_eq_zero (by omega)
      have hsync : j.syncing = 0 := by omega
      have hopened : j.opened = [p] := by rw [h.opened, hpend, hsync]; rfl
      rw [hpend] at hn
      obtain rfl := Option.some.inj hn
      refine ⟨⟨p, by rw [hopened]; rfl, p, by rw [hpend]; rfl, List.Perm.refl p⟩, ?_, ?_⟩
      · show j.opened.tail = [] ++ List.replicate j.syncing []
        rw [hopened, hsync]
        rfl
      · show 0 + (j.answered + 1) + j.syncing ≤ 1
        omega
  | preSync =>
    obtain ⟨hpos, hj'⟩ := Option.ite_none_right_eq_some.mp hn
    have hpend : j.pending = [] := List.eq_nil_of_length_eq_zero (by omega)
    obtain rfl := Option.some.inj hj'
    refine ⟨trivial, ?_, ?_⟩
    · show [] :: j.opened = j.pending ++ List.replicate (j.syncing + 1) []
      rw [h.opened, hpend]
      rfl
    · show j.pending.length + (j.answered - 1) + (j.syncing + 1) ≤ 1
      omega
  | doneSync =>
    obtain ⟨hpos, hj'⟩ := Option.ite_none_right_eq_some.mp hn
    have hpend : j.pending = [] := List.eq_nil_of_length_eq_zero (by omega)
    have hsync : j.syncing = 1 := by omega
    have hopened : j.opened = [[]] := by rw [h.opened, hpend, hsync]; rfl
    obtain rfl := Option.some.inj hj'
    refine ⟨by rw [Matches, hopened]; rfl, ?_, ?_⟩
    · show j.opened.tail = j.pending ++ List.replicate (j.syncing - 1) []
      rw [hopened, hpend, hsync]
      rfl
    · show j.pending.length + j.answered + (j.syncing - 1) ≤ 1
      omega

/-- **No overlap.** Transactions of nine plain ids at most that are issued one after the other are
matched throughout. -/
theorem allowed_of_serial (hrun : journal.run empty es = some t)
    (h : journal.Allowed Serial empty es) : journal.Allowed Matches empty es := by
  have hempty : empty.Alone := ⟨rfl, Nat.zero_le _⟩
  exact System.allowed_mono (fun _ _ _ hj hC hn => hj.matches hC hn) es hempty hrun h

/-- The transaction of player `"1"`, the one of player `"2"`, and the replies to both. -/
def one : List OpenId := [loginUser ⟨[49], by decide⟩]

def two : List OpenId := [loginUser ⟨[50], by decide⟩]

def overlapping : List JournalEvent :=
  [.preExpire one, .preExpire two, .doneExpire, .preSync, .doneSync, .doneExpire]

def serial : List JournalEvent :=
  [.preExpire one, .doneExpire, .preSync, .doneSync, .preExpire two, .doneExpire]

/-- One after the other. -/
theorem restores_serial : (journal.run empty serial).isSome ∧
    ∀ bs u, bs <+: serial → journal.run empty bs = some u → u.Restores := by
  have hsome : (journal.run empty serial).isSome := by decide +kernel
  obtain ⟨t, hrun⟩ := Option.isSome_iff_exists.mp hsome
  exact ⟨hsome, (restores_iff hrun).mpr (by decide +kernel)⟩

/-- The reply to the first transaction takes the line of the second one off. -/
theorem restores_answered : ¬ ∀ es t, journal.run empty es = some t →
    ∀ bs u, bs <+: es → journal.run empty bs = some u → u.Restores := by
  intro hall
  obtain ⟨t, hrun⟩ : ∃ t, journal.run empty overlapping = some t :=
    Option.isSome_iff_exists.mp (by decide +kernel)
  obtain ⟨u, hu, htest⟩ := (Option.any_eq_true _ _).mp (show
    ((journal.run empty (overlapping.take 3)).any fun u =>
      decide (u.pending = [two]) && decide (restore u.file = .ok (one.map OpenId.text))) = true by
    decide +kernel)
  rw [Bool.and_eq_true, decide_eq_true_iff, decide_eq_true_iff] at htest
  obtain ⟨hpend, hres⟩ := htest
  obtain ⟨out, hout, hperm⟩ := hall _ t hrun _ u (List.take_prefix 3 overlapping) hu
  rw [hres] at hout
  rw [← Except.ok.inj hout, hpend] at hperm
  have hsame : one.map OpenId.text = texts [two] := List.perm_singleton.mp hperm
  exact absurd hsame (by decide +kernel)

end Journal
end NanoRaft
