import Mathlib.Tactic

/-!
# Pipelined requests

A client sends requests without waiting for the answers, and keeps for each a callback. The
answers come in the order of the requests, so that each is for the oldest callback. Requests can be
bundled to a transaction, which the server collects and executes at its end.

* `Connection.Outstanding` pairs the callbacks with the answers and the requests under way;
* `Aligned` tells from what the server has collected where in a batch of requests it is;
* `Aligned.head` is the next request that the server takes.
-/

namespace Pipeline

/-- A request: `multi` begins a transaction and `exec` executes it. -/
inductive Request (ρ : Type*) where
  | multi
  | exec
  | op (r : ρ)
  deriving DecidableEq, Repr

/-- The client's callbacks and both directions of the connection, the oldest first. -/
structure Connection (κ ρ β : Type*) where
  pending : List κ
  requests : List (Request ρ)
  replies : List β

variable {κ ρ β : Type*}

namespace Connection

variable {c : Connection κ ρ β} {answered : List (κ × β)} {issued : List (κ × Request ρ)}

def empty : Connection κ ρ β := ⟨[], [], []⟩

/-- Requests, each with its callback. -/
def send (c : Connection κ ρ β) (calls : List (κ × Request ρ)) : Connection κ ρ β :=
  { c with
    pending := c.pending ++ calls.map Prod.fst
    requests := c.requests ++ calls.map Prod.snd }

theorem send_append (c : Connection κ ρ β) (calls calls' : List (κ × Request ρ)) :
    c.send (calls ++ calls') = (c.send calls).send calls' := by
  simp [send]

/-- The callbacks are those of the answers under way and of the requests under way. -/
structure Outstanding (c : Connection κ ρ β) (answered : List (κ × β))
    (issued : List (κ × Request ρ)) : Prop where
  pending : c.pending = answered.map Prod.fst ++ issued.map Prod.fst
  replies : c.replies = answered.map Prod.snd
  requests : c.requests = issued.map Prod.snd

theorem outstanding_empty : (empty : Connection κ ρ β).Outstanding [] [] := ⟨rfl, rfl, rfl⟩

theorem Outstanding.send (h : c.Outstanding answered issued) (calls : List (κ × Request ρ)) :
    (c.send calls).Outstanding answered (issued ++ calls) where
  pending := by rw [Connection.send, h.pending, List.map_append, List.append_assoc]
  replies := h.replies
  requests := by rw [Connection.send, h.requests, List.map_append]

/-- The server has answered a request. -/
theorem Outstanding.serve {k : κ} {r : Request ρ} (b : β)
    (h : c.Outstanding answered ((k, r) :: issued)) :
    Outstanding { c with requests := issued.map Prod.snd, replies := c.replies ++ [b] }
      (answered ++ [(k, b)]) issued where
  pending := by
    show c.pending = _
    rw [h.pending, List.map_append, List.append_assoc]
    rfl
  replies := by
    show c.replies ++ [b] = _
    rw [h.replies, List.map_append]
    rfl
  requests := rfl

/-- An answer is for the oldest callback. -/
theorem Outstanding.receive {k : κ} {ks : List κ} {b : β} {bs : List β}
    (h : c.Outstanding answered issued) (hk : c.pending = k :: ks) (hb : c.replies = b :: bs) :
    ∃ rest, answered = (k, b) :: rest ∧
      Outstanding { c with pending := ks, replies := bs } rest issued := by
  have hreplies := h.replies
  have hpending := h.pending
  cases answered with
  | nil =>
    rw [hb] at hreplies
    cases hreplies
  | cons a rest =>
    rw [hb, List.map_cons, List.cons.injEq] at hreplies
    rw [hk, List.map_cons, List.cons_append, List.cons.injEq] at hpending
    refine ⟨rest, ?_, hpending.2, hreplies.2, h.requests⟩
    rw [hpending.1, hreplies.1]

end Connection

/-! ## Transactions -/

/-- What a client sends at once: a single request, or a transaction with the callbacks of its
beginning and its end. -/
inductive Batch (κ ρ : Type*) where
  | single (k : κ) (r : ρ)
  | bundle (first : κ) (body : List (κ × ρ)) (last : κ)

/-- The requests of the body of a transaction. -/
def ops (body : List (κ × ρ)) : List (κ × Request ρ) := body.map fun x => (x.1, .op x.2)

def Batch.calls : Batch κ ρ → List (κ × Request ρ)
  | .single k r => [(k, .op r)]
  | .bundle first body last => (first, .multi) :: ops body ++ [(last, .exec)]

/-- What the server has collected, and the requests behind that, make up batches for which `P`
holds. -/
inductive Aligned (P : Batch κ ρ → Prop) : Option (List ρ) → List (κ × Request ρ) → Prop
  | between (bs : List (Batch κ ρ)) (h : ∀ b ∈ bs, P b) : Aligned P none (bs.flatMap Batch.calls)
  | within (first last : κ) (pre post : List (κ × ρ)) (bs : List (Batch κ ρ))
      (hP : P (.bundle first (pre ++ post) last)) (h : ∀ b ∈ bs, P b) :
      Aligned P (some (pre.map Prod.snd)) (ops post ++ (last, .exec) :: bs.flatMap Batch.calls)

namespace Aligned

variable {P : Batch κ ρ → Prop} {queue : Option (List ρ)} {issued : List (κ × Request ρ)}

/-- A batch behind the others. -/
theorem append (h : Aligned P queue issued) {bs' : List (Batch κ ρ)} (hP : ∀ b ∈ bs', P b) :
    Aligned P queue (issued ++ bs'.flatMap Batch.calls) := by
  cases h with
  | between bs h =>
    rw [← List.flatMap_append]
    exact between _ (List.forall_mem_append.mpr ⟨h, hP⟩)
  | within first last pre post bs hb h =>
    rw [List.append_assoc, List.cons_append, ← List.flatMap_append]
    exact within first last pre post _ hb (List.forall_mem_append.mpr ⟨h, hP⟩)

/-- The next request: a single one, the beginning of a transaction, one to be collected, or the
end of a transaction that is collected completely. -/
theorem head {k : κ} {r : Request ρ} (h : Aligned P queue ((k, r) :: issued)) :
    (∃ c, queue = none ∧ r = .op c ∧ P (.single k c) ∧ Aligned P none issued) ∨
    (∃ body last, queue = none ∧ r = .multi ∧ P (.bundle k body last) ∧
      Aligned P (some []) issued) ∨
    (∃ first body last cs c, queue = some cs ∧ r = .op c ∧ P (.bundle first body last) ∧
      (k, c) ∈ body ∧ Aligned P (some (cs ++ [c])) issued) ∨
    (∃ first body, queue = some (body.map Prod.snd) ∧ r = .exec ∧ P (.bundle first body k) ∧
      Aligned P none issued) := by
  generalize hall : (k, r) :: issued = all at h
  cases h with
  | between bs h =>
    cases bs with
    | nil => cases hall
    | cons b bs =>
      obtain ⟨hb, hbs⟩ := List.forall_mem_cons.mp h
      cases b with
      | single k' c =>
        obtain ⟨⟨rfl, rfl⟩, rfl⟩ : (k = k' ∧ r = .op c) ∧ issued = bs.flatMap Batch.calls := by
          simpa [Batch.calls] using hall
        exact .inl ⟨c, rfl, rfl, hb, between bs hbs⟩
      | bundle first body last =>
        obtain ⟨⟨rfl, rfl⟩, rfl⟩ : (k = first ∧ r = .multi) ∧
            issued = ops body ++ (last, .exec) :: bs.flatMap Batch.calls := by
          simpa [Batch.calls] using hall
        exact .inr (.inl ⟨body, last, rfl, rfl, hb, within _ last [] body bs hb hbs⟩)
  | within first last pre post bs hb hbs =>
    cases post with
    | nil =>
      obtain ⟨⟨rfl, rfl⟩, rfl⟩ : (k = last ∧ r = .exec) ∧ issued = bs.flatMap Batch.calls := by
        simpa [ops] using hall
      rw [List.append_nil] at hb
      exact .inr (.inr (.inr ⟨first, pre, rfl, rfl, hb, between bs hbs⟩))
    | cons x post =>
      obtain ⟨⟨rfl, rfl⟩, rfl⟩ : (k = x.1 ∧ r = .op x.2) ∧
          issued = ops post ++ (last, .exec) :: bs.flatMap Batch.calls := by
        simpa [ops] using hall
      have hmem : x ∈ pre ++ x :: post := List.mem_append_right pre List.mem_cons_self
      have hrest := within first last (pre ++ [x]) post bs (List.append_cons pre x post ▸ hb) hbs
      rw [List.map_append] at hrest
      exact .inr (.inr (.inl ⟨first, _, last, _, x.2, rfl, rfl, hb, hmem, hrest⟩))

end Aligned
end Pipeline
