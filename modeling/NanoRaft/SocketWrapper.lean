import Mathlib.Data.Finset.Basic
import Mathlib.Tactic

/-!
# Creating a socket

The loops of the constructor in `net/SocketWrapper.cpp` over the addresses that `getaddrinfo`
has returned, with the descriptors that they open and close. Both go on at the successor of
the first address, whichever one they are at.

* `tries_each_once_iff`: for which lists and outcomes a loop ends with one socket or none.
-/

namespace NanoRaft

/-- `SSOCKET` and `CSOCKET`. -/
inductive SocketType where
  | SSOCKET
  | CSOCKET
  deriving DecidableEq, Repr

/-- Which of the calls of one attempt succeed. -/
structure Attempt where
  socket : Bool
  reuseAddr : Bool
  noDelay : Bool
  bind : Bool
  listen : Bool

/-- The calls that follow on `socket`: a client neither binds nor listens. -/
def Attempt.setUp (a : Attempt) : SocketType → Bool
  | .SSOCKET => a.reuseAddr && a.noDelay && a.bind && a.listen
  | .CSOCKET => a.reuseAddr && a.noDelay

/-- How the kernel picks the descriptor of a new socket: among those that are not open. -/
structure Kernel where
  pick : Finset ℕ → ℕ
  fresh : ∀ opened, pick opened ∉ opened

/-- `m_iFd_` (`none` is `-1`) and `m_bIsInit_`, the descriptors that the process has open, and
the attempts made so far. -/
structure SocketWrapper where
  iFd : Option ℕ
  isInit : Bool
  opened : Finset ℕ
  attempts : ℕ

namespace SocketWrapper

/-- One turn of the loop: a socket that cannot be set up is closed again, and `m_iFd_` keeps its
number. -/
def tryAddress (k : Kernel) (iSocketType : SocketType) (a : Attempt) (w : SocketWrapper) :
    SocketWrapper :=
  let w := { w with attempts := w.attempts + 1 }
  if a.socket then
    let fd := k.pick w.opened
    let w := { w with iFd := some fd, opened := insert fd w.opened }
    if a.setUp iSocketType then { w with isInit := true }
    else { w with opened := w.opened.erase fd }
  else { w with iFd := none }

/-- The loop at `pstCurr`, over the list `pstResult`; `attempt i` is what the `i`-th attempt
meets. -/
def addressLoop {Addr : Type} (k : Kernel) (iSocketType : SocketType) (pstResult : List Addr)
    (attempt : ℕ → Attempt) : (fuel : ℕ) → (pstCurr : List Addr) → SocketWrapper →
    Option SocketWrapper
  | _, [], w => some w
  | 0, _ :: _, _ => none
  | fuel + 1, _ :: _, w =>
    addressLoop k iSocketType pstResult attempt fuel pstResult.tail
      (w.tryAddress k iSocketType (attempt w.attempts))

/-- A wrapper before the loop, in a process that has some descriptors open. -/
def new (opened : Finset ℕ) : SocketWrapper := ⟨none, false, opened, 0⟩

/-- The destructor closes `m_iFd_`. -/
def destroy (w : SocketWrapper) : Finset ℕ :=
  match w.iFd with
  | some fd => w.opened.erase fd
  | none => w.opened

/-- What the loop is to leave: the one socket it has opened, or none. -/
def Settled (opened : Finset ℕ) (w : SocketWrapper) : Prop :=
  (w.isInit = true ∧ ∃ fd, w.iFd = some fd ∧ fd ∉ opened ∧ w.opened = insert fd opened) ∨
    (w.isInit = false ∧ w.iFd = none ∧ w.opened = opened)

/-- The loop ends, after at most one attempt for each address, and leaves one socket or none. -/
def TriesEachOnce {Addr : Type} (k : Kernel) (iSocketType : SocketType) (pstResult : List Addr)
    (attempt : ℕ → Attempt) (opened : Finset ℕ) : Prop :=
  ∃ fuel w, addressLoop k iSocketType pstResult attempt fuel pstResult (new opened) = some w ∧
    w.attempts ≤ pstResult.length ∧ w.Settled opened

variable {Addr : Type} {k : Kernel} {iSocketType : SocketType} {pstResult pstCurr : List Addr}
  {attempt : ℕ → Attempt} {opened : Finset ℕ}

/-! ## One attempt -/

theorem attempts_tryAddress (w : SocketWrapper) (a : Attempt) :
    (w.tryAddress k iSocketType a).attempts = w.attempts + 1 := by
  unfold tryAddress
  dsimp only
  split_ifs <;> rfl

/-- The first attempt leaves one socket or none, unless the socket could be created and not be
set up: then `m_iFd_` is the number of a closed descriptor. -/
theorem settled_tryAddress_iff (a : Attempt) :
    ((new opened).tryAddress k iSocketType a).Settled opened ↔
      (a.socket = true → a.setUp iSocketType = true) := by
  have hfresh := k.fresh opened
  unfold tryAddress new Settled
  cases ha : a.socket with
  | false => simp
  | true =>
    cases hb : a.setUp iSocketType with
    | false => simp
    | true => simp [hfresh]

/-! ## The loop -/

/-- With a second address the loop never ends: it is always at that one. -/
theorem addressLoop_of_tail (htail : pstResult.tail ≠ []) (hcurr : pstCurr ≠ []) (fuel : ℕ)
    (w : SocketWrapper) :
    addressLoop k iSocketType pstResult attempt fuel pstCurr w = none := by
  obtain ⟨addr, rest, rfl⟩ := List.exists_cons_of_ne_nil hcurr
  induction fuel generalizing addr rest w with
  | zero => rfl
  | succ fuel ih =>
    obtain ⟨addr', rest', htail'⟩ := List.exists_cons_of_ne_nil htail
    rw [addressLoop, htail']
    exact ih _ addr' rest' (List.cons_ne_nil _ _)

/-- With one address there is one attempt. -/
theorem addressLoop_singleton {addr : Addr} {fuel : ℕ} {w : SocketWrapper}
    (h : addressLoop k iSocketType [addr] attempt fuel [addr] (new opened) = some w) :
    w = (new opened).tryAddress k iSocketType (attempt 0) := by
  cases fuel with
  | zero => cases h
  | succ fuel =>
    rw [addressLoop, List.tail_cons, addressLoop] at h
    exact (Option.some.inj h).symm

/-- **One attempt for each address.** The loop does what it should exactly for a list of at most
one address, on which the socket cannot be created or is set up. -/
theorem tries_each_once_iff :
    TriesEachOnce k iSocketType pstResult attempt opened ↔
      pstResult.length ≤ 1 ∧ (pstResult ≠ [] → (attempt 0).socket = true →
        (attempt 0).setUp iSocketType = true) := by
  cases pstResult with
  | nil =>
    exact iff_of_true ⟨0, new opened, by rw [addressLoop], le_refl _, Or.inr ⟨rfl, rfl, rfl⟩⟩
      ⟨Nat.zero_le _, fun h => absurd rfl h⟩
  | cons addr rest =>
    by_cases htail : (addr :: rest).tail = []
    · obtain rfl : rest = [] := htail
      constructor
      · rintro ⟨fuel, w, hw, _, hset⟩
        rw [addressLoop_singleton hw, settled_tryAddress_iff] at hset
        exact ⟨le_refl _, fun _ => hset⟩
      · rintro ⟨_, hone⟩
        refine ⟨1, (new opened).tryAddress k iSocketType (attempt 0), rfl, ?_,
          (settled_tryAddress_iff (attempt 0)).mpr (hone (List.cons_ne_nil _ _))⟩
        rw [attempts_tryAddress]
        exact le_refl 1
    · refine iff_of_false ?_ fun h => htail ?_
      · rintro ⟨fuel, w, hw, _⟩
        rw [addressLoop_of_tail htail (List.cons_ne_nil addr rest)] at hw
        cases hw
      · exact List.eq_nil_of_length_eq_zero (Nat.le_zero.mp (Nat.le_of_succ_le_succ h.1))

/-- A kernel that counts up. -/
def counting : Kernel where
  pick opened := opened.sup id + 1
  fresh opened h := by
    have hle : opened.sup id + 1 ≤ opened.sup id := Finset.le_sup (f := id) h
    omega

/-- One address, the port of which is taken: `bind` fails. -/
theorem keeps_closed_fd : ¬ ∀ (k : Kernel) (iSocketType : SocketType) (pstResult : List ℕ)
    (attempt : ℕ → Attempt) (opened : Finset ℕ),
    TriesEachOnce k iSocketType pstResult attempt opened := by
  intro hall
  obtain ⟨fuel, w, hw, _, hset⟩ :=
    hall counting .SSOCKET [0] (fun _ => ⟨true, true, true, false, true⟩) ∅
  rw [addressLoop_singleton hw, settled_tryAddress_iff] at hset
  exact absurd (hset rfl) (by decide)

/-- What the loop has left as it should, the destructor takes away again. -/
theorem destroy_of_settled {w : SocketWrapper} (h : w.Settled opened) : w.destroy = opened := by
  rcases h with ⟨_, fd, hfd, hfresh, hopened⟩ | ⟨_, hfd, hopened⟩
  · rw [destroy, hfd, hopened]
    exact Finset.erase_insert hfresh
  · rw [destroy, hfd, hopened]

end SocketWrapper
end NanoRaft
