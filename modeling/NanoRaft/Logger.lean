import Mathlib.Data.List.TakeWhile
import NanoRaft.Lib.Text
import NanoRaft.Lib.Except
import NanoRaft.Wire

/-!
# The recovery log

`Logger::Restore` of `log/Logger.cpp`, which reads back what the callbacks of `timer/Timer.cpp`
print. Lines with `pre:` are pushed on a stack and a line with `done:` pops one; from the lines
left the ids are cut out between the places of the spaces, which are kept in an array of ten.

* `restore_preExpire_iff`: for which ids a line that `RedisResultCallback` prints is read back.
-/

namespace NanoRaft

/-- `"pre:"`. -/
def preMark : Bytes := [112, 114, 101, 58]

/-- `"done:"`. -/
def doneMark : Bytes := [100, 111, 110, 101, 58]

/-- `"EXPIRE"`. -/
def expire : Bytes := [69, 88, 80, 73, 82, 69]

/-- `"sync"`. -/
def sync : Bytes := [115, 121, 110, 99]

/-- `' '`. -/
def space : UInt8 := 32

/-- `'\n'`. -/
def newline : UInt8 := 10

/-- A `std::string` made of a C string. -/
structure OpenId where
  text : Bytes
  noNul : 0 ∉ text
  deriving DecidableEq

namespace Logger

/-- What `Restore` can run into: `pop` on an empty stack, and a write behind the array. -/
inductive RestoreFault where
  | emptyStack
  | outOfArray
  deriving DecidableEq, Repr

/-- One turn of the loop over the lines. -/
def readLine (stStack : List Bytes) (strS : Bytes) : Except RestoreFault (List Bytes) :=
  let stStack := if preMark <:+: strS then strS :: stStack else stStack
  if doneMark <:+: strS then
    match stStack with
    | [] => .error .emptyStack
    | _ :: stStack => .ok stStack
  else .ok stStack

/-- The loop over the places of the spaces: the text from the place `i` on, and the elements of
`a` that are written. -/
def findSpaces : Bytes → (i : ℕ) → (a : List ℕ) → Except RestoreFault (List ℕ)
  | [], _, a => .ok a
  | b :: s, i, a =>
    if b = space then
      if a.length < 10 then findSpaces s (i + 1) (a ++ [i]) else .error .outOfArray
    else findSpaces s (i + 1) a

/-- What one line of the stack adds to the ids. -/
def lineIds (top : Bytes) : Except RestoreFault (List Bytes) :=
  if preMark ++ expire <:+: top then do
    let a ← findSpaces top 0 []
    pure (Text.between top a)
  else pure []

/-- The loop that empties the stack. -/
def collect : List Bytes → Except RestoreFault (List Bytes)
  | [] => .ok []
  | top :: stStack => do
    let ids ← lineIds top
    let rest ← collect stStack
    pure (ids ++ rest)

/-- The stack that is left of the lines of a file. -/
def readStack (file : Bytes) : Except RestoreFault (List Bytes) :=
  (Text.lines newline file).foldlM readLine []

/-- `Logger::Restore`. -/
def restore (file : Bytes) : Except RestoreFault (List Bytes) := do
  let stStack ← readStack file
  collect stStack

/-- `strTmp`: every id with a space behind it. -/
def strTmp (ids : List OpenId) : Bytes := ids.flatMap fun id => id.text ++ [space]

/-- What `printf("pre:EXPIRE %s\n", strTmp.c_str())` prints before the end of the line. -/
def preExpire (ids : List OpenId) : Bytes :=
  preMark ++ expire ++ [space] ++ (strTmp ids).takeWhile (· ≠ 0)

/-- A line and its end. -/
def printLine (line : Bytes) : Bytes := line ++ [newline]

variable {file line top : Bytes} {ids : List OpenId} {stack out : List Bytes}

/-! ## One line -/

/-- The array holds ten places. -/
theorem findSpaces_eq (s : Bytes) (i : ℕ) (a : List ℕ) (ha : a.length ≤ 10) :
    findSpaces s i a = if a.length + (Text.places space i s).length ≤ 10
      then .ok (a ++ Text.places space i s) else .error .outOfArray := by
  induction s generalizing i a with
  | nil =>
    rw [findSpaces, Text.places, List.length_nil, Nat.add_zero, if_pos ha, List.append_nil]
  | cons b s ih =>
    rw [findSpaces, Text.places]
    by_cases hb : b = space
    · rw [if_pos hb, if_pos hb, List.length_cons]
      by_cases hlt : a.length < 10
      · rw [if_pos hlt, ih _ _ (by rw [List.length_append]; exact hlt), List.length_append,
          List.length_singleton, List.append_assoc, List.singleton_append]
        congr 2
        omega
      · rw [if_neg hlt, if_neg (by omega)]
    · rw [if_neg hb, if_neg hb, ih _ _ ha]

/-- The ids of a line are its words but the first and the last, of which there is room for
nine. -/
theorem lineIds_of_expire (h : preMark ++ expire <:+: top) :
    lineIds top = if (top.splitOn space).length ≤ 11
      then .ok (top.splitOn space).tail.dropLast else .error .outOfArray := by
  have hlen := Text.length_places space 0 top
  rw [lineIds, if_pos h, findSpaces_eq top 0 [] (Nat.zero_le _), List.length_nil, Nat.zero_add,
    List.nil_append]
  by_cases hle : (Text.places space 0 top).length ≤ 10
  · rw [if_pos hle, if_pos (by omega), Except.ok_bind, Text.between_places]
    rfl
  · rw [if_neg hle, if_neg (by omega)]
    rfl

theorem lineIds_of_not_expire (h : ¬ preMark ++ expire <:+: top) : lineIds top = .ok [] := by
  rw [lineIds, if_neg h]
  rfl

/-- No id has a space, and what stands in an id stands in the line. -/
theorem mem_lineIds (h : lineIds top = .ok out) {id : Bytes} (hid : id ∈ out) :
    space ∉ id ∧ id <:+: top := by
  by_cases hexp : preMark ++ expire <:+: top
  · rw [lineIds_of_expire hexp] at h
    split_ifs at h
    have hword : id ∈ top.splitOn space := by
      rw [← Except.ok.inj h] at hid
      exact List.mem_of_mem_tail (List.mem_of_mem_dropLast hid)
    exact ⟨Text.not_mem_of_mem_splitOn hword, Text.infix_of_mem_splitOn hword⟩
  · rw [lineIds_of_not_expire hexp] at h
    rw [← Except.ok.inj h] at hid
    exact absurd hid List.not_mem_nil

/-! ## The line of a transaction -/

theorem strTmp_noNul (ids : List OpenId) : 0 ∉ strTmp ids := by
  rw [strTmp, List.mem_flatMap]
  rintro ⟨id, _, h⟩
  rcases List.mem_append.mp h with h | h
  · exact id.noNul h
  · exact absurd (List.mem_singleton.mp h) (by decide)

theorem preExpire_eq (ids : List OpenId) :
    preExpire ids = preMark ++ expire ++ space :: strTmp ids := by
  have hall : (strTmp ids).takeWhile (· ≠ 0) = strTmp ids := by
    rw [List.takeWhile_eq_self_iff]
    intro b hb
    rw [decide_eq_true_iff]
    rintro rfl
    exact strTmp_noNul ids hb
  rw [preExpire, hall, List.append_assoc, List.singleton_append]

/-- The words of the line. -/
theorem splitOn_strTmp (h : ∀ id ∈ ids, space ∉ id.text) :
    (strTmp ids).splitOn space = ids.map OpenId.text ++ [[]] := by
  induction ids with
  | nil => rfl
  | cons id ids ih =>
    have hid := h id List.mem_cons_self
    have hrest := ih fun x hx => h x (List.mem_cons_of_mem id hx)
    rw [show strTmp (id :: ids) = id.text ++ space :: strTmp ids by simp [strTmp],
      List.splitOn_append_cons_self_of_not_mem hid, hrest]
    rfl

theorem splitOn_preExpire (h : ∀ id ∈ ids, space ∉ id.text) :
    (preExpire ids).splitOn space = (preMark ++ expire) :: (ids.map OpenId.text ++ [[]]) := by
  rw [preExpire_eq, List.splitOn_append_cons_self_of_not_mem (by decide), splitOn_strTmp h]

/-- **One line.** It is cut back into its ids if these are nine at most. -/
theorem lineIds_preExpire (h : ∀ id ∈ ids, space ∉ id.text) :
    lineIds (preExpire ids) =
      if ids.length ≤ 9 then .ok (ids.map OpenId.text) else .error .outOfArray := by
  have hexp : preMark ++ expire <:+: preExpire ids := by
    rw [preExpire_eq]
    exact (List.prefix_append _ _).isInfix
  have hlen : ((preMark ++ expire) :: (ids.map OpenId.text ++ [[]])).length = ids.length + 2 := by
    simp
  rw [lineIds_of_expire hexp, splitOn_preExpire h, hlen, List.tail_cons, List.dropLast_concat]
  by_cases hle : ids.length ≤ 9
  · rw [if_pos hle, if_pos (by omega)]
  · rw [if_neg hle, if_neg (by omega)]

theorem pre_infix_preExpire (ids : List OpenId) : preMark <:+: preExpire ids := by
  rw [preExpire_eq, List.append_assoc]
  exact (List.prefix_append _ _).isInfix

/-- `done:` stands in the line if it stands in an id. -/
theorem done_infix_preExpire_iff (h : ∀ id ∈ ids, space ∉ id.text) :
    doneMark <:+: preExpire ids ↔ ∃ id ∈ ids, doneMark <:+: id.text := by
  rw [Text.infix_iff_exists_word (c := space) (by decide), splitOn_preExpire h]
  have hno : ¬ doneMark <:+: preMark ++ expire := by decide
  have hnil : ¬ doneMark <:+: [] := by decide
  simp [hno, hnil]

theorem newline_notMem_preExpire (h : ∀ id ∈ ids, newline ∉ id.text) :
    newline ∉ preExpire ids := by
  rw [preExpire_eq, List.mem_append, List.mem_cons, strTmp, List.mem_flatMap]
  rintro (hmem | hmem | ⟨id, hid, hmem⟩)
  · exact absurd hmem (by decide)
  · exact absurd hmem (by decide)
  · rcases List.mem_append.mp hmem with hmem | hmem
    · exact h id hid hmem
    · exact absurd (List.mem_singleton.mp hmem) (by decide)

/-! ## The file -/

theorem lines_printLine (h : newline ∉ line) : Text.lines newline (printLine line) = [line] := by
  rw [printLine, Text.lines_ended, List.splitOn_eq_singleton h]

/-- The stack after one more line. -/
theorem readStack_printLine (hfile : Text.Complete newline file) (h : newline ∉ line) :
    readStack (file ++ printLine line) = readStack file >>= fun st => readLine st line := by
  rw [readStack, Text.lines_of_complete hfile, lines_printLine h, List.foldlM_append]
  congr 1
  funext st
  rw [List.foldlM_cons]
  simp

/-- A line with `pre:` alone is pushed. -/
theorem readLine_pre (hpre : preMark <:+: line) (hdone : ¬ doneMark <:+: line) :
    readLine stack line = .ok (line :: stack) := by
  rw [readLine, if_pos hpre, if_neg hdone]

/-- A line with both marks takes itself off again. -/
theorem readLine_both (hpre : preMark <:+: line) (hdone : doneMark <:+: line) :
    readLine stack line = .ok stack := by
  rw [readLine, if_pos hpre, if_pos hdone]

/-- A line with `done:` alone pops the newest line. -/
theorem readLine_done (hpre : ¬ preMark <:+: line) (hdone : doneMark <:+: line) :
    readLine (top :: stack) line = .ok stack := by
  rw [readLine, if_neg hpre, if_pos hdone]

theorem readLine_done_nil (hpre : ¬ preMark <:+: line) (hdone : doneMark <:+: line) :
    readLine [] line = .error .emptyStack := by
  rw [readLine, if_neg hpre, if_pos hdone]

/-- A turn keeps lines of the stack and at most pushes its own. -/
theorem mem_readLine {stack' : List Bytes} (h : readLine stack line = .ok stack') {l : Bytes}
    (hl : l ∈ stack') : l = line ∨ l ∈ stack := by
  by_cases hpre : preMark <:+: line <;> by_cases hdone : doneMark <:+: line
  · rw [readLine_both hpre hdone] at h
    exact Or.inr (Except.ok.inj h ▸ hl)
  · rw [readLine_pre hpre hdone] at h
    exact List.mem_cons.mp (Except.ok.inj h ▸ hl)
  · cases stack with
    | nil =>
      rw [readLine_done_nil hpre hdone] at h
      cases h
    | cons top stack =>
      rw [readLine_done hpre hdone] at h
      exact Or.inr (List.mem_cons_of_mem top (Except.ok.inj h ▸ hl))
  · rw [readLine, if_neg hpre, if_neg hdone] at h
    exact Or.inr (Except.ok.inj h ▸ hl)

/-- Only lines of the file are on the stack. -/
theorem mem_readStack (h : readStack file = .ok stack) :
    ∀ l ∈ stack, l ∈ Text.lines newline file := by
  unfold readStack at h
  generalize Text.lines newline file = ls at h
  induction ls using List.reverseRecOn generalizing stack with
  | nil =>
    rw [← Except.ok.inj h]
    exact fun l hl => absurd hl List.not_mem_nil
  | append_singleton ls line ih =>
    rw [List.foldlM_append] at h
    obtain ⟨st, hst, h⟩ := Except.bind_eq_ok.mp h
    obtain ⟨st', hst', h⟩ := Except.bind_eq_ok.mp h
    obtain rfl : st' = stack := Except.ok.inj h
    intro l hl
    rcases mem_readLine hst' hl with rfl | hl
    · exact List.mem_concat_self
    · exact List.mem_append_left _ (ih hst l hl)

theorem mem_collect (h : collect stack = .ok out) {id : Bytes} (hid : id ∈ out) :
    space ∉ id ∧ ∃ l ∈ stack, id <:+: l := by
  induction stack generalizing out with
  | nil =>
    rw [← Except.ok.inj h] at hid
    exact absurd hid List.not_mem_nil
  | cons top stack ih =>
    obtain ⟨ids, hids, h⟩ := Except.bind_eq_ok.mp h
    obtain ⟨rest, hrest, h⟩ := Except.bind_eq_ok.mp h
    obtain rfl : ids ++ rest = out := Except.ok.inj h
    rcases List.mem_append.mp hid with hid | hid
    · obtain ⟨hspace, hin⟩ := mem_lineIds hids hid
      exact ⟨hspace, top, List.mem_cons_self, hin⟩
    · obtain ⟨hspace, l, hl, hin⟩ := ih hrest hid
      exact ⟨hspace, l, List.mem_cons_of_mem top hl, hin⟩

/-- No id that is restored has a space or a newline. -/
theorem mem_restore (h : restore file = .ok out) {id : Bytes} (hid : id ∈ out) :
    space ∉ id ∧ newline ∉ id := by
  obtain ⟨stack, hstack, h⟩ := Except.bind_eq_ok.mp h
  obtain ⟨hspace, l, hl, hin⟩ := mem_collect h hid
  have hline := Text.not_mem_of_mem_lines (mem_readStack hstack l hl)
  exact ⟨hspace, fun hnl => hline (hin.subset hnl)⟩

/-- **A single transaction.** Its ids are read back in order exactly if they are nine at most and
none of them contains `done:`. -/
theorem restore_preExpire_iff
    (hids : ∀ id ∈ ids, id.text ≠ [] ∧ space ∉ id.text ∧ newline ∉ id.text) :
    restore (printLine (preExpire ids)) = .ok (ids.map OpenId.text) ↔
      ids.length ≤ 9 ∧ ∀ id ∈ ids, ¬ doneMark <:+: id.text := by
  have hspace : ∀ id ∈ ids, space ∉ id.text := fun id hid => (hids id hid).2.1
  have hnew := newline_notMem_preExpire fun id hid => (hids id hid).2.2
  have hpre := pre_infix_preExpire ids
  have hstack : readStack (printLine (preExpire ids)) = readLine [] (preExpire ids) := by
    have hempty : Text.Complete newline ([] : Bytes) := Or.inl rfl
    have h := readStack_printLine hempty hnew
    rwa [List.nil_append] at h
  rw [restore, hstack]
  by_cases hdone : doneMark <:+: preExpire ids
  · obtain ⟨id, hid, hin⟩ := (done_infix_preExpire_iff hspace).mp hdone
    rw [readLine_both hpre hdone]
    refine iff_of_false (fun h => ?_) fun h => h.2 id hid hin
    have hnil : [] = ids.map OpenId.text := Except.ok.inj h
    rw [List.map_eq_nil_iff.mp hnil.symm] at hid
    exact absurd hid List.not_mem_nil
  · have hnone : ∀ id ∈ ids, ¬ doneMark <:+: id.text := fun id hid hin =>
      hdone ((done_infix_preExpire_iff hspace).mpr ⟨id, hid, hin⟩)
    rw [readLine_pre hpre hdone, Except.ok_bind, collect, lineIds_preExpire hspace,
      and_iff_left hnone]
    by_cases hle : ids.length ≤ 9
    · rw [if_pos hle]
      refine iff_of_true ?_ hle
      show Except.ok (ids.map OpenId.text ++ []) = _
      rw [List.append_nil]
    · rw [if_neg hle]
      exact iff_of_false (fun h => by cases h) hle

/-- `"hloginuser:"`. -/
def hloginuser : Bytes := [104, 108, 111, 103, 105, 110, 117, 115, 101, 114, 58]

/-- `"hloginuser:" + strOpenid`. -/
def loginUser (strOpenid : OpenId) : OpenId where
  text := hloginuser ++ strOpenid.text
  noNul := by
    rw [List.mem_append, not_or]
    exact ⟨by decide, strOpenid.noNul⟩

/-- The ids of the players `"0"` to `"9"`. -/
def digits : List OpenId :=
  (List.finRange 10).map fun i : Fin 10 => loginUser ⟨[48 + UInt8.ofNat i], by revert i; decide⟩

/-- Nine ids are read back. -/
theorem restore_preExpire_nine :
    restore (printLine (preExpire digits.dropLast)) = .ok (digits.dropLast.map OpenId.text) := by
  rw [restore_preExpire_iff (by decide +kernel)]
  decide +kernel

/-- The eleventh space of ten ids is written behind the array. -/
theorem restore_preExpire_ten : ¬ ∀ ids : List OpenId,
    (∀ id ∈ ids, id.text ≠ [] ∧ space ∉ id.text ∧ newline ∉ id.text) →
      restore (printLine (preExpire ids)) = .ok (ids.map OpenId.text) := by
  intro hall
  have hfault : restore (printLine (preExpire digits)) = .error .outOfArray := by decide +kernel
  have hok := hall digits (by decide +kernel)
  rw [hfault] at hok
  cases hok

end Logger
end NanoRaft
