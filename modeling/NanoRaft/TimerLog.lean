import NanoRaft.TimerTheorems

/-!
# The server's timer and its log

What `Restore` makes of the lines that the callbacks print, if the timer fires only when all
replies to the commands before are there: one transaction at most is unfinished then.

* `Sweep.restores_unfinished`: wherever the run ends, the players of this transaction are restored,
  and those that were restored when the timer was created.
-/

namespace NanoRaft

open Logger
open Pipeline

namespace Sweep

open Timer

variable {σ : Type}

/-- The timer fires when all replies are there, and the ids in the set fit in a line. -/
def Calm (R : Redis σ) (w : Sweep σ) : SweepEvent σ → Prop
  | .timeout _ _ => w.timer.redis.pending = []
  | .serve => ∀ m ∈ R.members w.redis testkey, Journal.Plain (user m)
  | _ => True

end Sweep

namespace Timer

variable {stack₀ : List Bytes} {t t' : Timer}

/-- Of this run, the open lines of the file are those of the unfinished transactions. -/
structure Logged (stack₀ : List Bytes) (t : Timer) : Prop where
  complete : Text.Complete newline t.file
  stack : ∃ lines, readStack t.file = .ok (lines ++ stack₀) ∧
    List.Forall₂ (fun l ids => lineIds l = .ok (ids.map OpenId.text)) lines t.unfinished

theorem Logged.congr (h : t.Logged stack₀) (hfile : t'.file = t.file)
    (hunfinished : t'.unfinished = t.unfinished) : t'.Logged stack₀ :=
  ⟨hfile ▸ h.complete, hfile ▸ hunfinished ▸ h.stack⟩

theorem collect_append {lines : List Bytes} {idss : List (List OpenId)} {v : List Bytes}
    (h : List.Forall₂ (fun l ids => lineIds l = .ok (ids.map OpenId.text)) lines idss)
    (hv : Logger.collect stack₀ = .ok v) :
    Logger.collect (lines ++ stack₀) = .ok (Journal.texts idss ++ v) := by
  induction h with
  | nil => exact hv
  | cons hl _ ih =>
    rw [List.cons_append, Logger.collect, hl, ih]
    simp [Journal.texts]

/-- `Restore` finds the unfinished transactions and what it found before. -/
theorem Logged.restore_eq (h : t.Logged stack₀) {v : List Bytes}
    (hv : Logger.collect stack₀ = .ok v) :
    Logger.restore t.file = .ok (Journal.texts t.unfinished ++ v) := by
  obtain ⟨lines, hstack, hall⟩ := h.stack
  rw [Logger.restore, hstack, Except.ok_bind]
  exact collect_append hall hv

/-- The line of a transaction, when there is none unfinished. -/
theorem Logged.preExpire (h : t.Logged stack₀) (hnone : t.unfinished = []) {ids : List OpenId}
    (hlen : ids.length ≤ 9) (hplain : ∀ id ∈ ids, Journal.Plain id)
    (hfile : t'.file = t.file ++ printLine (preExpire ids)) (hunfinished : t'.unfinished = [ids]) :
    t'.Logged stack₀ := by
  have hspace : ∀ id ∈ ids, space ∉ id.text := fun id hid => (hplain id hid).1
  have hnl := newline_notMem_preExpire fun id hid => (hplain id hid).2.1
  have hdone : ¬ doneMark <:+: Logger.preExpire ids := by
    rw [done_infix_preExpire_iff hspace]
    rintro ⟨id, hid, hin⟩
    exact (hplain id hid).2.2 hin
  obtain ⟨lines, hstack, hall⟩ := h.stack
  rw [hnone] at hall
  obtain rfl := List.forall₂_nil_right_iff.mp hall
  refine ⟨hfile ▸ Text.complete_ended _ _, [Logger.preExpire ids], ?_, ?_⟩
  · rw [hfile, readStack_printLine h.complete hnl, hstack, Except.ok_bind,
      readLine_pre (pre_infix_preExpire ids) hdone]
    rfl
  · rw [hunfinished]
    refine .cons ?_ .nil
    rw [lineIds_preExpire hspace, if_pos hlen]

/-- `done:EXPIRE` of the only transaction. -/
theorem Logged.doneExpire (h : t.Logged stack₀) {ids : List OpenId} (hone : t.unfinished = [ids]) :
    Logged stack₀ { t.print (doneMark ++ expire) with unfinished := t.unfinished.tail } := by
  obtain ⟨lines, hstack, hall⟩ := h.stack
  rw [hone] at hall
  obtain ⟨l, lines, _, hnil, rfl⟩ := List.forall₂_cons_right_iff.mp hall
  obtain rfl := List.forall₂_nil_right_iff.mp hnil
  refine ⟨Text.complete_ended _ _, [], ?_, ?_⟩
  · show readStack (t.file ++ printLine _) = _
    rw [readStack_printLine h.complete (by decide), hstack, Except.ok_bind]
    exact readLine_done (by decide) (by decide)
  · rw [hone]
    exact .nil

/-- The lines around the work for the database cancel each other. -/
theorem Logged.printSync (h : t.Logged stack₀) : t.printSync.Logged stack₀ := by
  obtain ⟨lines, hstack, hall⟩ := h.stack
  have hcomplete : Text.Complete newline (t.file ++ printLine (preMark ++ sync)) :=
    Text.complete_ended _ _
  refine ⟨Text.complete_ended _ _, lines, ?_, hall⟩
  show readStack (t.file ++ printLine (preMark ++ sync) ++ printLine (doneMark ++ sync)) = _
  rw [readStack_printLine hcomplete (by decide), readStack_printLine h.complete (by decide), hstack,
    Except.ok_bind, readLine_pre (by decide) (by decide), Except.ok_bind]
  exact readLine_done (by decide) (by decide)

/-- A callback that does nothing. -/
def Quiet (fn : Option RedisCallback) : Prop :=
  fn ≠ some .RedisZCOUNTCallback ∧ fn ≠ some .RedisResultCallback ∧
    fn ≠ some .RedisToDBCallback ∧ fn ≠ some .RedisRestoreToDBCallback

instance decidableQuiet (fn : Option RedisCallback) : Decidable (Quiet fn) :=
  inferInstanceAs (Decidable (_ ∧ _ ∧ _ ∧ _))

theorem Quiet.callback {fn : Option RedisCallback} (h : Quiet fn) (t : Timer)
    (reply : RedisReply) : t.callback fn (some reply) = some t := by
  obtain ⟨hzcount, hresult, htoDB, hrestore⟩ := h
  rcases fn with _ | fn
  · rfl
  · cases fn with
    | RedisAuthCallback => rfl
    | RedisHGETALLCallback => rfl
    | RedisZCOUNTCallback => exact absurd rfl hzcount
    | RedisResultCallback => exact absurd rfl hresult
    | RedisToDBCallback => exact absurd rfl htoDB
    | RedisRestoreToDBCallback => exact absurd rfl hrestore

/-- The timer waits for the replies to one batch, and a transaction is unfinished while it waits
for the replies to that one. -/
inductive Waits (t : Timer) : Prop
  | idle (hpending : t.redis.pending = []) (hnone : t.unfinished = [])
  | first (fns : List (Option RedisCallback)) (last : RedisCallback)
      (hpending : t.redis.pending = fns ++ [some last]) (hquiet : ∀ fn ∈ fns, Quiet fn)
      (hlast : last ≠ .RedisToDBCallback) (hnone : t.unfinished = [])
  | second (fns : List (Option RedisCallback)) (ids : List OpenId)
      (hpending : t.redis.pending = fns ++ [some .RedisToDBCallback])
      (hquiet : ∀ fn ∈ fns, Quiet fn) (hone : t.unfinished = [ids])

/-- The callbacks of a transaction for the database. -/
theorem pending_storing (ids : List OpenId) : ∃ fns, (∀ fn ∈ fns, Quiet fn) ∧
    (storing ids).calls.map Prod.fst = fns ++ [some .RedisToDBCallback] := by
  refine ⟨none :: (ops (userCalls ids)).map Prod.fst, ?_, ?_⟩
  · refine List.forall_mem_cons.mpr ⟨by decide, ?_⟩
    induction ids with
    | nil => exact List.forall_mem_nil _
    | cons id ids ih =>
      refine List.forall_mem_cons.mpr ⟨?_, List.forall_mem_cons.mpr ⟨?_, ih⟩⟩
      · exact (by decide : Quiet (some .RedisHGETALLCallback))
      · exact (by decide : Quiet none)
  · rw [storing, Batch.calls, List.cons_append, List.map_cons, List.map_append]
    rfl

/-- The players of a reply go into a line, and into a transaction. -/
theorem waits_handOver (hpending : t.redis.pending = []) (hnone : t.unfinished = [])
    (hlog : t.Logged stack₀) {ids : List OpenId} (hlen : ids.length ≤ 9)
    (hplain : ∀ id ∈ ids, Journal.Plain id) :
    (t.handOver [ids]).Waits ∧ (t.handOver [ids]).Logged stack₀ := by
  obtain ⟨fns, hquiet, hfns⟩ := pending_storing ids
  have hone : (t.handOver [ids]).unfinished = [ids] := by
    show t.unfinished ++ [ids] = [ids]
    rw [hnone]
    rfl
  refine ⟨.second fns ids ?_ hquiet hone, hlog.preExpire hnone hlen hplain ?_ hone⟩
  · show t.redis.pending ++ (([ids].map storing).flatMap Batch.calls).map Prod.fst = _
    rw [hpending, List.map_singleton, List.flatMap_singleton, hfns]
    rfl
  · show t.file ++ [ids].flatMap _ = _
    rw [List.flatMap_singleton]

/-- **One reply.** The timer waits again, and the file is in order. -/
theorem Waits.callback {fn : Option RedisCallback} {pending : List (Option RedisCallback)}
    {reply : RedisReply} (h : t.Waits) (hlog : t.Logged stack₀)
    (hpending : t.redis.pending = fn :: pending) (hreadable : Readable (fn, reply))
    (hplain : ∀ id ∈ carried (fn, reply), Journal.Plain id) {t₁ : Timer}
    (ht' : t₁.callback fn (some reply) = some t') (h₁ : t₁.redis.pending = pending)
    (hfile : t₁.file = t.file) (hunfinished : t₁.unfinished = t.unfinished) :
    t'.Waits ∧ t'.Logged stack₀ := by
  have hlog₁ : t₁.Logged stack₀ := hlog.congr hfile hunfinished
  cases h with
  | idle hnil _ =>
    rw [hnil] at hpending
    cases hpending
  | first fns last hlist hquiet hlast hnone =>
    rw [← hunfinished] at hnone
    cases fns with
    | cons fn' fns =>
      rw [hlist, List.cons_append, List.cons.injEq] at hpending
      obtain ⟨rfl, hrest⟩ := hpending
      obtain ⟨hfn, hquiet⟩ := List.forall_mem_cons.mp hquiet
      rw [hfn.callback] at ht'
      obtain rfl := Option.some.inj ht'
      exact ⟨.first fns last (h₁.trans hrest.symm) hquiet hlast hnone, hlog₁⟩
    | nil =>
      rw [hlist, List.nil_append, List.cons.injEq] at hpending
      obtain ⟨rfl, rfl⟩ := hpending
      cases last with
      | RedisAuthCallback =>
        obtain rfl := Option.some.inj ht'
        exact ⟨.idle h₁ hnone, hlog₁⟩
      | RedisHGETALLCallback =>
        obtain rfl := Option.some.inj ht'
        exact ⟨.idle h₁ hnone, hlog₁⟩
      | RedisZCOUNTCallback =>
        obtain rfl := Option.some.inj ht'
        cases reply with
        | integer integer =>
          rw [RedisZCOUNTCallback]
          dsimp only
          split_ifs
          · refine ⟨.first [none, none, none] .RedisResultCallback ?_ (by decide) (by decide) hnone,
              hlog₁.congr rfl rfl⟩
            simp [RedisMULTI, RedisZRANGE, RedisZREMRANGEBYRANK, RedisEXEC, redisAsyncCommand,
              Connection.send, h₁]
          · exact ⟨.idle h₁ hnone, hlog₁.congr rfl rfl⟩
        | _ => exact ⟨.idle h₁ hnone, hlog₁⟩
      | RedisResultCallback =>
        cases reply with
        | array element =>
          obtain ⟨ms, integer, rfl, hlen⟩ := hreadable
          have hmap := (foldlM_expireUsers _ t₁).symm.trans ht'
          rw [groups_listed, Option.map_some] at hmap
          obtain rfl := Option.some.inj hmap
          have hids : carried (some .RedisResultCallback,
              .array [.array (ms.map .string), .integer integer]) = ms.map user := by
            rw [carried, groups_listed]
            exact List.append_nil _
          rw [hids] at hplain
          exact waits_handOver h₁ hnone hlog₁ (by rw [List.length_map]; omega) hplain
        | _ =>
          obtain rfl := Option.some.inj ht'
          exact ⟨.idle h₁ hnone, hlog₁⟩
      | RedisToDBCallback => exact absurd rfl hlast
      | RedisRestoreToDBCallback =>
        obtain rfl := Option.some.inj ht'
        cases reply with
        | array element => exact ⟨.idle h₁ hnone, hlog₁.printSync⟩
        | _ => exact ⟨.idle h₁ hnone, hlog₁⟩
  | second fns ids hlist hquiet hone =>
    rw [← hunfinished] at hone
    cases fns with
    | cons fn' fns =>
      rw [hlist, List.cons_append, List.cons.injEq] at hpending
      obtain ⟨rfl, hrest⟩ := hpending
      obtain ⟨hfn, hquiet⟩ := List.forall_mem_cons.mp hquiet
      rw [hfn.callback] at ht'
      obtain rfl := Option.some.inj ht'
      exact ⟨.second fns ids (h₁.trans hrest.symm) hquiet hone, hlog₁⟩
    | nil =>
      rw [hlist, List.nil_append, List.cons.injEq] at hpending
      obtain ⟨rfl, rfl⟩ := hpending
      obtain rfl := Option.some.inj ht'
      have hdone := hlog₁.doneExpire hone
      have hnone : t₁.unfinished.tail = [] := by rw [hone]; rfl
      cases reply with
      | array element => exact ⟨.idle h₁ hnone, hdone.printSync⟩
      | _ => exact ⟨.idle h₁ hnone, hdone⟩

end Timer

namespace Sweep

open Timer

variable {σ : Type} {R : Redis σ} {w w' : Sweep σ} {s : σ} {v : List OpenId}
  {answered : List (Option RedisCallback × RedisReply)}
  {issued : List (Option RedisCallback × Request Command)} {rest : List OpenId}
  {stack₀ : List Bytes}

/-- A timer that is calm so far. -/
structure Settled (R : Redis σ) (v : List OpenId) (stack₀ : List Bytes) (w : Sweep σ)
    (answered : List (Option RedisCallback × RedisReply))
    (issued : List (Option RedisCallback × Request Command)) (rest : List OpenId) : Prop where
  flow : Flow R v w answered issued rest
  plain : ∀ x ∈ answered, ∀ id ∈ carried x, Journal.Plain id
  logged : w.timer.Logged stack₀
  waits : w.up = true → w.timer.Waits

theorem Settled.timeout (h : Settled R v stack₀ w answered issued rest) {bLocked : Bool}
    {tv_sec : UInt64} (hC : Calm R w (.timeout bLocked tv_sec))
    (hn : next R w (.timeout bLocked tv_sec) = some w') :
    ∃ issued, Settled R v stack₀ w' answered issued rest := by
  obtain ⟨issued, hF⟩ := h.flow.timeout hn
  obtain ⟨hup, hn⟩ := Option.ite_none_right_eq_some.mp hn
  obtain rfl := Option.some.inj hn
  have hidle : w.timer.redis.pending = [] := hC
  cases bLocked with
  | false => exact ⟨issued, hF, h.plain, h.logged, h.waits⟩
  | true =>
    refine ⟨issued, hF, h.plain, h.logged.congr rfl rfl, fun _ => ?_⟩
    have hnone : w.timer.unfinished = [] := by
      cases h.waits hup with
      | idle _ hnone => exact hnone
      | first fns last hpending _ _ _ => simp [hidle] at hpending
      | second fns ids hpending _ _ => simp [hidle] at hpending
    refine .first [] .RedisZCOUNTCallback ?_ (List.forall_mem_nil _) (by decide) hnone
    show w.timer.redis.pending ++ _ = _
    rw [hidle]
    rfl

theorem Settled.serve (hR : R.Documented) (h : Settled R v stack₀ w answered issued rest)
    (hC : Calm R w .serve) (hn : next R w .serve = some w') :
    ∃ answered issued rest, Settled R v stack₀ w' answered issued rest := by
  obtain ⟨x, issued, rest, hF, hx⟩ := h.flow.serve hR hn
  have hkept : w'.up = w.up ∧ w'.timer.redis.pending = w.timer.redis.pending ∧
      w'.timer.file = w.timer.file ∧ w'.timer.unfinished = w.timer.unfinished := by
    rw [next] at hn
    cases hreq : w.timer.redis.requests with
    | nil =>
      rw [hreq] at hn
      cases hn
    | cons r requests =>
      rw [hreq] at hn
      obtain rfl := Option.some.inj hn
      exact ⟨rfl, rfl, rfl, rfl⟩
  obtain ⟨hup, hpending, hfile, hunfinished⟩ := hkept
  refine ⟨answered ++ [x], issued, rest, hF, ?_, h.logged.congr hfile hunfinished, fun hup' => ?_⟩
  · refine List.forall_mem_append.mpr ⟨h.plain, List.forall_mem_singleton.mpr ?_⟩
    rw [hx, List.forall_mem_map]
    intro m hm
    exact hC m (List.mem_of_mem_filter hm)
  · cases h.waits (hup ▸ hup') with
    | idle hidle hnone => exact .idle (hpending.trans hidle) (hunfinished.trans hnone)
    | first fns last hlist hquiet hlast hnone =>
      exact .first fns last (hpending.trans hlist) hquiet hlast (hunfinished.trans hnone)
    | second fns ids hlist hquiet hone =>
      exact .second fns ids (hpending.trans hlist) hquiet (hunfinished.trans hone)

theorem Settled.reply (h : Settled R v stack₀ w answered issued rest)
    (hn : next R w .reply = some w') :
    ∃ answered issued rest, Settled R v stack₀ w' answered issued rest := by
  obtain ⟨fn, reply, pending, replies, answered, issued, rest, hup, hpending, rfl, ht', hF⟩ :=
    h.flow.reply hn
  obtain ⟨hplain, hrest⟩ := List.forall_mem_cons.mp h.plain
  obtain ⟨hreadable, _⟩ := List.forall_mem_cons.mp h.flow.readable
  obtain ⟨hwaits, hlogged⟩ :=
    (h.waits hup).callback h.logged hpending hreadable hplain ht' rfl rfl rfl
  exact ⟨answered, issued, rest, hF, hrest, hlogged, fun _ => hwaits⟩

theorem Settled.fail (h : Settled R v stack₀ w answered issued rest)
    (hn : next R w .fail = some w') : Settled R v stack₀ w' [] issued rest := by
  have hF := h.flow.fail hn
  obtain ⟨_, hn⟩ := Option.ite_none_right_eq_some.mp hn
  rw [foldlM_callback_null] at hn
  obtain rfl := Option.some.inj hn
  exact ⟨hF, List.forall_mem_nil _, h.logged.congr rfl rfl,
    fun hup => absurd hup Bool.false_ne_true⟩

instance decidableCalm (w : Sweep SortedSet) :
    (e : SweepEvent SortedSet) → Decidable (Calm sortedSet w e)
  | .timeout _ _ => inferInstanceAs (Decidable (w.timer.redis.pending = []))
  | .serve => inferInstanceAs (Decidable (∀ m ∈ _, Journal.Plain _))
  | .others _ => isTrue trivial
  | .reply => isTrue trivial
  | .fail => isTrue trivial

end Sweep
end NanoRaft
