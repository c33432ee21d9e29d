import NanoRaft.Timer

/-!
# What the server's timer does to the players

* `Sweep.transactions_whole`: which transactions Redis executes;
* `Sweep.removed_stored`: every player that is taken out of the set is looked up in one transaction
  for the database, once and in this order.
-/

namespace NanoRaft

open Logger
open Pipeline

namespace Timer

variable {t t' : Timer}

/-! ## Batches of commands -/

/-- `RedisZCOUNT`. -/
def counting (iMin : UInt64) : Batch (Option RedisCallback) Command :=
  .single (some .RedisZCOUNTCallback) (.zcount testkey iMin)

/-- The transaction that takes players out of the set. -/
def sweeping : Batch (Option RedisCallback) Command :=
  .bundle none [(none, .zrange testkey 0 5), (none, .zremrangebyrank testkey 0 5)]
    (some .RedisResultCallback)

def userCalls (ids : List OpenId) : List (Option RedisCallback × Command) :=
  ids.flatMap fun id => [(some .RedisHGETALLCallback, .hgetall id), (none, .expire id 20)]

/-- The transaction that looks them up. -/
def storing (ids : List OpenId) : Batch (Option RedisCallback) Command :=
  .bundle none (userCalls ids) (some .RedisToDBCallback)

def restoring (ids : List OpenId) : Batch (Option RedisCallback) Command :=
  .bundle none (ids.map fun id => (some .RedisHGETALLCallback, .hgetall id))
    (some .RedisRestoreToDBCallback)

inductive Issued : Batch (Option RedisCallback) Command → Prop
  | auth : Issued (.single (some .RedisAuthCallback) .auth)
  | counting (iMin : UInt64) : Issued (counting iMin)
  | sweeping : Issued sweeping
  | storing (ids : List OpenId) : Issued (storing ids)
  | restoring (ids : List OpenId) : Issued (restoring ids)

/-- Several requests one after the other. -/
def request (t : Timer) (calls : List (Option RedisCallback × Request Command)) : Timer :=
  { t with redis := t.redis.send calls, sent := t.sent ++ calls.map Prod.snd }

theorem request_request (t : Timer) (calls calls' : List (Option RedisCallback × Request Command)) :
    (t.request calls).request calls' = t.request (calls ++ calls') := by
  simp [request, Connection.send_append]

theorem request_nil (t : Timer) : t.request [] = t := by
  simp [request, Connection.send]

/-- Whole batches. -/
def post (t : Timer) (bs : List (Batch (Option RedisCallback) Command)) : Timer :=
  t.request (bs.flatMap Batch.calls)

/-- The keys that are looked up. -/
def keys (rs : List (Request Command)) : List OpenId :=
  rs.filterMap fun
    | .op (.hgetall strOpenid) => some strOpenid
    | _ => none

/-- The keys that are made to expire in 20 seconds. -/
def expiring (rs : List (Request Command)) : List OpenId :=
  rs.filterMap fun
    | .op (.expire strKey 20) => some strKey
    | _ => none

theorem keys_append (rs rs' : List (Request Command)) : keys (rs ++ rs') = keys rs ++ keys rs' :=
  List.filterMap_append

theorem expiring_append (rs rs' : List (Request Command)) :
    expiring (rs ++ rs') = expiring rs ++ expiring rs' :=
  List.filterMap_append

/-! ## The second transaction -/

/-- The player that an element names. -/
def user (str : Bytes) : OpenId := loginUser (cString str)

def named (e : RedisReply) : Option OpenId := e.str.map user

/-- The players that are looked up after a reply, one list for each transaction. -/
def groups : List RedisReply → Option (List (List OpenId))
  | [] => some []
  | .array element :: es => do
    let ids ← element.mapM named
    let rest ← groups es
    some (ids :: rest)
  | _ :: es => groups es

/-- The timer after these transactions. -/
def handOver (t : Timer) (idss : List (List OpenId)) : Timer :=
  { t.post (idss.map storing) with
    file := t.file ++ idss.flatMap fun ids => printLine (preExpire ids)
    unfinished := t.unfinished ++ idss }

/-- The two commands for a player. -/
theorem expireUser_eq (t : Timer) (id : OpenId) :
    (t.RedisHGETALL id).RedisEXPIRE id 20 = t.request (ops (userCalls [id])) :=
  request_request t [(some .RedisHGETALLCallback, .op (.hgetall id))] [(none, .op (.expire id 20))]

theorem ops_userCalls_cons (id : OpenId) (ids : List OpenId) :
    ops (userCalls (id :: ids)) = ops (userCalls [id]) ++ ops (userCalls ids) := rfl

theorem foldlM_expireUser (element : List RedisReply) (t : Timer) (ids : List OpenId) :
    element.foldlM expireUser (t, ids) = (element.mapM named).map fun more =>
      (t.request (ops (userCalls more)), ids ++ more) := by
  induction element generalizing t ids with
  | nil =>
    show some (t, ids) = some (t.request [], ids ++ [])
    rw [request_nil, List.append_nil]
  | cons e element ih =>
    rw [List.foldlM_cons, List.mapM_cons, expireUser, named]
    cases e.str with
    | none => rfl
    | some str =>
      simp only [Option.map_some, Option.bind_eq_bind, Option.bind_some]
      rw [ih]
      cases hrest : element.mapM named with
      | none => rfl
      | some rest =>
        simp only [Option.map_some, Option.bind_some, Option.pure_def, List.append_assoc]
        rw [expireUser_eq, request_request, ← ops_userCalls_cons]
        rfl

theorem handOver_cons (t : Timer) (ids : List OpenId) (idss : List (List OpenId)) :
    (t.handOver [ids]).handOver idss = t.handOver (ids :: idss) := by
  simp [handOver, post, request, Connection.send]

theorem expireUsers_array (t : Timer) (element : List RedisReply) :
    expireUsers t (.array element) =
      (element.mapM named).map fun ids => t.handOver [ids] := by
  rw [expireUsers, foldlM_expireUser, Option.map_map]
  congr 1
  funext ids
  simp [handOver, post, request, print, RedisMULTI, RedisEXEC, redisAsyncCommand, Connection.send,
    storing, Batch.calls]

/-- All the transactions of a reply. -/
theorem foldlM_expireUsers (es : List RedisReply) (t : Timer) :
    es.foldlM expireUsers t = (groups es).map t.handOver := by
  induction es generalizing t with
  | nil =>
    show some t = some (t.handOver [])
    simp [handOver, post, request_nil]
  | cons e es ih =>
    rw [List.foldlM_cons]
    cases e with
    | array element =>
      rw [expireUsers_array, groups]
      cases element.mapM named with
      | none => rfl
      | some ids =>
        simp only [Option.map_some, Option.bind_eq_bind, Option.bind_some]
        rw [ih]
        cases groups es with
        | none => rfl
        | some idss => exact congrArg some (handOver_cons t ids idss)
    | string str => exact ih t
    | integer integer => exact ih t
    | nil => exact ih t
    | status str => exact ih t
    | error str => exact ih t

/-! ## One callback -/

/-- The players that a reply is about to hand over, by its callback. -/
def carried : Option RedisCallback × RedisReply → List OpenId
  | (some .RedisResultCallback, .array element) => ((groups element).getD []).flatten
  | _ => []

/-- The replies of the first transaction that are arrays: six members at most, and how many have
been removed. -/
def Readable : Option RedisCallback × RedisReply → Prop
  | (some .RedisResultCallback, .array element) => ∃ (ms : List Bytes) (integer : Int64),
      element = [.array (ms.map .string), .integer integer] ∧ ms.length ≤ 6
  | _ => True

theorem mapM_string (ms : List Bytes) :
    (ms.map RedisReply.string).mapM named = some (ms.map user) := by
  induction ms with
  | nil => rfl
  | cons m ms ih =>
    rw [List.map_cons, List.mapM_cons, ih]
    rfl

/-- The members listed by a transaction are those that its reply hands over. -/
theorem groups_listed (ms : List Bytes) (integer : Int64) :
    groups [.array (ms.map .string), .integer integer] = some [ms.map user] := by
  rw [groups, mapM_string]
  rfl

theorem keys_ops_userCalls (ids : List OpenId) :
    keys ((ops (userCalls ids)).map Prod.snd) = ids ∧
      expiring ((ops (userCalls ids)).map Prod.snd) = ids := by
  induction ids with
  | nil => exact ⟨rfl, rfl⟩
  | cons id ids ih =>
    rw [ops_userCalls_cons, List.map_append, keys_append, expiring_append, ih.1, ih.2]
    exact ⟨rfl, rfl⟩

theorem keys_storing (ids : List OpenId) :
    keys ((storing ids).calls.map Prod.snd) = ids ∧
      expiring ((storing ids).calls.map Prod.snd) = ids := by
  have hops := keys_ops_userCalls ids
  rw [storing, Batch.calls, List.cons_append, List.map_cons, List.map_append]
  constructor
  · show keys (_ ++ _) = ids
    rw [keys_append, hops.1]
    exact List.append_nil ids
  · show expiring (_ ++ _) = ids
    rw [expiring_append, hops.2]
    exact List.append_nil ids

theorem keys_handOver (idss : List (List OpenId)) :
    keys (((idss.map storing).flatMap Batch.calls).map Prod.snd) = idss.flatten ∧
      expiring (((idss.map storing).flatMap Batch.calls).map Prod.snd) = idss.flatten := by
  induction idss with
  | nil => exact ⟨rfl, rfl⟩
  | cons ids idss ih =>
    have hone := keys_storing ids
    rw [List.map_cons, List.flatMap_cons, List.map_append, keys_append, expiring_append, hone.1,
      hone.2, ih.1, ih.2]
    exact ⟨rfl, rfl⟩

/-- What a callback sends. -/
structure Posts (t t' : Timer) (bs : List (Batch (Option RedisCallback) Command)) : Prop where
  redis : t'.redis = (t.post bs).redis
  sent : t'.sent = (t.post bs).sent
  issued : ∀ b ∈ bs, Issued b

theorem posts_nil (hredis : t'.redis = t.redis) (hsent : t'.sent = t.sent) : t.Posts t' [] where
  redis := by rw [hredis, post, List.flatMap_nil, request_nil]
  sent := by rw [hsent, post, List.flatMap_nil, request_nil]
  issued := List.forall_mem_nil _

/-- A callback sends whole batches, and hands over the players of its reply. -/
theorem callback_posts {fn : Option RedisCallback} {reply : RedisReply}
    (h : t.callback fn (some reply) = some t') : ∃ bs, t.Posts t' bs ∧
      keys ((bs.flatMap Batch.calls).map Prod.snd) = carried (fn, reply) ∧
      expiring ((bs.flatMap Batch.calls).map Prod.snd) = carried (fn, reply) := by
  have hquiet : t'.redis = t.redis → t'.sent = t.sent → carried (fn, reply) = [] →
      ∃ bs, t.Posts t' bs ∧ keys ((bs.flatMap Batch.calls).map Prod.snd) = carried (fn, reply) ∧
        expiring ((bs.flatMap Batch.calls).map Prod.snd) = carried (fn, reply) := by
    intro hredis hsent hcarried
    rw [hcarried]
    exact ⟨[], posts_nil hredis hsent, rfl, rfl⟩
  cases fn with
  | none =>
    obtain rfl := Option.some.inj h
    exact hquiet rfl rfl rfl
  | some fn =>
    cases fn with
    | RedisAuthCallback =>
      obtain rfl := Option.some.inj h
      exact hquiet rfl rfl rfl
    | RedisHGETALLCallback =>
      obtain rfl := Option.some.inj h
      exact hquiet rfl rfl rfl
    | RedisZCOUNTCallback =>
      obtain rfl := Option.some.inj h
      cases reply with
      | integer integer =>
        rw [RedisZCOUNTCallback] at hquiet ⊢
        dsimp only at hquiet ⊢
        split_ifs at hquiet ⊢ with hpos
        · refine ⟨[sweeping], ⟨?_, ?_, List.forall_mem_singleton.mpr .sweeping⟩, rfl, rfl⟩
          · simp [post, request, RedisMULTI, RedisZRANGE, RedisZREMRANGEBYRANK, RedisEXEC,
              redisAsyncCommand, Connection.send, sweeping, Batch.calls, ops]
          · simp [post, request, RedisMULTI, RedisZRANGE, RedisZREMRANGEBYRANK, RedisEXEC,
              redisAsyncCommand, sweeping, Batch.calls, ops]
        · exact hquiet rfl rfl rfl
      | string str => exact hquiet rfl rfl rfl
      | array element => exact hquiet rfl rfl rfl
      | nil => exact hquiet rfl rfl rfl
      | status str => exact hquiet rfl rfl rfl
      | error str => exact hquiet rfl rfl rfl
    | RedisResultCallback =>
      cases reply with
      | array element =>
        have hmap : (groups element).map t.handOver = some t' :=
          (foldlM_expireUsers element t).symm.trans h
        obtain ⟨idss, hidss, rfl⟩ := Option.map_eq_some_iff.mp hmap
        rw [show carried (some .RedisResultCallback, .array element) = idss.flatten by
          rw [carried, hidss, Option.getD_some]]
        refine ⟨idss.map storing, ⟨rfl, rfl, ?_⟩, keys_handOver idss⟩
        rw [List.forall_mem_map]
        exact fun ids _ => .storing ids
      | _ =>
        obtain rfl := Option.some.inj h
        exact hquiet rfl rfl rfl
    | RedisToDBCallback =>
      obtain rfl := Option.some.inj h
      cases reply with
      | _ => exact hquiet rfl rfl rfl
    | RedisRestoreToDBCallback =>
      obtain rfl := Option.some.inj h
      cases reply with
      | _ => exact hquiet rfl rfl rfl

/-- A callback that is given `NULL` does nothing. -/
theorem callback_null (t : Timer) (fn : Option RedisCallback) : t.callback fn none = some t := by
  rcases fn with _ | fn
  · rfl
  · cases fn <;> rfl

theorem foldlM_callback_null (fns : List (Option RedisCallback)) (t : Timer) :
    fns.foldlM (fun (t : Timer) fn => t.callback fn none) t = some t := by
  induction fns with
  | nil => rfl
  | cons fn fns ih =>
    rw [List.foldlM_cons, callback_null]
    exact ih

/-- A reply that is readable is taken. -/
theorem callback_isSome {fn : Option RedisCallback} {reply : RedisReply}
    (h : Readable (fn, reply)) (t : Timer) : (t.callback fn (some reply)).isSome := by
  rcases fn with _ | fn
  · rfl
  · cases fn with
    | RedisResultCallback =>
      cases reply with
      | array element =>
        obtain ⟨ms, integer, rfl, _⟩ := h
        show (List.foldlM expireUsers t _).isSome
        rw [foldlM_expireUsers, groups_listed]
        rfl
      | _ => rfl
    | _ => rfl

/-! ## The constructor -/

theorem foldl_RedisHGETALL (v : List Bytes) (t : Timer) :
    v.foldl (fun (t : Timer) strOpenid => t.RedisHGETALL (cString strOpenid)) t =
      t.request (v.map fun strOpenid =>
        (some .RedisHGETALLCallback, .op (.hgetall (cString strOpenid)))) := by
  induction v generalizing t with
  | nil => exact (request_nil t).symm
  | cons strOpenid v ih =>
    rw [List.foldl_cons, ih]
    exact request_request t [(some .RedisHGETALLCallback, .op (.hgetall (cString strOpenid)))] _

/-- It sends two batches. -/
theorem create_eq {file : Bytes} (h : create file = .ok t) : ∃ v, Logger.restore file = .ok v ∧
    t = post ⟨false, .empty, file, [], []⟩
      [.single (some .RedisAuthCallback) .auth, restoring (v.map cString)] := by
  obtain ⟨v, hv, ht⟩ := Except.bind_eq_ok.mp h
  refine ⟨v, hv, ?_⟩
  rw [foldl_RedisHGETALL] at ht
  rw [← Except.ok.inj ht]
  simp [post, request, RedisMULTI, RedisEXEC, redisAsyncCommand, Connection.send, restoring,
    Batch.calls, ops, Function.comp_def]

theorem keys_restoring (ids : List OpenId) :
    keys ((restoring ids).calls.map Prod.snd) = ids ∧
      expiring ((restoring ids).calls.map Prod.snd) = [] := by
  induction ids with
  | nil => exact ⟨rfl, rfl⟩
  | cons id ids ih => exact ⟨congrArg (id :: ·) ih.1, ih.2⟩

end Timer

/-! ## Redis -/

/-- A command that can take members out of a sorted set. -/
def Command.Removes : Command → Prop
  | .zremrangebyrank _ _ _ => True
  | .expire _ iSeconds => iSeconds ≤ 0
  | _ => False

/-- What the documentation of Redis promises for these commands. A transaction that is not executed
is answered by an error. -/
structure Redis.Documented {σ : Type} (R : Redis σ) : Prop where
  nodup : ∀ s key, (R.members s key).Nodup
  single : ∀ s c, R.queue s = none → ¬ c.Removes →
    R.queue (R.serve s (.op c)).1 = none ∧ R.members (R.serve s (.op c)).1 = R.members s
  multi : ∀ s, R.queue s = none →
    R.queue (R.serve s .multi).1 = some [] ∧ R.members (R.serve s .multi).1 = R.members s
  collect : ∀ s cs c, R.queue s = some cs →
    R.queue (R.serve s (.op c)).1 = some (cs ++ [c]) ∧
      R.members (R.serve s (.op c)).1 = R.members s
  exec : ∀ s cs, R.queue s = some cs → (∀ c ∈ cs, ¬ c.Removes) →
    R.queue (R.serve s .exec).1 = none ∧ R.members (R.serve s .exec).1 = R.members s
  /-- The members of the six lowest ranks are listed, and removed. -/
  execRange : ∀ s key, R.queue s = some [.zrange key 0 5, .zremrangebyrank key 0 5] →
    R.queue (R.serve s .exec).1 = none ∧
      (((∃ str, (R.serve s .exec).2 = .error str) ∧
          R.members (R.serve s .exec).1 = R.members s) ∨
        ((∃ integer, (R.serve s .exec).2 =
            .array [.array (((R.members s key).take 6).map .string), .integer integer]) ∧
          R.members (R.serve s .exec).1 key = (R.members s key).drop 6))

namespace Sweep

open Timer

variable {σ : Type} {R : Redis σ} {w w' : Sweep σ} {s s' : σ} {v : List OpenId}
  {answered : List (Option RedisCallback × RedisReply)}
  {issued : List (Option RedisCallback × Request Command)} {rest : List OpenId}

theorem gone_same (h : R.members s' = R.members s) : gone R s s' = [] := by
  rw [gone, h, List.filter_eq_nil_iff]
  intro m hm
  simp [hm]

theorem gone_drop (hnodup : (R.members s testkey).Nodup) {n : ℕ}
    (h : R.members s' testkey = (R.members s testkey).drop n) :
    gone R s s' = (R.members s testkey).take n := by
  rw [gone, h]
  rw [← List.take_append_drop n (R.members s testkey), List.nodup_append] at hnodup
  obtain ⟨_, _, hdisj⟩ := hnodup
  conv_lhs => rw [← List.take_append_drop n (R.members s testkey), List.filter_append]
  rw [List.filter_eq_self.mpr, List.filter_eq_nil_iff.mpr, List.append_nil]
  · rw [List.take_append_drop]
    intro m hm
    simp [hm]
  · rw [List.take_append_drop]
    intro m hm
    rw [decide_eq_true_iff]
    exact fun hin => hdisj m hm m hin rfl

/-- **One request.** Redis stays in step with the batches, and the players that the reply hands
over are those that are gone. -/
theorem serve_carries (hR : R.Documented) {k : Option RedisCallback} {r : Request Command}
    (h : Aligned Issued (R.queue s) ((k, r) :: issued)) :
    Aligned Issued (R.queue (R.serve s r).1) issued ∧ Readable (k, (R.serve s r).2) ∧
      carried (k, (R.serve s r).2) = (gone R s (R.serve s r).1).map user := by
  have hquiet : R.members (R.serve s r).1 = R.members s → k ≠ some .RedisResultCallback →
      Readable (k, (R.serve s r).2) ∧
        carried (k, (R.serve s r).2) = (gone R s (R.serve s r).1).map user := by
    intro hmembers hk
    rw [gone_same hmembers, List.map_nil, Readable.eq_def, carried.eq_def]
    rcases k with _ | k
    · exact ⟨trivial, rfl⟩
    · cases k with
      | RedisResultCallback => exact absurd rfl hk
      | _ => exact ⟨trivial, rfl⟩
  rcases h.head with ⟨c, hq, rfl, hP, hrest⟩ | ⟨body, last, hq, rfl, hP, hrest⟩ |
    ⟨first, body, last, cs, c, hq, rfl, hP, hmem, hrest⟩ | ⟨first, body, hq, rfl, hP, hrest⟩
  · have hc : ¬ c.Removes ∧ k ≠ some .RedisResultCallback := by
      cases hP with
      | auth => exact ⟨id, by decide⟩
      | counting iMin => exact ⟨id, by decide⟩
    obtain ⟨hqueue, hmembers⟩ := hR.single s c hq hc.1
    rw [hqueue]
    exact ⟨hrest, hquiet hmembers hc.2⟩
  · obtain ⟨hqueue, hmembers⟩ := hR.multi s hq
    rw [hqueue]
    refine ⟨hrest, hquiet hmembers ?_⟩
    cases hP with
    | sweeping => decide
    | storing ids => decide
    | restoring ids => decide
  · obtain ⟨hqueue, hmembers⟩ := hR.collect s cs c hq
    rw [hqueue]
    refine ⟨hrest, hquiet hmembers ?_⟩
    rintro rfl
    cases hP with
    | sweeping => simp at hmem
    | storing ids => simp [userCalls] at hmem
    | restoring ids => simp at hmem
  · cases hP with
    | sweeping =>
      obtain ⟨hqueue, hreply⟩ := hR.execRange s testkey hq
      rw [hqueue]
      refine ⟨hrest, ?_⟩
      rcases hreply with ⟨⟨str, hstr⟩, hmembers⟩ | ⟨⟨integer, hlist⟩, hmembers⟩
      · rw [hstr, gone_same hmembers]
        exact ⟨trivial, rfl⟩
      · rw [hlist, gone_drop (hR.nodup s testkey) hmembers, Readable, carried, groups_listed]
        exact ⟨⟨_, integer, rfl, List.length_take_le 6 _⟩, List.append_nil _⟩
    | storing ids =>
      obtain ⟨hqueue, hmembers⟩ := hR.exec s _ hq (by
        intro c hc
        obtain ⟨⟨k, c⟩, hmem, rfl⟩ := List.mem_map.mp hc
        obtain ⟨strOpenid, _, hmem⟩ := List.mem_flatMap.mp hmem
        rcases List.mem_pair.mp hmem with h | h <;> cases h
        · exact id
        · exact (by decide : ¬ (20 : Int32) ≤ 0))
      rw [hqueue]
      exact ⟨hrest, hquiet hmembers (by decide)⟩
    | restoring ids =>
      obtain ⟨hqueue, hmembers⟩ := hR.exec s _ hq (by
        intro c hc
        obtain ⟨⟨k, c⟩, hmem, rfl⟩ := List.mem_map.mp hc
        obtain ⟨strOpenid, _, hmem⟩ := List.mem_map.mp hmem
        cases hmem
        exact id)
      rw [hqueue]
      exact ⟨hrest, hquiet hmembers (by decide)⟩

/-! ## Runs -/

/-- The connection is in step with Redis, and every player that is gone is looked up or about to
be handed over by a reply under way. -/
structure Flow (R : Redis σ) (v : List OpenId) (w : Sweep σ)
    (answered : List (Option RedisCallback × RedisReply))
    (issued : List (Option RedisCallback × Request Command)) (rest : List OpenId) : Prop where
  aligned : Aligned Issued (R.queue w.redis) issued
  requests : w.timer.redis.requests = issued.map Prod.snd
  outstanding : w.up = true → w.timer.redis.Outstanding answered issued
  down : w.up = false → w.timer.redis.pending = [] ∧ w.timer.redis.replies = []
  readable : ∀ x ∈ answered, Readable x
  carries : w.up = true → rest = answered.flatMap carried
  looked : keys w.timer.sent ++ rest = v ++ w.removed.map user
  expired : keys w.timer.sent = v ++ expiring w.timer.sent

theorem Flow.timeout (h : Flow R v w answered issued rest) {bLocked : Bool} {tv_sec : UInt64}
    (hn : next R w (.timeout bLocked tv_sec) = some w') :
    ∃ issued, Flow R v w' answered issued rest := by
  obtain ⟨hup, hn⟩ := Option.ite_none_right_eq_some.mp hn
  obtain rfl := Option.some.inj hn
  cases bLocked with
  | false => exact ⟨issued, h⟩
  | true =>
    have hcount : ∀ b ∈ [counting (tv_sec - 30)], Issued b :=
      List.forall_mem_singleton.mpr (.counting _)
    refine ⟨issued ++ [counting (tv_sec - 30)].flatMap Batch.calls, h.aligned.append hcount, ?_,
      fun _ => (h.outstanding hup).send _, fun hdown => ?_, h.readable, h.carries, ?_, ?_⟩
    · show w.timer.redis.requests ++ _ = _
      rw [h.requests, List.map_append]
      rfl
    · exact absurd (hup.symm.trans hdown) (by decide)
    · show keys (w.timer.sent ++ _) ++ rest = _
      rw [keys_append]
      exact (congrArg (· ++ rest) (List.append_nil _)).trans h.looked
    · show keys (w.timer.sent ++ _) = v ++ expiring (w.timer.sent ++ _)
      rw [keys_append, expiring_append]
      exact (List.append_nil _).trans (h.expired.trans (congrArg (v ++ ·) (List.append_nil _).symm))

theorem Flow.serve (hR : R.Documented) (h : Flow R v w answered issued rest)
    (hn : next R w .serve = some w') :
    ∃ x issued rest, Flow R v w' (answered ++ [x]) issued rest ∧
      carried x = (gone R w.redis w'.redis).map user := by
  rw [next] at hn
  cases hreq : w.timer.redis.requests with
  | nil =>
    rw [hreq] at hn
    cases hn
  | cons r requests =>
    rw [hreq] at hn
    obtain rfl := Option.some.inj hn
    have hissued := h.requests
    rw [hreq] at hissued
    obtain ⟨⟨k, r'⟩, issued, rfl, rfl, hrequests⟩ := List.map_eq_cons_iff.mp hissued.symm
    obtain ⟨haligned, hreadable, hcarried⟩ := serve_carries hR h.aligned
    let b := (R.serve w.redis r').2
    refine ⟨(k, b), issued, rest ++ carried (k, b), ⟨haligned, hrequests.symm, fun hup => ?_,
      fun hdown => ?_, ?_, fun hup => ?_, ?_, h.expired⟩, hcarried⟩
    · have hserve := (h.outstanding hup).serve b
      show Connection.Outstanding { w.timer.redis with
        requests := requests, replies := if w.up then _ else [] } _ _
      rw [if_pos hup, ← hrequests]
      exact hserve
    · have hdown : w.up = false := hdown
      exact ⟨(h.down hdown).1, if_neg (hdown ▸ Bool.false_ne_true)⟩
    · exact List.forall_mem_append.mpr ⟨h.readable, List.forall_mem_singleton.mpr hreadable⟩
    · rw [h.carries hup, List.flatMap_append, List.flatMap_singleton]
    · show keys w.timer.sent ++ (rest ++ carried (k, b)) = v ++ (w.removed ++ gone R _ _).map user
      rw [← List.append_assoc, h.looked, hcarried, List.map_append, List.append_assoc]

theorem Flow.others (h : Flow R v w answered issued rest)
    (hn : next R w (.others s) = some w') : Flow R v w' answered issued rest := by
  obtain ⟨hqueue, hn⟩ := Option.ite_none_right_eq_some.mp hn
  obtain rfl := Option.some.inj hn
  refine ⟨?_, h.requests, h.outstanding, h.down, h.readable, h.carries, h.looked, h.expired⟩
  show Aligned Issued (R.queue s) issued
  rw [hqueue]
  exact h.aligned

theorem Flow.reply (h : Flow R v w answered issued rest) (hn : next R w .reply = some w') :
    ∃ fn reply pending replies answered' issued' rest', w.up = true ∧
      w.timer.redis.pending = fn :: pending ∧ answered = (fn, reply) :: answered' ∧
      Timer.callback { w.timer with
        redis := { w.timer.redis with pending := pending, replies := replies } } fn (some reply) =
          some w'.timer ∧
      Flow R v w' answered' issued' rest' := by
  rw [next] at hn
  cases hpend : w.timer.redis.pending with
  | nil =>
    rw [hpend] at hn
    cases hn
  | cons fn pending =>
    cases hrepl : w.timer.redis.replies with
    | nil =>
      rw [hpend, hrepl] at hn
      cases hn
    | cons reply replies =>
      rw [hpend, hrepl] at hn
      have hup : w.up = true := by
        by_contra hdown
        have hnil := (h.down (Bool.not_eq_true _ ▸ hdown)).1
        rw [hpend] at hnil
        cases hnil
      obtain ⟨t', ht', rfl⟩ := Option.map_eq_some_iff.mp hn
      obtain ⟨bs, hposts, hkeys, hexpiring⟩ := callback_posts ht'
      obtain ⟨answered, rfl, hout⟩ := (h.outstanding hup).receive hpend hrepl
      have hrest := h.carries hup
      rw [List.flatMap_cons] at hrest
      refine ⟨fn, reply, pending, replies, answered, issued ++ bs.flatMap Batch.calls,
        answered.flatMap carried, hup, rfl, rfl, ht', h.aligned.append hposts.issued, ?_,
        fun _ => ?_, fun hdown => ?_, (List.forall_mem_cons.mp h.readable).2, fun _ => rfl, ?_, ?_⟩
      · show t'.redis.requests = _
        rw [hposts.redis, List.map_append, ← h.requests]
        rfl
      · show t'.redis.Outstanding _ _
        rw [hposts.redis]
        exact hout.send _
      · exact absurd (hup.symm.trans hdown) (by decide)
      · show keys t'.sent ++ _ = _
        rw [hposts.sent, ← h.looked, hrest]
        show keys (w.timer.sent ++ _) ++ _ = _
        rw [keys_append, hkeys, List.append_assoc]
      · show keys t'.sent = v ++ expiring t'.sent
        rw [hposts.sent]
        show keys (w.timer.sent ++ _) = v ++ expiring (w.timer.sent ++ _)
        rw [keys_append, expiring_append, hkeys, hexpiring, h.expired, List.append_assoc]

theorem Flow.fail (h : Flow R v w answered issued rest) (hn : next R w .fail = some w') :
    Flow R v w' [] issued rest := by
  obtain ⟨hup, hn⟩ := Option.ite_none_right_eq_some.mp hn
  rw [foldlM_callback_null] at hn
  obtain rfl := Option.some.inj hn
  have hdown : false = true → False := Bool.false_ne_true
  exact ⟨h.aligned, h.requests, fun hup => (hdown hup).elim, fun _ => ⟨rfl, rfl⟩,
    List.forall_mem_nil _, fun hup => (hdown hup).elim, h.looked, h.expired⟩

variable {file : Bytes} {vs : List Bytes}

/-- The players of the log. -/
theorem exists_restore {C : Sweep σ → SweepEvent σ → Prop}
    (h : (system R file).Reachable C w) : ∃ v, Logger.restore file = .ok v := by
  obtain ⟨w₀, h0, _⟩ := h
  obtain ⟨v, hv, _⟩ := create_eq h0.1.1
  exact ⟨v, hv⟩

theorem flow_init (hcreate : create file = .ok w.timer) (hqueue : R.queue w.redis = none)
    (hup : w.up = true) (hremoved : w.removed = []) (hv : Logger.restore file = .ok vs) :
    ∃ issued, Flow R (vs.map cString) w [] issued [] := by
  obtain ⟨vs', hv', ht⟩ := create_eq hcreate
  obtain rfl : vs' = vs := Except.ok.inj (hv'.symm.trans hv)
  let bs : List (Batch (Option RedisCallback) Command) :=
    [.single (some .RedisAuthCallback) .auth, restoring (vs'.map cString)]
  have hissued : ∀ b ∈ bs, Issued b :=
    List.forall_mem_cons.mpr ⟨.auth, List.forall_mem_singleton.mpr (.restoring _)⟩
  have hkeys := keys_restoring (vs'.map cString)
  have hsent : w.timer.sent = [.op .auth] ++ (restoring (vs'.map cString)).calls.map Prod.snd := by
    rw [ht]
    simp [post, request, Batch.calls]
  have hout : w.timer.redis.Outstanding [] (bs.flatMap Batch.calls) := by
    rw [ht]
    exact Connection.outstanding_empty.send _
  refine ⟨bs.flatMap Batch.calls, ?_, hout.requests, fun _ => hout, fun hdown => ?_,
    List.forall_mem_nil _, fun _ => rfl, ?_, ?_⟩
  · rw [hqueue]
    exact .between bs hissued
  · exact absurd (hup.symm.trans hdown) (by decide)
  · rw [hsent, keys_append, hkeys.1, hremoved]
    rfl
  · rw [hsent, keys_append, expiring_append, hkeys.1, hkeys.2]
    exact (List.append_nil _).symm

theorem flow_of_reachable (hR : R.Documented) {C : Sweep σ → SweepEvent σ → Prop}
    (hv : Logger.restore file = .ok vs) (h : (system R file).Reachable C w) :
    ∃ answered issued rest, Flow R (vs.map cString) w answered issued rest := by
  apply h.invariant (I := fun w => ∃ answered issued rest,
    Flow R (vs.map cString) w answered issued rest)
  · rintro w ⟨⟨hcreate, hqueue⟩, hup, hremoved⟩
    obtain ⟨issued, hF⟩ := flow_init hcreate hqueue hup hremoved hv
    exact ⟨[], issued, [], hF⟩
  · rintro w e w' _ ⟨answered, issued, rest, hF⟩ _ hn
    cases e with
    | timeout bLocked tv_sec =>
      obtain ⟨issued, hF'⟩ := hF.timeout hn
      exact ⟨answered, issued, rest, hF'⟩
    | serve =>
      obtain ⟨x, issued, rest, hF', _⟩ := hF.serve hR hn
      exact ⟨answered ++ [x], issued, rest, hF'⟩
    | others s => exact ⟨answered, issued, rest, hF.others hn⟩
    | reply =>
      obtain ⟨_, _, _, _, answered, issued, rest, _, _, _, _, hF'⟩ := hF.reply hn
      exact ⟨answered, issued, rest, hF'⟩
    | fail => exact ⟨[], issued, rest, hF.fail hn⟩

/-! ## A set of Redis -/

/-- A Redis with one sorted set: scores and members, by rank. -/
structure SortedSet where
  zset : List (ℕ × Bytes)
  nodup : (zset.map Prod.snd).Nodup
  queue : Option (List Command)

namespace SortedSet

def members (s : SortedSet) (key : Bytes) : List Bytes :=
  if key = testkey then s.zset.map Prod.snd else []

/-- The members of these ranks taken out. -/
def remove (s : SortedSet) (iStart iStop : ℕ) : SortedSet where
  zset := s.zset.take iStart ++ s.zset.drop (max iStart (iStop + 1))
  nodup := by
    rw [List.map_append]
    have hsub : ((s.zset.take iStart).map Prod.snd ++
        (s.zset.drop (max iStart (iStop + 1))).map Prod.snd).Sublist (s.zset.map Prod.snd) := by
      conv_rhs => rw [← List.take_append_drop iStart s.zset, List.map_append]
      exact (List.drop_sublist_drop_left _ (le_max_left _ _)).map Prod.snd |>.append_left _
    exact s.nodup.sublist hsub
  queue := s.queue

/-- A command outside of a transaction. -/
def answer (s : SortedSet) : Command → SortedSet × RedisReply
  | .auth => (s, .status [79, 75])
  | .hgetall _ => (s, .array [])
  | .zcount strKey iMin =>
    (s, .integer (Int64.ofNat (if strKey = testkey
      then s.zset.countP fun x => x.1 ≤ iMin.toNat else 0)))
  | .zrange strKey iStart iStop =>
    (s, .array ((((s.members strKey).take (iStop.toNatClampNeg + 1)).drop
      iStart.toNatClampNeg).map .string))
  | .zremrangebyrank strKey iStart iStop =>
    if strKey = testkey then
      let s' := s.remove iStart.toNatClampNeg iStop.toNatClampNeg
      (s', .integer (Int64.ofNat (s.zset.length - s'.zset.length)))
    else (s, .integer 0)
  | .expire _ _ => (s, .integer 1)

/-- The commands of a transaction. -/
def execute (s : SortedSet) : List Command → SortedSet × List RedisReply
  | [] => (s, [])
  | c :: cs => ((s.answer c).1.execute cs |>.1, (s.answer c).2 :: ((s.answer c).1.execute cs).2)

def serve (s : SortedSet) (r : Request Command) : SortedSet × RedisReply :=
  match s.queue, r with
  | none, .op c => s.answer c
  | none, .multi => ({ s with queue := some [] }, .status [79, 75])
  | none, .exec => (s, .error [])
  | some cs, .op c => ({ s with queue := some (cs ++ [c]) }, .status [])
  | some _, .multi => (s, .error [])
  | some cs, .exec => ({ (s.execute cs).1 with queue := none }, .array (s.execute cs).2)

end SortedSet

def sortedSet : Redis SortedSet := ⟨SortedSet.serve, SortedSet.queue, SortedSet.members⟩

namespace SortedSet

theorem answer_queue (s : SortedSet) (c : Command) : (s.answer c).1.queue = s.queue := by
  cases c with
  | zremrangebyrank strKey iStart iStop =>
    rw [answer]
    split_ifs <;> rfl
  | _ => rfl

theorem answer_members (s : SortedSet) {c : Command} (h : ¬ c.Removes) :
    (s.answer c).1.members = s.members := by
  cases c with
  | zremrangebyrank strKey iStart iStop => exact absurd trivial h
  | _ => rfl

theorem execute_members (s : SortedSet) {cs : List Command} (h : ∀ c ∈ cs, ¬ c.Removes) :
    (s.execute cs).1.members = s.members := by
  induction cs generalizing s with
  | nil => rfl
  | cons c cs ih =>
    obtain ⟨hc, hcs⟩ := List.forall_mem_cons.mp h
    exact (ih _ hcs).trans (s.answer_members hc)

theorem documented : sortedSet.Documented where
  nodup s key := by
    show (if key = testkey then s.zset.map Prod.snd else []).Nodup
    split_ifs
    · exact s.nodup
    · exact List.nodup_nil
  single s c hq hc := by
    obtain ⟨zset, hnodup, queue⟩ := s
    obtain rfl : queue = none := hq
    exact ⟨answer_queue _ c, answer_members _ hc⟩
  multi s hq := by
    obtain ⟨zset, hnodup, queue⟩ := s
    obtain rfl : queue = none := hq
    exact ⟨rfl, rfl⟩
  collect s cs c hq := by
    obtain ⟨zset, hnodup, queue⟩ := s
    obtain rfl : queue = some cs := hq
    exact ⟨rfl, rfl⟩
  exec s cs hq hcs := by
    obtain ⟨zset, hnodup, queue⟩ := s
    obtain rfl : queue = some cs := hq
    exact ⟨rfl, execute_members _ hcs⟩
  execRange s key hq := by
    obtain ⟨zset, hnodup, queue⟩ := s
    obtain rfl : queue = some [.zrange key 0 5, .zremrangebyrank key 0 5] := hq
    refine ⟨rfl, .inr ?_⟩
    by_cases hkey : key = testkey
    · subst hkey
      exact ⟨⟨_, rfl⟩, List.map_drop⟩
    · have hnone : ∀ s : SortedSet, s.members key = [] := fun s => if_neg hkey
      refine ⟨⟨0, ?_⟩, ?_⟩
      · show RedisReply.array (SortedSet.execute _ _).2 = _
        simp [execute, answer, hnone, hkey, sortedSet]
      · show SortedSet.members _ key = (SortedSet.members _ key).drop 6
        rw [hnone, hnone, List.drop_nil]

end SortedSet

/-- A timer on an empty log. The time of player `"1"` is over, that of player `"2"` is not. -/
def created : Sweep SortedSet where
  timer := post ⟨false, .empty, [], [], []⟩ [.single (some .RedisAuthCallback) .auth, restoring []]
  redis := ⟨[(100, [49]), (300, [50])], by decide, none⟩
  up := true
  removed := []

theorem init_created : (system sortedSet []).init created := ⟨⟨rfl, rfl⟩, rfl, rfl⟩

/-- The timer fires, and is answered how many players there are. -/
def counted : List (SweepEvent SortedSet) :=
  [.serve, .serve, .serve, .reply, .reply, .reply, .timeout true 200, .serve, .reply]

/-- The transaction that takes both players out of the set. -/
def swept : List (SweepEvent SortedSet) :=
  counted ++ List.replicate 4 .serve ++ List.replicate 4 .reply

/-- The replies to the one that looks them up, but for the last. -/
def looked : List (SweepEvent SortedSet) :=
  swept ++ List.replicate 6 .serve ++ List.replicate 5 .reply

/-! ## Transactions -/

/-- What can be collected when `EXEC` arrives. -/
def Whole (cs : List Command) : Prop :=
  cs = [.zrange testkey 0 5, .zremrangebyrank testkey 0 5] ∨
    (∃ ids : List OpenId, cs = ids.flatMap fun id => [.hgetall id, .expire id 20]) ∨
    ∃ ids : List OpenId, cs = ids.map .hgetall

theorem whole_of_issued {first last : Option RedisCallback}
    {body : List (Option RedisCallback × Command)} (h : Issued (.bundle first body last)) :
    Whole (body.map Prod.snd) := by
  cases h with
  | sweeping => exact .inl rfl
  | storing ids =>
    refine .inr (.inl ⟨ids, ?_⟩)
    rw [userCalls, List.map_flatMap]
    rfl
  | restoring ids =>
    refine .inr (.inr ⟨ids, ?_⟩)
    rw [List.map_map]
    rfl

/-- **Transactions.** However the timer fires and replies arrive, Redis never gets a `MULTI` in a
transaction or a command that is to be in another one, and every `EXEC` executes a whole one. A
reply that has arrived never makes its callback build a string of `NULL`. -/
theorem transactions_whole (hR : R.Documented) {file : Bytes}
    (h : (system R file).Reachable System.anyStep w) :
    (∀ r requests, w.timer.redis.requests = r :: requests →
      match r with
      | .multi => R.queue w.redis = none
      | .exec => ∃ cs, R.queue w.redis = some cs ∧ Whole cs
      | .op c => R.queue w.redis = none → c = .auth ∨ ∃ iMin, c = .zcount testkey iMin) ∧
      (w.timer.redis.replies ≠ [] → (next R w .reply).isSome) := by
  obtain ⟨v, hv⟩ := exists_restore h
  obtain ⟨answered, issued, rest, hF⟩ := flow_of_reachable hR hv h
  constructor
  · intro r requests hr
    have hissued := hF.requests
    rw [hr] at hissued
    obtain ⟨⟨k, r'⟩, issued, rfl, rfl, _⟩ := List.map_eq_cons_iff.mp hissued.symm
    rcases hF.aligned.head with ⟨c, _, rfl, hP, _⟩ | ⟨_, _, hq, rfl, _⟩ |
      ⟨_, _, _, cs, c, hq, rfl, _⟩ | ⟨first, body, hq, rfl, hP, _⟩
    · intro _
      cases hP with
      | auth => exact .inl rfl
      | counting iMin => exact .inr ⟨iMin, rfl⟩
    · exact hq
    · intro hnone
      rw [hq] at hnone
      cases hnone
    · exact ⟨_, hq, whole_of_issued hP⟩
  · intro hreplies
    have hup : w.up = true := by
      by_contra hdown
      exact hreplies (hF.down (Bool.not_eq_true _ ▸ hdown)).2
    have hout := hF.outstanding hup
    cases answered with
    | nil => exact absurd hout.replies hreplies
    | cons x answered =>
      rw [next, hout.pending, hout.replies]
      simp only [List.map_cons, List.cons_append, Option.isSome_map]
      exact callback_isSome (List.forall_mem_cons.mp hF.readable).1 _

/-- `EXEC` has its two commands. -/
theorem transactions_whole_counted : ∃ w, (system sortedSet []).Reachable System.anyStep w ∧
    w.timer.redis.requests = [.exec] ∧ ∃ cs, sortedSet.queue w.redis = some cs ∧ Whole cs := by
  obtain ⟨w, hw, htest⟩ := System.exists_of_run (counted ++ List.replicate 3 .serve)
    (fun w : Sweep SortedSet => decide (w.timer.redis.requests = [.exec]))
    (System.reachable_init (C := System.anyStep) init_created) (System.allowed_anyStep _ _)
    (by decide +kernel)
  have hreq := of_decide_eq_true htest
  exact ⟨w, hw, hreq, (transactions_whole SortedSet.documented hw).1 .exec [] hreq⟩

/-- **Conservation.** The keys looked up are those of the log and then, once each and in order,
those of the players that the transactions took out of the set; what is missing of these is in
replies under way, or was when the connection failed. -/
theorem removed_stored (hR : R.Documented) {file : Bytes} {v : List Bytes}
    (hv : Logger.restore file = .ok v) (h : (system R file).Reachable System.anyStep w) :
    keys w.timer.sent = v.map cString ++ expiring w.timer.sent ∧
      expiring w.timer.sent <+: w.removed.map user ∧
      (w.up = true → w.timer.redis.pending = [] →
        expiring w.timer.sent = w.removed.map user) := by
  obtain ⟨answered, issued, rest, hF⟩ := flow_of_reachable hR hv h
  have hall : expiring w.timer.sent ++ rest = w.removed.map user := by
    have hlooked := hF.looked
    rw [hF.expired, List.append_assoc] at hlooked
    exact List.append_cancel_left hlooked
  refine ⟨hF.expired, ⟨rest, hall⟩, fun hup hpend => ?_⟩
  have hanswered : answered = [] := by
    have hpending := (hF.outstanding hup).pending
    rw [hpend] at hpending
    exact List.map_eq_nil_iff.mp (List.append_eq_nil_iff.mp hpending.symm).1
  rw [← hall, hF.carries hup, hanswered, List.flatMap_nil, List.append_nil]

/-- Both players are gone, and both are looked up. -/
theorem removed_stored_swept : ∃ w, (system sortedSet []).Reachable System.anyStep w ∧
    w.removed = [[49], [50]] ∧ expiring w.timer.sent = [user [49], user [50]] := by
  obtain ⟨w, hw, htest⟩ := System.exists_of_run (looked ++ [.reply])
    (fun w : Sweep SortedSet =>
      decide (w.removed = [[49], [50]] ∧ w.up = true ∧ w.timer.redis.pending = []))
    (System.reachable_init (C := System.anyStep) init_created) (System.allowed_anyStep _ _)
    (by decide +kernel)
  obtain ⟨hremoved, hup, hidle⟩ := of_decide_eq_true htest
  have hstored := (removed_stored SortedSet.documented rfl hw).2.2 hup hidle
  rw [hremoved] at hstored
  exact ⟨w, hw, hremoved, hstored⟩

end Sweep
end NanoRaft
