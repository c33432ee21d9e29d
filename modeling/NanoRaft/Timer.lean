import NanoRaft.Journal
import NanoRaft.Lib.Pipeline

/-!
# The server's timer

The server side of `timer/Timer.cpp`: when the timer fires, the players whose time is over are
counted, taken out of a sorted set of Redis in a transaction, and looked up in a second one, which
also makes their data expire. All commands go over one connection of hiredis, which keeps for each
the callback for its reply. Of what is printed, the lines that `Restore` looks for are kept.

Redis is a parameter. `RedisZCARD`, and `RedisZRANGE` outside of a transaction, are never called.
-/

namespace NanoRaft

open Logger
open Pipeline

/-- The commands that are sent, with the arguments of their formats. -/
inductive Command where
  | auth
  | hgetall (strOpenid : OpenId)
  | zcount (strKey : Bytes) (iMin : UInt64)
  | zrange (strKey : Bytes) (iStart iStop : Int32)
  | zremrangebyrank (strKey : Bytes) (iStart iStop : Int32)
  | expire (strKey : OpenId) (iSeconds : Int32)
  deriving DecidableEq

/-- `redisReply`. -/
inductive RedisReply where
  | string (str : Bytes)
  | array (element : List RedisReply)
  | integer (integer : Int64)
  | nil
  | status (str : Bytes)
  | error (str : Bytes)

/-- `str`, which is `NULL` in the other replies. -/
def RedisReply.str : RedisReply → Option Bytes
  | .string str | .status str | .error str => some str
  | _ => none

inductive RedisCallback where
  | RedisAuthCallback
  | RedisHGETALLCallback
  | RedisZCOUNTCallback
  | RedisResultCallback
  | RedisToDBCallback
  | RedisRestoreToDBCallback
  deriving DecidableEq

/-- What `RedisEXEC` is called with. -/
inductive ExecType where
  | REDIS
  | DB
  | RSTOREDB

/-- The timer of a server, `m_bIsUser_` being false. -/
structure Timer where
  m_bIsRun_ : Bool
  /-- The context of `m_pstRedisChannel_`; a request without a callback has `none`. -/
  redis : Connection (Option RedisCallback) Command RedisReply
  file : Bytes
  /-- All requests so far. -/
  sent : List (Request Command)
  /-- The players of the transactions without their `done:EXPIRE`, in the order of issue. -/
  unfinished : List (List OpenId)

namespace Timer

/-- `"testkey"`. -/
def testkey : Bytes := [116, 101, 115, 116, 107, 101, 121]

/-- A `std::string` made of a `const char*`. -/
def cString (str : Bytes) : OpenId where
  text := str.takeWhile (· ≠ 0)
  noNul h := by simpa using List.mem_takeWhile_imp h

def redisAsyncCommand (t : Timer) (fn : Option RedisCallback) (r : Request Command) : Timer :=
  { t with redis := t.redis.send [(fn, r)], sent := t.sent ++ [r] }

def RedisHGETALL (t : Timer) (strOpenid : OpenId) : Timer :=
  t.redisAsyncCommand (some .RedisHGETALLCallback) (.op (.hgetall strOpenid))

def RedisZCOUNT (t : Timer) (strKey : Bytes) (iMin : UInt64) : Timer :=
  t.redisAsyncCommand (some .RedisZCOUNTCallback) (.op (.zcount strKey iMin))

def RedisMULTI (t : Timer) : Timer := t.redisAsyncCommand none .multi

def RedisEXEC (t : Timer) : ExecType → Timer
  | .DB => t.redisAsyncCommand (some .RedisToDBCallback) .exec
  | .REDIS => t.redisAsyncCommand (some .RedisResultCallback) .exec
  | .RSTOREDB => t.redisAsyncCommand (some .RedisRestoreToDBCallback) .exec

/-- `RedisZRANGE` with `bIsTran`. -/
def RedisZRANGE (t : Timer) (strKey : Bytes) (iStart iStop : Int32) : Timer :=
  t.redisAsyncCommand none (.op (.zrange strKey iStart iStop))

/-- `RedisZREMRANGEBYRANK` with `bIsTran`. -/
def RedisZREMRANGEBYRANK (t : Timer) (strKey : Bytes) (iStart iStop : Int32) : Timer :=
  t.redisAsyncCommand none (.op (.zremrangebyrank strKey iStart iStop))

/-- `RedisEXPIRE` with `bIsTran`. -/
def RedisEXPIRE (t : Timer) (strKey : OpenId) (iSeconds : Int32) : Timer :=
  t.redisAsyncCommand none (.op (.expire strKey iSeconds))

/-- A line that `Restore` looks for. -/
def print (t : Timer) (line : Bytes) : Timer := { t with file := t.file ++ printLine line }

/-! ## The callbacks -/

/-- `ServerTimeoutCallback`; `bLocked` is whether the server is still there. -/
def ServerTimeoutCallback (t : Timer) (bLocked : Bool) (tv_sec : UInt64) : Timer :=
  if bLocked then
    let t := { t with m_bIsRun_ := true }
    t.RedisZCOUNT testkey (tv_sec - 30)
  else t

/-- `RedisZCOUNTCallback`; a reply of `NULL` is `none`. -/
def RedisZCOUNTCallback (t : Timer) : Option RedisReply → Timer
  | some (.integer integer) =>
    let ulNum := integer.toUInt64.toUInt32
    if ulNum > 0 then
      let t := t.RedisMULTI
      let t := t.RedisZRANGE testkey 0 5
      let t := t.RedisZREMRANGEBYRANK testkey 0 5
      t.RedisEXEC .REDIS
    else { t with m_bIsRun_ := false }
  | _ => t

/-- One turn of the inner loop of `RedisResultCallback`, with the ids in `strTmp`; `none` where a
`std::string` is made of `NULL`. -/
def expireUser (ts : Timer × List OpenId) (element : RedisReply) : Option (Timer × List OpenId) :=
  element.str.map fun str =>
    let strOpenid := loginUser (cString str)
    ((ts.1.RedisHGETALL strOpenid).RedisEXPIRE strOpenid 20, ts.2 ++ [strOpenid])

/-- One turn of its outer loop. -/
def expireUsers (t : Timer) : RedisReply → Option Timer
  | .array element =>
    (element.foldlM expireUser (t.RedisMULTI, [])).map fun (t, ids) =>
      let t := (t.print (preExpire ids)).RedisEXEC .DB
      { t with unfinished := t.unfinished ++ [ids] }
  | _ => some t

def RedisResultCallback (t : Timer) : Option RedisReply → Option Timer
  | some (.array element) => element.foldlM expireUsers t
  | _ => some t

/-- What the callbacks of both transactions for the database print. -/
def printSync (t : Timer) : Timer := (t.print (preMark ++ sync)).print (doneMark ++ sync)

def RedisToDBCallback (t : Timer) : Option RedisReply → Timer
  | none => t
  | some pstRedisReply =>
    let t := { t.print (doneMark ++ expire) with unfinished := t.unfinished.tail }
    match pstRedisReply with
    | .array _ => t.printSync
    | _ => t

def RedisRestoreToDBCallback (t : Timer) : Option RedisReply → Timer
  | some (.array _) => t.printSync
  | _ => t

/-- The callback of a request. The reply to `AUTH` starts no subscription here, and the one to
`HGETALL` is only printed. -/
def callback (t : Timer) (fn : Option RedisCallback) (pstResult : Option RedisReply) :
    Option Timer :=
  match fn with
  | none | some .RedisAuthCallback | some .RedisHGETALLCallback => some t
  | some .RedisZCOUNTCallback => some (t.RedisZCOUNTCallback pstResult)
  | some .RedisResultCallback => t.RedisResultCallback pstResult
  | some .RedisToDBCallback => some (t.RedisToDBCallback pstResult)
  | some .RedisRestoreToDBCallback => some (t.RedisRestoreToDBCallback pstResult)

/-- The constructor: the channel sends `AUTH`, and the players that the log names are looked
up. -/
def create (file : Bytes) : Except RestoreFault Timer := do
  let t : Timer := ⟨false, .empty, file, [], []⟩
  let t := t.redisAsyncCommand (some .RedisAuthCallback) (.op .auth)
  let v ← Logger.restore file
  let t := v.foldl (fun t strOpenid => t.RedisHGETALL (cString strOpenid)) t.RedisMULTI
  pure (t.RedisEXEC .RSTOREDB)

end Timer

/-! ## The timer and Redis -/

/-- A server of Redis, as one connection meets it. -/
structure Redis (σ : Type) where
  serve : σ → Request Command → σ × RedisReply
  /-- The commands since `MULTI`, in a transaction. -/
  queue : σ → Option (List Command)
  /-- The members of a sorted set, by rank. -/
  members : σ → Bytes → List Bytes

/-- A timer, the Redis it is connected to, and what its commands have removed from the set. -/
structure Sweep (σ : Type) where
  timer : Timer
  redis : σ
  /-- The connection has not failed. -/
  up : Bool
  removed : List Bytes

/-- What can happen: the timer fires, Redis takes a command or is changed by another client, a
reply is handed to its callback, and the connection fails. -/
inductive SweepEvent (σ : Type) where
  | timeout (bLocked : Bool) (tv_sec : UInt64)
  | serve
  | others (s : σ)
  | reply
  | fail

namespace Sweep

variable {σ : Type}

/-- The members that are there no more. -/
def gone (R : Redis σ) (s s' : σ) : List Bytes :=
  (R.members s Timer.testkey).filter fun m => m ∉ R.members s' Timer.testkey

/-- One event. What the timer does with a context that has failed is not followed, since hiredis
has freed it. -/
def next (R : Redis σ) (w : Sweep σ) : SweepEvent σ → Option (Sweep σ)
  | .timeout bLocked tv_sec =>
    if w.up then some { w with timer := w.timer.ServerTimeoutCallback bLocked tv_sec } else none
  | .serve =>
    match w.timer.redis.requests with
    | [] => none
    | r :: requests =>
      let (s, reply) := R.serve w.redis r
      let replies := if w.up then w.timer.redis.replies ++ [reply] else []
      let c := { w.timer.redis with requests := requests, replies := replies }
      some { w with
        timer := { w.timer with redis := c }
        redis := s
        removed := w.removed ++ gone R w.redis s }
  | .others s => if R.queue s = R.queue w.redis then some { w with redis := s } else none
  | .reply =>
    match w.timer.redis.pending, w.timer.redis.replies with
    | fn :: pending, reply :: replies =>
      let c := { w.timer.redis with pending := pending, replies := replies }
      ({ w.timer with redis := c }.callback fn (some reply)).map fun t => { w with timer := t }
    | _, _ => none
  | .fail =>
    if w.up then
      -- all callbacks that are left get `NULL`
      (w.timer.redis.pending.foldlM (fun (t : Timer) fn => t.callback fn none) w.timer).map fun t =>
        { w with timer := { t with redis := { t.redis with pending := [], replies := [] } }
                 up := false }
    else none

/-- A timer that is created on a log, and a Redis that knows nothing of it yet. -/
def system (R : Redis σ) (file : Bytes) : System (Sweep σ) (SweepEvent σ) where
  init w := (Timer.create file = .ok w.timer ∧ R.queue w.redis = none) ∧
    w.up = true ∧ w.removed = []
  next := next R

end Sweep
end NanoRaft
