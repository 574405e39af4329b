import Mathlib.Algebra.GroupWithZero.Nat
import Mathlib.Data.List.Infix
import Astralane.Parser

/-!
# The RPC client

`rpc.rs`: one POST per attempt, sorted into four outcomes, and a loop that
sleeps and tries again after a transient one, five times at most.

The loop ends at the first attempt that is not transient, or at the sixth
(`StopsAt`), and its result is read off that attempt alone
(`getBlockLoop_outcome`). The rate limiter and the HTTP timeout are left out:
the one only delays a request, the other is one way for a send to fail.
-/

namespace Astralane

def maxRetries : Nat := 5

def baseDelayMs : Nat := 200

def maxDelayMs : Nat := 5000

/-! ## Requests and answers -/

structure RpcError where
  code : Int
  message : String
deriving DecidableEq, Repr

/-- `serde` reads a missing `result` or `error` and a `null` alike, as `none`. -/
structure RpcResponse where
  result : Option Json
  error : Option RpcError

/-- A status code with its `Display`, the code and its canonical reason. -/
structure StatusCode where
  code : Nat
  text : String
deriving DecidableEq, Repr

def StatusCode.isSuccess (status : StatusCode) : Bool :=
  200 ≤ status.code && status.code < 300

def StatusCode.isServerError (status : StatusCode) : Bool :=
  500 ≤ status.code && status.code < 600

def tooManyRequests : Nat := 429

/-- What becomes of one POST: no response, or a status and the body as
`resp.json()` reads it. -/
inductive HttpAnswer where
  | sendError (e : String)
  | response (status : StatusCode) (body : Except String RpcResponse)

/-- The other end of `post` for one call: the answer to each attempt at a body,
and the random draw after it. -/
structure RpcServer where
  answer : Json → Nat → HttpAnswer
  random : Json → Nat → UInt64

def rpcRequest (params : Json) : Json :=
  .obj
    [("jsonrpc", .str "2.0"), ("id", .num (.int 1)), ("method", .str "getBlock"),
     ("params", params)]

inductive CallOutcome where
  | skipped
  | ok (v : Json)
  | transient (msg : String)
  | permanent (msg : String)

/-! ## One attempt -/

/-- `char::to_lowercase`, as far as an ASCII letter can come out of it: from an
ASCII capital, the Kelvin sign, or a capital I with a dot. -/
def toLowercase (c : Char) : List Char :=
  if c = '\u212a' then ['k']
  else if c = '\u0130' then ['i', '\u0307']
  else [c.toLower]

/-- `message.to_lowercase().contains("skipped")`. -/
def mentionsSkipped (message : String) : Bool :=
  decide ("skipped".toList <:+: message.toList.flatMap toLowercase)

def classifyResponse (parsed : RpcResponse) : CallOutcome :=
  match parsed.error with
  | some err => if mentionsSkipped err.message then .skipped else .transient err.message
  | none =>
      match parsed.result with
      | some v => .ok v
      | none => .skipped

def tryGetBlock : HttpAnswer → CallOutcome
  | .sendError e => .transient e
  | .response status body =>
      if status.isServerError || status.code = tooManyRequests then
        .transient ("http status " ++ status.text)
      else if !status.isSuccess then .permanent ("http status " ++ status.text)
      else
        match body with
        | .error e => .transient ("bad json: " ++ e)
        | .ok parsed => classifyResponse parsed

/-! ## The retry loop -/

/-- In milliseconds, for one random draw; the product saturates at `u64::MAX`. -/
def backoffWithJitter (random : UInt64) (attempt : Nat) : Nat :=
  let exp := min (baseDelayMs * 2 ^ min attempt 10) (2 ^ 64 - 1)
  let capped := min exp maxDelayMs
  random.toNat % (capped + 1)

/-- The loop from `attempt` on: its result, and the sleeps on the way to it. -/
def getBlockLoop (rpc : RpcServer) (params : Json) (attempt : Nat) :
    BlockFetchOutcome × List Nat :=
  match tryGetBlock (rpc.answer (rpcRequest params) attempt) with
  | .skipped => (.skipped, [])
  | .ok v => (.fetched v, [])
  | .permanent msg => (.failed msg, [])
  | .transient msg =>
      if attempt ≥ maxRetries then
        (.failed ("gave up after " ++ toString attempt ++ " retries: " ++ msg), [])
      else
        let (outcome, slept) := getBlockLoop rpc params (attempt + 1)
        (outcome, backoffWithJitter (rpc.random (rpcRequest params) attempt) attempt :: slept)
termination_by maxRetries - attempt

def getBlockWithParams (rpc : RpcServer) (params : Json) : BlockFetchOutcome :=
  (getBlockLoop rpc params 0).1

/-- The request parameters: the slot, and the options with the given details. -/
def blockParams (slot : UInt64) (encoding : List (String × Json)) (details : String) : Json :=
  .arr
    [.num (.int slot.toNat),
     .obj
      (encoding
        ++ [("maxSupportedTransactionVersion", .num (.int 0)), ("transactionDetails", .str details),
          ("rewards", .bool false)])]

def fullParams (slot : UInt64) : Json :=
  blockParams slot [("encoding", .str "jsonParsed")] "full"

def getBlock (rpc : RpcServer) (slot : UInt64) : BlockFetchOutcome :=
  getBlockWithParams rpc (fullParams slot)

def getBlockSignatures (rpc : RpcServer) (slot : UInt64) : BlockFetchOutcome :=
  getBlockWithParams rpc (blockParams slot [] "signatures")

/-! ## What an answer says

The four outcomes of an attempt, in terms of the answer. -/

namespace HttpAnswer

/-- A result and no error, with a success status. -/
def Delivers (a : HttpAnswer) (v : Json) : Prop :=
  ∃ status parsed, a = .response status (.ok parsed) ∧ status.isSuccess = true
    ∧ parsed.error = none ∧ parsed.result = some v

/-- An error that mentions it, or neither error nor result. -/
def SaysSkipped (a : HttpAnswer) : Prop :=
  ∃ status parsed, a = .response status (.ok parsed) ∧ status.isSuccess = true
    ∧ ((∃ err, parsed.error = some err ∧ mentionsSkipped err.message = true)
      ∨ parsed.error = none ∧ parsed.result = none)

/-- A status that is neither a success nor worth another try. -/
def Refuses (a : HttpAnswer) (msg : String) : Prop :=
  ∃ status body, a = .response status body ∧ status.isSuccess = false
    ∧ status.isServerError = false ∧ status.code ≠ tooManyRequests
    ∧ msg = "http status " ++ status.text

/-- Anything else: no response, an overloaded or broken server, a body that
cannot be read, an error that says nothing of a skipped slot. -/
def TryAgain (a : HttpAnswer) (msg : String) : Prop :=
  a = .sendError msg
    ∨ ∃ status body, a = .response status body
      ∧ ((status.isServerError = true ∨ status.code = tooManyRequests)
          ∧ msg = "http status " ++ status.text
        ∨ status.isSuccess = true
          ∧ ((∃ e, body = .error e ∧ msg = "bad json: " ++ e)
            ∨ ∃ parsed err, body = .ok parsed ∧ parsed.error = some err
              ∧ mentionsSkipped err.message = false ∧ msg = err.message))

end HttpAnswer

/-- A success is neither a server error nor a 429. -/
theorem StatusCode.of_isSuccess {status : StatusCode} (h : status.isSuccess = true) :
    status.isServerError = false ∧ status.code ≠ tooManyRequests := by
  unfold StatusCode.isSuccess at h
  rw [Bool.and_eq_true, decide_eq_true_eq, decide_eq_true_eq] at h
  unfold StatusCode.isServerError tooManyRequests
  rw [Bool.and_eq_false_iff, decide_eq_false_iff_not, decide_eq_false_iff_not]
  omega

theorem tryGetBlock_of_isSuccess {status : StatusCode} (h : status.isSuccess = true)
    (body : Except String RpcResponse) :
    tryGetBlock (.response status body)
      = match body with
        | .error e => .transient ("bad json: " ++ e)
        | .ok parsed => classifyResponse parsed := by
  obtain ⟨hserver, hmany⟩ := StatusCode.of_isSuccess h
  simp only [tryGetBlock, hserver, hmany, h, decide_false, Bool.or_self, Bool.false_eq_true,
    Bool.not_true, if_false]

theorem classifyResponse_of_error {parsed : RpcResponse} {err : RpcError}
    (h : parsed.error = some err) :
    classifyResponse parsed
      = if mentionsSkipped err.message then .skipped else .transient err.message := by
  rw [classifyResponse, h]

theorem classifyResponse_of_result {parsed : RpcResponse} (h : parsed.error = none) :
    classifyResponse parsed = (parsed.result.map CallOutcome.ok).getD .skipped := by
  rw [classifyResponse, h]
  cases parsed.result <;> rfl

namespace HttpAnswer

variable {a : HttpAnswer} {v : Json} {msg : String}

theorem Delivers.outcome (h : a.Delivers v) : tryGetBlock a = .ok v := by
  obtain ⟨status, parsed, rfl, hok, herror, hresult⟩ := h
  rw [tryGetBlock_of_isSuccess hok]
  exact (classifyResponse_of_result herror).trans (by rw [hresult]; rfl)

theorem SaysSkipped.outcome (h : a.SaysSkipped) : tryGetBlock a = .skipped := by
  obtain ⟨status, parsed, rfl, hok, ⟨err, herror, hskip⟩ | ⟨herror, hresult⟩⟩ := h
  · rw [tryGetBlock_of_isSuccess hok]
    exact (classifyResponse_of_error herror).trans (if_pos hskip)
  · rw [tryGetBlock_of_isSuccess hok]
    exact (classifyResponse_of_result herror).trans (by rw [hresult]; rfl)

theorem Refuses.outcome (h : a.Refuses msg) : tryGetBlock a = .permanent msg := by
  obtain ⟨status, body, rfl, hok, hserver, hmany, rfl⟩ := h
  simp only [tryGetBlock, hok, hserver, hmany, decide_false, Bool.or_self, Bool.false_eq_true,
    Bool.not_false, if_true, if_false]

theorem TryAgain.outcome (h : a.TryAgain msg) : tryGetBlock a = .transient msg := by
  rcases h with rfl | ⟨status, body, rfl, ⟨hagain, rfl⟩ | ⟨hok, hbody⟩⟩
  · rfl
  · simp only [tryGetBlock, Bool.or_eq_true, decide_eq_true_eq, if_pos hagain]
  · rw [tryGetBlock_of_isSuccess hok]
    rcases hbody with ⟨e, rfl, rfl⟩ | ⟨parsed, err, rfl, herror, hskip, rfl⟩
    · rfl
    · exact (classifyResponse_of_error herror).trans (if_neg (Bool.eq_false_iff.mp hskip))

/-- Every answer is of one of the four kinds. -/
theorem kinds (a : HttpAnswer) :
    (∃ v, a.Delivers v) ∨ a.SaysSkipped ∨ (∃ msg, a.Refuses msg) ∨ ∃ msg, a.TryAgain msg := by
  rcases a with e | ⟨status, body⟩
  · exact Or.inr (Or.inr (Or.inr ⟨e, Or.inl rfl⟩))
  by_cases hagain : status.isServerError = true ∨ status.code = tooManyRequests
  · exact Or.inr (Or.inr (Or.inr ⟨_, Or.inr ⟨status, body, rfl, Or.inl ⟨hagain, rfl⟩⟩⟩))
  cases hok : status.isSuccess with
  | false =>
      obtain ⟨hserver, hmany⟩ := not_or.mp hagain
      exact Or.inr (Or.inr (Or.inl
        ⟨_, status, body, rfl, hok, Bool.eq_false_iff.mpr hserver, hmany, rfl⟩))
  | true =>
      rcases body with e | ⟨result, _ | err⟩
      · exact Or.inr (Or.inr (Or.inr
          ⟨_, Or.inr ⟨status, _, rfl, Or.inr ⟨hok, Or.inl ⟨e, rfl, rfl⟩⟩⟩⟩))
      · rcases result with _ | v
        · exact Or.inr (Or.inl ⟨status, _, rfl, hok, Or.inr ⟨rfl, rfl⟩⟩)
        · exact Or.inl ⟨v, status, _, rfl, hok, rfl, rfl⟩
      · cases hskip : mentionsSkipped err.message with
        | true => exact Or.inr (Or.inl ⟨status, _, rfl, hok, Or.inl ⟨err, rfl, hskip⟩⟩)
        | false =>
            exact Or.inr (Or.inr (Or.inr ⟨err.message, Or.inr ⟨status, _, rfl,
              Or.inr ⟨hok, Or.inr ⟨_, err, rfl, rfl, hskip, rfl⟩⟩⟩⟩))

end HttpAnswer

section Attempt

variable {a : HttpAnswer}

theorem tryGetBlock_eq_ok {v : Json} : tryGetBlock a = .ok v ↔ a.Delivers v := by
  refine ⟨fun h => ?_, HttpAnswer.Delivers.outcome⟩
  rcases a.kinds with ⟨w, hw⟩ | hs | ⟨msg, hr⟩ | ⟨msg, ht⟩
  · obtain rfl := CallOutcome.ok.inj (h.symm.trans hw.outcome)
    exact hw
  · nomatch h.symm.trans hs.outcome
  · nomatch h.symm.trans hr.outcome
  · nomatch h.symm.trans ht.outcome

theorem tryGetBlock_eq_skipped : tryGetBlock a = .skipped ↔ a.SaysSkipped := by
  refine ⟨fun h => ?_, HttpAnswer.SaysSkipped.outcome⟩
  rcases a.kinds with ⟨w, hw⟩ | hs | ⟨msg, hr⟩ | ⟨msg, ht⟩
  · nomatch h.symm.trans hw.outcome
  · exact hs
  · nomatch h.symm.trans hr.outcome
  · nomatch h.symm.trans ht.outcome

theorem tryGetBlock_eq_permanent {msg : String} :
    tryGetBlock a = .permanent msg ↔ a.Refuses msg := by
  refine ⟨fun h => ?_, HttpAnswer.Refuses.outcome⟩
  rcases a.kinds with ⟨w, hw⟩ | hs | ⟨msg', hr⟩ | ⟨msg', ht⟩
  · nomatch h.symm.trans hw.outcome
  · nomatch h.symm.trans hs.outcome
  · obtain rfl := CallOutcome.permanent.inj (h.symm.trans hr.outcome)
    exact hr
  · nomatch h.symm.trans ht.outcome

theorem tryGetBlock_eq_transient {msg : String} :
    tryGetBlock a = .transient msg ↔ a.TryAgain msg := by
  refine ⟨fun h => ?_, HttpAnswer.TryAgain.outcome⟩
  rcases a.kinds with ⟨w, hw⟩ | hs | ⟨msg', hr⟩ | ⟨msg', ht⟩
  · nomatch h.symm.trans hw.outcome
  · nomatch h.symm.trans hs.outcome
  · nomatch h.symm.trans hr.outcome
  · obtain rfl := CallOutcome.transient.inj (h.symm.trans ht.outcome)
    exact ht

end Attempt

example : mentionsSkipped "Slot 123456789 was skipped, or missing in long-term storage" = true
    ∧ mentionsSkipped "Invalid params: slot out of range" = false := by
  decide +kernel

/-! ## Where the loop ends -/

/-- The outcome of a call whose last attempt, numbered `k`, came to `call`. -/
def lastOutcome (k : Nat) : CallOutcome → BlockFetchOutcome
  | .skipped => .skipped
  | .ok v => .fetched v
  | .permanent msg => .failed msg
  | .transient msg => .failed ("gave up after " ++ toString k ++ " retries: " ++ msg)

section Loop

variable (rpc : RpcServer) (params : Json)

def RpcServer.reply (attempt : Nat) : HttpAnswer :=
  rpc.answer (rpcRequest params) attempt

/-- `k` is the last attempt of a loop that starts with `attempt`: all before it
are to be tried again, and either it is not or the retries are spent. -/
structure StopsAt (attempt k : Nat) : Prop where
  start : attempt ≤ k
  bound : k ≤ maxRetries
  before : ∀ i, attempt ≤ i → i < k → ∃ msg, (rpc.reply params i).TryAgain msg
  last : k = maxRetries ∨ ∀ msg, ¬(rpc.reply params k).TryAgain msg

variable {rpc params}

theorem StopsAt.unique {attempt k k' : Nat} (h : StopsAt rpc params attempt k)
    (h' : StopsAt rpc params attempt k') : k = k' := by
  rcases Nat.lt_trichotomy k k' with hlt | heq | hgt
  · obtain ⟨msg, hmsg⟩ := h'.before k h.start hlt
    rcases h.last with hk | hk
    · have hbound := h'.bound
      omega
    · exact absurd hmsg (hk msg)
  · exact heq
  · obtain ⟨msg, hmsg⟩ := h.before k' h'.start hgt
    rcases h'.last with hk | hk
    · have hbound := h.bound
      omega
    · exact absurd hmsg (hk msg)

/-- A further attempt in front, which was to be tried again. -/
theorem StopsAt.retry {attempt k : Nat} {msg : String}
    (hmsg : (rpc.reply params attempt).TryAgain msg) (h : StopsAt rpc params (attempt + 1) k) :
    StopsAt rpc params attempt k where
  start := Nat.le_of_succ_le h.start
  bound := h.bound
  last := h.last
  before := by
    intro i hi hik
    rcases Nat.eq_or_lt_of_le hi with rfl | hi
    · exact ⟨msg, hmsg⟩
    · exact h.before i hi hik

theorem StopsAt.now {attempt : Nat} (hle : attempt ≤ maxRetries)
    (h : attempt = maxRetries ∨ ∀ msg, ¬(rpc.reply params attempt).TryAgain msg) :
    StopsAt rpc params attempt attempt where
  start := Nat.le_refl attempt
  bound := hle
  before := by
    intro i hi hlt
    omega
  last := h

/-- The sleeps of the attempts from `attempt` up to, but not including, `k`. -/
def sleepsBefore (rpc : RpcServer) (params : Json) (attempt k : Nat) : List Nat :=
  (List.range' attempt (k - attempt)).map fun i =>
    backoffWithJitter (rpc.random (rpcRequest params) i) i

theorem sleepsBefore_self (attempt : Nat) : sleepsBefore rpc params attempt attempt = [] := by
  rw [sleepsBefore, Nat.sub_self]
  rfl

theorem sleepsBefore_cons {attempt k : Nat} (h : attempt < k) :
    sleepsBefore rpc params attempt k
      = backoffWithJitter (rpc.random (rpcRequest params) attempt) attempt
          :: sleepsBefore rpc params (attempt + 1) k := by
  obtain ⟨n, rfl⟩ := Nat.exists_eq_add_of_lt h
  have hfirst : attempt + n + 1 - attempt = n + 1 := by omega
  have hrest : attempt + n + 1 - (attempt + 1) = n := by omega
  rw [sleepsBefore, sleepsBefore, hfirst, hrest, List.range'_succ]
  rfl

/-- The loop, without its recursion: it runs to the attempt it stops at, sleeps
after each attempt before, and returns what the last one came to. -/
theorem getBlockLoop_eq (rpc : RpcServer) (params : Json) {attempt : Nat}
    (hle : attempt ≤ maxRetries) :
    ∃ k, StopsAt rpc params attempt k
      ∧ getBlockLoop rpc params attempt
        = (lastOutcome k (tryGetBlock (rpc.reply params k)),
            sleepsBefore rpc params attempt k) := by
  induction hleft : maxRetries - attempt generalizing attempt with
  | zero =>
      have hspent : attempt = maxRetries := by omega
      refine ⟨attempt, .now hle (Or.inl hspent), ?_⟩
      rw [getBlockLoop, sleepsBefore_self, RpcServer.reply]
      cases tryGetBlock (rpc.answer (rpcRequest params) attempt) with
      | skipped | ok | permanent => rfl
      | transient msg => exact if_pos (Nat.le_of_eq hspent.symm)
  | succ left ih =>
      have hnext : ¬attempt ≥ maxRetries := by omega
      rw [getBlockLoop]
      cases hcall : tryGetBlock (rpc.answer (rpcRequest params) attempt) with
      | skipped | ok | permanent =>
          refine ⟨attempt, .now hle (Or.inr fun msg hmsg => ?_), ?_⟩
          · nomatch hcall.symm.trans hmsg.outcome
          · rw [sleepsBefore_self, RpcServer.reply, hcall]
            rfl
      | transient msg =>
          have hmsg : (rpc.reply params attempt).TryAgain msg := tryGetBlock_eq_transient.mp hcall
          obtain ⟨k, hk, hloop⟩ := ih (show attempt + 1 ≤ maxRetries by omega) (by omega)
          refine ⟨k, hk.retry hmsg, ?_⟩
          simp only [if_neg hnext, hloop, sleepsBefore_cons (Nat.lt_of_succ_le hk.start)]

/-- The call gets to its attempt `k`: five retries are allowed, and every
attempt before was to be tried again. -/
def RpcServer.Reaches (rpc : RpcServer) (params : Json) (k : Nat) : Prop :=
  k ≤ maxRetries ∧ ∀ i < k, ∃ msg, (rpc.reply params i).TryAgain msg

theorem StopsAt.reaches {k : Nat} (h : StopsAt rpc params 0 k) : rpc.Reaches params k :=
  ⟨h.bound, fun i hi => h.before i (Nat.zero_le i) hi⟩

theorem RpcServer.Reaches.stopsAt {k : Nat} (h : rpc.Reaches params k)
    (hlast : k = maxRetries ∨ ∀ msg, ¬(rpc.reply params k).TryAgain msg) :
    StopsAt rpc params 0 k where
  start := Nat.zero_le k
  bound := h.1
  before := fun i _ hi => h.2 i hi
  last := hlast

/-- The result of a call, from the attempt it stops at. -/
theorem getBlockWithParams_of_stopsAt {k : Nat} (h : StopsAt rpc params 0 k) :
    getBlockWithParams rpc params = lastOutcome k (tryGetBlock (rpc.reply params k)) := by
  obtain ⟨k', hk', hloop⟩ := getBlockLoop_eq rpc params (Nat.zero_le maxRetries)
  obtain rfl := h.unique hk'
  rw [getBlockWithParams, hloop]

theorem exists_stopsAt (rpc : RpcServer) (params : Json) : ∃ k, StopsAt rpc params 0 k := by
  obtain ⟨k, hk, -⟩ := getBlockLoop_eq rpc params (Nat.zero_le maxRetries)
  exact ⟨k, hk⟩

theorem settled_of_outcome {a : HttpAnswer} {call : CallOutcome} (h : tryGetBlock a = call)
    (hcall : ∀ msg, call ≠ .transient msg) : ∀ msg, ¬a.TryAgain msg :=
  fun msg hmsg => hcall msg (h.symm.trans hmsg.outcome)

end Loop

/-- A call is `Fetched` with the value of a success answer, `Skipped` on an
answer that says so, and `Failed` on a refusal or after six attempts, and in
each case every attempt before the decisive one was to be tried again. -/
theorem getBlockWithParams_iff (rpc : RpcServer) (params : Json) :
    (∀ v, getBlockWithParams rpc params = .fetched v
        ↔ ∃ k, rpc.Reaches params k ∧ (rpc.reply params k).Delivers v)
      ∧ (getBlockWithParams rpc params = .skipped
        ↔ ∃ k, rpc.Reaches params k ∧ (rpc.reply params k).SaysSkipped)
      ∧ ∀ msg, getBlockWithParams rpc params = .failed msg
        ↔ (∃ k, rpc.Reaches params k ∧ (rpc.reply params k).Refuses msg)
          ∨ rpc.Reaches params maxRetries ∧ ∃ m, (rpc.reply params maxRetries).TryAgain m
            ∧ msg = "gave up after 5 retries: " ++ m := by
  obtain ⟨k, hk⟩ := exists_stopsAt rpc params
  have hresult := getBlockWithParams_of_stopsAt hk
  refine ⟨fun v => ⟨fun h => ?_, ?_⟩, ⟨fun h => ?_, ?_⟩, fun msg => ⟨fun h => ?_, ?_⟩⟩
  · refine ⟨k, hk.reaches, tryGetBlock_eq_ok.mp ?_⟩
    rw [hresult] at h
    cases hcall : tryGetBlock (rpc.reply params k) with
    | ok w =>
        rw [hcall] at h
        exact congrArg CallOutcome.ok (BlockFetchOutcome.fetched.inj h)
    | skipped | permanent | transient =>
        rw [hcall] at h
        nomatch h
  · rintro ⟨j, hj, hv⟩
    have hstop := hj.stopsAt (Or.inr (settled_of_outcome hv.outcome nofun))
    rw [getBlockWithParams_of_stopsAt hstop, hv.outcome]
    rfl
  · refine ⟨k, hk.reaches, tryGetBlock_eq_skipped.mp ?_⟩
    rw [hresult] at h
    cases hcall : tryGetBlock (rpc.reply params k) with
    | skipped => rfl
    | ok | permanent | transient =>
        rw [hcall] at h
        nomatch h
  · rintro ⟨j, hj, hs⟩
    have hstop := hj.stopsAt (Or.inr (settled_of_outcome hs.outcome nofun))
    rw [getBlockWithParams_of_stopsAt hstop, hs.outcome]
    rfl
  · rw [hresult] at h
    cases hcall : tryGetBlock (rpc.reply params k) with
    | skipped | ok =>
        rw [hcall] at h
        nomatch h
    | permanent m =>
        rw [hcall] at h
        obtain rfl := BlockFetchOutcome.failed.inj h
        exact Or.inl ⟨k, hk.reaches, tryGetBlock_eq_permanent.mp hcall⟩
    | transient m =>
        have hm : (rpc.reply params k).TryAgain m := tryGetBlock_eq_transient.mp hcall
        obtain rfl : k = maxRetries := hk.last.resolve_right fun hno => hno m hm
        rw [hcall] at h
        exact Or.inr ⟨hk.reaches, m, hm, (BlockFetchOutcome.failed.inj h).symm⟩
  · rintro (⟨j, hj, hr⟩ | ⟨hj, m, hm, rfl⟩)
    · have hstop := hj.stopsAt (Or.inr (settled_of_outcome hr.outcome nofun))
      rw [getBlockWithParams_of_stopsAt hstop, hr.outcome]
      rfl
    · rw [getBlockWithParams_of_stopsAt (hj.stopsAt (Or.inl rfl)), hm.outcome]
      rfl

/-! ## An honest node -/

/-- Where the node answers for a slot at all, it says what `chain` has. -/
def RpcServer.Honest (rpc : RpcServer) (chain : UInt64 → BlockFetchOutcome) : Prop :=
  ∀ slot attempt,
    (∀ v, (rpc.reply (fullParams slot) attempt).Delivers v → chain slot = .fetched v)
      ∧ ((rpc.reply (fullParams slot) attempt).SaysSkipped → chain slot = .skipped)

/-- Retries and refusals can lose a slot, and never change what is said of it. -/
theorem getBlock_of_honest {rpc : RpcServer} {chain : UInt64 → BlockFetchOutcome}
    (h : rpc.Honest chain) (slot : UInt64) :
    getBlock rpc slot = chain slot ∨ ∃ msg, getBlock rpc slot = .failed msg := by
  obtain ⟨k, hk⟩ := exists_stopsAt rpc (fullParams slot)
  rw [getBlock, getBlockWithParams_of_stopsAt hk]
  rcases (rpc.reply (fullParams slot) k).kinds with ⟨v, hv⟩ | hs | ⟨msg, hr⟩ | ⟨msg, ht⟩
  · rw [hv.outcome, (h slot k).1 v hv]
    exact Or.inl rfl
  · rw [hs.outcome, (h slot k).2 hs]
    exact Or.inl rfl
  · rw [hr.outcome]
    exact Or.inr ⟨msg, rfl⟩
  · rw [ht.outcome]
    exact Or.inr ⟨_, rfl⟩

/-! ## Sleeps -/

theorem doubling_le {attempt : Nat} (h : attempt < maxRetries) : 2 ^ attempt ≤ 2 ^ 4 :=
  Nat.pow_le_pow_right Nat.two_pos (Nat.le_of_lt_succ h)

/-- Below the fifth retry neither the saturation nor the five seconds matter:
the sleep is a draw between zero and the doubled base delay. -/
theorem backoffWithJitter_eq {attempt : Nat} (h : attempt < maxRetries) (random : UInt64) :
    backoffWithJitter random attempt = random.toNat % (baseDelayMs * 2 ^ attempt + 1) := by
  have hpow := doubling_le h
  have hmin : min attempt 10 = attempt := by
    unfold maxRetries at h
    omega
  unfold backoffWithJitter maxDelayMs baseDelayMs
  rw [hmin]
  have hsat : min (200 * 2 ^ attempt) (2 ^ 64 - 1) = 200 * 2 ^ attempt := by omega
  have hcap : min (200 * 2 ^ attempt) 5000 = 200 * 2 ^ attempt := by omega
  simp only [hsat, hcap]

theorem backoffWithJitter_le {attempt : Nat} (h : attempt < maxRetries) (random : UInt64) :
    backoffWithJitter random attempt ≤ baseDelayMs * 2 ^ attempt := by
  rw [backoffWithJitter_eq h]
  exact Nat.le_of_lt_succ (Nat.mod_lt _ (Nat.succ_pos _))

theorem exists_backoffWithJitter {attempt d : Nat} (h : attempt < maxRetries)
    (hd : d ≤ baseDelayMs * 2 ^ attempt) : ∃ random, backoffWithJitter random attempt = d := by
  have hpow := doubling_le h
  have hlt : d < 2 ^ 64 := by
    unfold baseDelayMs at hd
    omega
  refine ⟨UInt64.ofNat d, ?_⟩
  rw [backoffWithJitter_eq h, UInt64.toNat_ofNat_of_lt' hlt]
  exact Nat.mod_eq_of_lt (Nat.lt_succ_of_le hd)

/-- A sum of sleeps is at most the sum of their bounds, a geometric series. -/
theorem sum_sleepsBefore_le (rpc : RpcServer) (params : Json) {k : Nat} (hk : k ≤ maxRetries) :
    (sleepsBefore rpc params 0 k).sum + baseDelayMs ≤ baseDelayMs * 2 ^ k := by
  induction k with
  | zero =>
      rw [sleepsBefore_self]
      exact Nat.le_of_eq (Nat.mul_one baseDelayMs).symm
  | succ k ih =>
      have hsum := ih (Nat.le_of_succ_le hk)
      have hlast := backoffWithJitter_le (Nat.lt_of_succ_le hk) (rpc.random (rpcRequest params) k)
      have hconcat : sleepsBefore rpc params 0 (k + 1) = sleepsBefore rpc params 0 k
          ++ [backoffWithJitter (rpc.random (rpcRequest params) k) k] := by
        simp only [sleepsBefore, Nat.sub_zero, List.range'_concat, List.map_append, List.map_cons,
          List.map_nil, Nat.zero_add, Nat.one_mul]
      rw [hconcat, List.sum_append, List.sum_singleton, Nat.pow_succ, ← Nat.mul_assoc]
      omega

/-- A call sleeps once before each retry, so at most five times; the sleep after
attempt `i` is anything from zero to 200 ms doubled `i` times, which makes 6.2 s
at most, and no result depends on the draws. -/
theorem getBlockLoop_sleeps (rpc : RpcServer) (params : Json) :
    (∃ k, StopsAt rpc params 0 k ∧ (getBlockLoop rpc params 0).2.length = k)
      ∧ (∀ i (hi : i < (getBlockLoop rpc params 0).2.length),
          i < maxRetries ∧ (getBlockLoop rpc params 0).2[i] ≤ 200 * 2 ^ i)
      ∧ (∀ i < maxRetries, ∀ d, (∃ random, backoffWithJitter random i = d) ↔ d ≤ 200 * 2 ^ i)
      ∧ (getBlockLoop rpc params 0).2.sum ≤ 6200
      ∧ ∀ random,
          getBlockWithParams { rpc with random } params = getBlockWithParams rpc params := by
  obtain ⟨k, hk, hloop⟩ := getBlockLoop_eq rpc params (Nat.zero_le maxRetries)
  have hlen : (sleepsBefore rpc params 0 k).length = k := by
    rw [sleepsBefore, List.length_map, List.length_range', Nat.sub_zero]
  rw [hloop]
  refine ⟨⟨k, hk, hlen⟩, fun i hi => ?_, fun i hi d => ⟨?_, exists_backoffWithJitter hi⟩, ?_,
    fun random => ?_⟩
  · have hlt : i < maxRetries := Nat.lt_of_lt_of_le (hlen ▸ hi) hk.bound
    refine ⟨hlt, ?_⟩
    simp only [sleepsBefore, List.getElem_map, List.getElem_range', Nat.zero_add, Nat.one_mul]
    exact backoffWithJitter_le hlt _
  · rintro ⟨random, rfl⟩
    exact backoffWithJitter_le hi random
  · have hsum := sum_sleepsBefore_le rpc params hk.bound
    have hpow : 2 ^ k ≤ 2 ^ maxRetries := Nat.pow_le_pow_right (by omega) hk.bound
    show (sleepsBefore rpc params 0 k).sum ≤ 6200
    unfold maxRetries baseDelayMs at *
    omega
  · have hsame : StopsAt { rpc with random } params 0 k :=
      ⟨hk.start, hk.bound, hk.before, hk.last⟩
    rw [getBlockWithParams_of_stopsAt hsame, getBlockWithParams_of_stopsAt hk]
    rfl

end Astralane
