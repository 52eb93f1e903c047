import YeetzS3.Sdk.Time

/-!
# The SDK client's retries

Rate limits, retry strategies, errors and the two retry loops of `yeetz-sdk-core`. What a request meets is given for each
attempt: how it ended, and the clock where the code reads it. A request is built the same way for every attempt and its body
serializes; elapsed times are left out.
-/

namespace YeetzS3.Sdk

/-! ### Headers -/

/-- `HeaderMap`: names are lower-case, and a name's first value comes first. -/
abbrev HeaderMap := List (Str × Bytes)

namespace HeaderMap

/-- `get`. -/
def get (headers : HeaderMap) (name : Str) : Option Bytes := (headers.find? fun h => h.1 = name).map Prod.snd

end HeaderMap

/-- `HeaderValue::to_str`: visible ASCII and tabs only. -/
def headerToStr (value : Bytes) : Option Str :=
  if value.all fun b => (32 ≤ b.toNat ∧ b.toNat < 127) ∨ b.toNat = 9 then some (value.map fun b => Char.ofNat b.toNat) else none

/-- `str::parse::<u64>`. -/
def parseU64 (s : Str) : Option UInt64 :=
  let digits := match s with
    | '+' :: rest => rest
    | _ => s
  if digits = [] ∨ digits.all Char.isDigit = false then none
  else if ofDecDigits digits < 2 ^ 64 then some (UInt64.ofNat (ofDecDigits digits))
  else none

/-! ### Rate limits -/

/-- What is not under the repository: `httpdate::parse_http_date`, and what the jitter makes of an attempt's delay. -/
structure Deps where
  parseHttpDate : Str → Option SystemTime
  jittered : UInt64 → Duration → Duration

/-- `RateLimitInfo`. -/
structure RateLimitInfo where
  resetAt : Option SystemTime
  retryAfter : Option Duration
  remaining : Option UInt64
deriving DecidableEq

/-- `RateLimitConfig`. -/
structure RateLimitConfig where
  enabled : Bool
  maxWait : Duration
  respectRetryAfter : Bool
deriving DecidableEq

/-- `RateLimitConfig::default`. -/
def RateLimitConfig.default : RateLimitConfig := ⟨true, .fromSecs 300, true⟩

variable (X : Deps)

/-- `parse_retry_after`: seconds, or a date that is still to come. -/
def parseRetryAfter (now : SystemTime) (headers : HeaderMap) : Option Duration := do
  let header ← (headers.get "retry-after".toList).bind headerToStr
  match parseU64 header with
  | some seconds => some (.fromSecs seconds)
  | none =>
    let date ← X.parseHttpDate header
    date.durationSince now

/-- The first timestamp among the reset headers. -/
def resetTimestamp (headers : HeaderMap) : Option UInt64 :=
  ["x-ratelimit-reset".toList, "ratelimit-reset".toList].findSome? fun name =>
    ((headers.get name).bind headerToStr).bind parseU64

/-- `parse_rate_limit_reset`. -/
def parseRateLimitReset (headers : HeaderMap) : Except Panic (Option SystemTime) :=
  match resetTimestamp headers with
  | some timestamp => (SystemTime.unixEpoch.add (.fromSecs timestamp)).map some
  | none => .ok none

/-- `parse_rate_limit_remaining`. -/
def parseRateLimitRemaining (headers : HeaderMap) : Option UInt64 :=
  ((headers.get "x-ratelimit-remaining".toList).bind headerToStr).bind parseU64

namespace RateLimitInfo

/-- `from_headers`. -/
def fromHeaders (now : SystemTime) (headers : HeaderMap) : Except Panic RateLimitInfo := do
  let resetAt ← parseRateLimitReset headers
  return ⟨resetAt, parseRetryAfter X now headers, parseRateLimitRemaining headers⟩

/-- `is_rate_limited`. -/
def isRateLimited (info : RateLimitInfo) : Bool := info.retryAfter.isSome || info.remaining = some 0

/-- `has_wait_hint`. -/
def hasWaitHint (info : RateLimitInfo) : Bool := info.retryAfter.isSome || info.resetAt.isSome

/-- `delay`. -/
def delay (now : SystemTime) (config : RateLimitConfig) (info : RateLimitInfo) : Option Duration :=
  if config.enabled = false then none
  else
    match if config.respectRetryAfter then info.retryAfter else none with
    | some delay => some (min delay config.maxWait)
    | none => do
      let resetAt ← info.resetAt
      let delay ← resetAt.durationSince now
      some (min delay config.maxWait)

end RateLimitInfo

/-! ### Errors -/

/-- `reqwest::Error`, as far as it is classified; `text` is the rest. -/
structure ReqwestError where
  isTimeout : Bool
  isConnect : Bool
  isBody : Bool
  isDecode : Bool
  text : Str
deriving DecidableEq

/-- `Error`. The text forms of a body and of headers are those of the bytes. -/
inductive Error where
  | connect (err : ReqwestError)
  | request (err : ReqwestError)
  | timeout (err : ReqwestError)
  | body (err : ReqwestError)
  | httpStatus (status : UInt16) (rawBody : Bytes) (headers : HeaderMap) (rateLimitInfo : Option RateLimitInfo)
  | deserializationFailed (rawResponse serdeError : Str) (status : UInt16) (headers : HeaderMap)
  | configuration (message : Str)
  | maxRetriesExceeded (attempts : UInt64) (lastError : Error)
  | serialization (message : Str)
  | invalidUrl (message : Str)

/-- `StatusCode::is_success`. -/
def isSuccess (status : UInt16) : Bool := 200 ≤ status.toNat && status.toNat < 300

/-- `StatusCode::is_server_error`. -/
def isServerError (status : UInt16) : Bool := 500 ≤ status.toNat && status.toNat < 600

namespace Error

/-- `from_reqwest`. -/
def fromReqwest (err : ReqwestError) : Error :=
  if err.isTimeout then .timeout err
  else if err.isConnect then .connect err
  else if err.isBody || err.isDecode then .body err
  else .request err

/-- `is_retryable`. -/
def isRetryable : Error → Bool
  | connect _ | request _ | timeout _ => true
  | httpStatus status _ _ _ => isServerError status || status = 429
  | body _ | deserializationFailed _ _ _ _ | configuration _ | maxRetriesExceeded _ _ | serialization _ | invalidUrl _ => false

/-- `rate_limit_info`. -/
def rateLimitInfo : Error → Option RateLimitInfo
  | httpStatus _ _ _ rateLimitInfo => rateLimitInfo
  | _ => none

/-- `rate_limit_delay`. -/
def rateLimitDelay (now : SystemTime) (config : RateLimitConfig) (error : Error) : Option Duration :=
  if config.enabled = false then none else error.rateLimitInfo.bind (RateLimitInfo.delay now config)

end Error

/-! ### Strategies -/

/-- `RetryStrategy`. -/
inductive RetryStrategy where
  | none
  | exponentialBackoff (initialDelay maxDelay : Duration) (maxRetries : UInt64) (jitter : Bool)
  | linear (delay : Duration) (maxRetries : UInt64)
  | custom (maxRetries : UInt64) (delayFn : UInt64 → Option Duration)

/-- `RetryPredicate::should_retry`. A loop asks once for each attempt, so that one with a state is one as well. -/
abbrev RetryPredicate := Error → UInt64 → Bool

/-- `RetryOnRetryable`. -/
def retryOnRetryable : RetryPredicate := fun error _ => error.isRetryable

namespace RetryStrategy

/-- `2u32.saturating_pow(attempt.saturating_sub(1) as u32)`. -/
def multiplier (attempt : UInt64) : UInt32 := UInt32.ofNat (min (2 ^ ((attempt.toNat - 1) % 2 ^ 32)) (2 ^ 32 - 1))

/-- `delay_for_attempt`. -/
def delayForAttempt (attempt : UInt64) : RetryStrategy → Option Duration
  | none => .none
  | exponentialBackoff initialDelay maxDelay maxRetries jitter =>
    if attempt > maxRetries then .none
    else
      let delay := min (initialDelay.saturatingMul (multiplier attempt)) maxDelay
      if jitter then some (X.jittered attempt delay) else some delay
  | linear delay maxRetries => if attempt ≤ maxRetries then some delay else .none
  | custom maxRetries delayFn => if attempt ≤ maxRetries then delayFn attempt else .none

/-- `max_retries`. -/
def maxRetries : RetryStrategy → Option UInt64
  | none => some 0
  | exponentialBackoff _ _ maxRetries _ | linear _ maxRetries => some maxRetries
  | custom maxRetries _ => some maxRetries

end RetryStrategy

/-! ### The client -/

/-- `Client`, as far as its loops read it. -/
structure Client where
  retryStrategy : RetryStrategy
  retryPredicate : RetryPredicate
  rateLimitConfig : RateLimitConfig

/-- A response whose body was not read. -/
structure HttpResponse where
  status : UInt16
  headers : HeaderMap
  bytes : Except ReqwestError Bytes
deriving DecidableEq

/-- What an attempt meets: how its request ends, the clock when its headers are parsed, and the clock when its wait is chosen. -/
structure Attempt where
  outcome : Except ReqwestError HttpResponse
  parsedAt : SystemTime
  waitAt : SystemTime

/-- `Response`. -/
structure Response (α : Type) where
  data : α
  rawBody : Bytes
  status : UInt16
  headers : HeaderMap
  attempts : UInt64

/-- `StartedResponse`. -/
structure StartedResponse where
  response : HttpResponse
  status : UInt16
  headers : HeaderMap
  attempts : UInt64

/-- What a turn of a retry loop comes to: the call returns, or it sleeps and goes on with the loop's variables. -/
inductive Turn (α : Type) where
  | returns (result : Except Error α)
  | sleeps (delay : Duration) (attempt : UInt64) (didRetry : Bool)

namespace Client

variable (C : Client)

/-- `execute_request`. -/
def executeRequest (now : Attempt) : Except Error HttpResponse := now.outcome.mapError .fromReqwest

/-- `http_status_error`. -/
def httpStatusError (now : SystemTime) (status : UInt16) (headers : HeaderMap) (body : Bytes) : Except Panic Error := do
  let rateLimitInfo ←
    if C.rateLimitConfig.enabled then do
      let info ← RateLimitInfo.fromHeaders X now headers
      .ok (if info.isRateLimited || (status = 429 && info.hasWaitHint) then some info else none)
    else .ok none
  return .httpStatus status body headers rateLimitInfo

/-- A body that cannot be read is empty: `unwrap_or_else(|_| Bytes::new())`. -/
def readOrEmpty (response : HttpResponse) : Bytes :=
  match response.bytes with
  | .ok body => body
  | .error _ => []

/-- `parse_bytes_response`. -/
def parseBytesResponse (now : SystemTime) (response : HttpResponse) (attempts : UInt64) :
    Except Panic (Except Error (Response Bytes)) := do
  if isSuccess response.status = false then
    let error ← C.httpStatusError X now response.status response.headers (readOrEmpty response)
    return .error error
  match response.bytes with
  | .ok body => return .ok ⟨body, body, response.status, response.headers, attempts⟩
  | .error err => return .error (.fromReqwest err)

/-- `accept_started_response`. -/
def acceptStartedResponse (now : SystemTime) (response : HttpResponse) (attempts : UInt64) :
    Except Panic (Except Error StartedResponse) := do
  if isSuccess response.status = false then
    let error ← C.httpStatusError X now response.status response.headers (readOrEmpty response)
    return .error error
  return .ok ⟨response, response.status, response.headers, attempts⟩

/-- The body of `retry_loop`'s loop. -/
def retryLoopTurn {α : Type} (parser : SystemTime → HttpResponse → UInt64 → Except Panic (Except Error α)) (attempt : UInt64)
    (didRetry : Bool) (now : Attempt) : Except Panic (Turn α) := do
  let attempt := attempt + 1
  let result ← match executeRequest now with
    | .ok response => parser now.parsedAt response attempt
    | .error error => .ok (.error error)
  match result with
  | .ok response => return .returns (.ok response)
  | .error error =>
    if C.retryPredicate error attempt = false then return .returns (.error error)
    match C.retryStrategy.delayForAttempt X attempt with
    | none =>
      if didRetry = false then return .returns (.error error)
      return .returns (.error (.maxRetriesExceeded attempt error))
    | some strategyDelay =>
      let delay := (error.rateLimitDelay now.waitAt C.rateLimitConfig).getD strategyDelay
      return .sleeps delay attempt true

/-- The body of `execute_started`'s loop. -/
def executeStartedTurn (attempt : UInt64) (didRetry : Bool) (now : Attempt) : Except Panic (Turn StartedResponse) := do
  let attempt := attempt + 1
  let result ← match executeRequest now with
    | .ok response => C.acceptStartedResponse X now.parsedAt response attempt
    | .error error => .ok (.error error)
  match result with
  | .ok response => return .returns (.ok response)
  | .error error =>
    if C.retryPredicate error attempt = false then return .returns (.error error)
    match C.retryStrategy.delayForAttempt X attempt with
    | none =>
      if didRetry = false then return .returns (.error error)
      return .returns (.error (.maxRetriesExceeded attempt error))
    | some strategyDelay =>
      let delay := (error.rateLimitDelay now.waitAt C.rateLimitConfig).getD strategyDelay
      return .sleeps delay attempt true

end Client

/-! ### The loops -/

/-- What a call does outside. -/
inductive Event where
  | request
  | wait (delay : Duration)
deriving DecidableEq

/-- How far a call came: `running` where the turns it was given did not suffice. -/
inductive Ending (α : Type) where
  | returned (result : Except Error α)
  | panicked (panic : Panic)
  | running

/-- A call, as seen from outside. -/
structure Run (α : Type) where
  events : List Event
  ending : Ending α

namespace Run

/-- The run after an earlier attempt. -/
def after {α : Type} (events : List Event) (run : Run α) : Run α := ⟨events ++ run.events, run.ending⟩

end Run

/-- `loop { … }` with the variables of the retry loops, for a number of turns; `sent` requests went out before. -/
def loopTurns {α : Type} (turn : UInt64 → Bool → Attempt → Except Panic (Turn α)) (net : ℕ → Attempt) :
    ℕ → ℕ → UInt64 → Bool → Run α
  | 0, _, _, _ => ⟨[], .running⟩
  | turns + 1, sent, attempt, didRetry =>
    match turn attempt didRetry (net sent) with
    | .error p => ⟨[.request], .panicked p⟩
    | .ok (.returns result) => ⟨[.request], .returned result⟩
    | .ok (.sleeps delay attempt didRetry) => (loopTurns turn net turns (sent + 1) attempt didRetry).after [.request, .wait delay]

namespace Client

variable (C : Client) (net : ℕ → Attempt) (turns : ℕ)

/-- `retry_loop`. -/
def retryLoop {α : Type} (parser : SystemTime → HttpResponse → UInt64 → Except Panic (Except Error α)) : Run α :=
  loopTurns (C.retryLoopTurn X parser) net turns 0 0 false

/-- `call_bytes`. -/
def callBytes : Run (Response Bytes) := C.retryLoop X net turns (C.parseBytesResponse X)

/-- `execute_started`. -/
def executeStarted : Run StartedResponse := loopTurns (C.executeStartedTurn X) net turns 0 0 false

end Client

end YeetzS3.Sdk
