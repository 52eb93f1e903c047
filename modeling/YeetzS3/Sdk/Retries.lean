import YeetzS3.Sdk.Client

/-!
# The retry loops are bounded

One rule carries every property of a retry loop: what holds of a call that was given no turns, of an attempt that ends it
and, if it holds from the next attempt on, of an attempt that is retried, holds of the call. The loop of `execute_started` is
`retry_loop` with another parser, so each property is proved once. A parser panics only where a reset timestamp reaches
the sign bit; a call that never reaches such a response meets every promise.
-/

namespace YeetzS3.Sdk

/-! ### What a call does -/

/-- The requests of a call. -/
def requests (events : List Event) : ℕ := events.count .request

/-- The waits of a call, in order. -/
def waits (events : List Event) : List Duration :=
  events.filterMap fun
    | .request => none
    | .wait delay => some delay

/-- A request, and for each wait another one after it. -/
def retried (delays : List Duration) : List Event := .request :: delays.flatMap fun delay => [.wait delay, .request]

section Retry

variable {delay : Duration} {events : List Event}

theorem requests_retry : requests (.request :: .wait delay :: events) = requests events + 1 := by
  rw [requests, List.count_cons_self, List.count_cons_of_ne (by simp)]
  rfl

theorem retried_retry {delays : List Duration} (h : events = retried delays) :
    .request :: .wait delay :: events = retried (delay :: delays) := by
  rw [h]
  rfl

end Retry

namespace RetryStrategy

variable {X : Deps} {strategy : RetryStrategy} {attempt : UInt64} {delay : Duration}

/-- A strategy has a delay for its first `max_retries` attempts at most. -/
theorem le_of_delayForAttempt (h : strategy.delayForAttempt X attempt = some delay) :
    ∀ n ∈ strategy.maxRetries, attempt ≤ n := by
  cases strategy with
  | none => cases h
  | exponentialBackoff initialDelay maxDelay maxRetries jitter =>
    rintro _ ⟨⟩
    rw [delayForAttempt] at h
    split at h
    · cases h
    · next hle => exact UInt64.not_lt.1 hle
  | linear delay maxRetries | custom maxRetries delayFn =>
    rintro _ ⟨⟩
    rw [delayForAttempt] at h
    split at h
    · next hle => exact hle
    · cases h

end RetryStrategy

/-- A wait chosen from rate limits is capped. -/
theorem rateLimitDelay_le {now : SystemTime} {config : RateLimitConfig} {error : Error} {delay : Duration}
    (h : error.rateLimitDelay now config = some delay) : delay ≤ config.maxWait := by
  unfold Error.rateLimitDelay at h
  split at h
  · cases h
  · obtain ⟨info, -, h⟩ := Option.bind_eq_some_iff.1 h
    unfold RateLimitInfo.delay at h
    split at h
    · cases h
    · split at h
      · cases h
        exact min_le_right _ _
      · obtain ⟨resetAt, -, h⟩ := Option.bind_eq_some_iff.1 h
        obtain ⟨d, -, h⟩ := Option.bind_eq_some_iff.1 h
        cases h
        exact min_le_right _ _

/-! ### One attempt -/

section

variable {α : Type} (X : Deps) (C : Client) (net : ℕ → Attempt)
  (parser : SystemTime → HttpResponse → UInt64 → Except Panic (Except Error α))

/-- What the attempt after `k` others comes to. -/
def attempted (k : ℕ) : Except Panic (Except Error α) :=
  match Client.executeRequest (net k) with
  | .ok response => parser (net k).parsedAt response (UInt64.ofNat (k + 1))
  | .error error => .ok (.error error)

/-- An attempt that is retried: it fails, the predicate accepts the error, and the strategy has a delay. -/
def GoesOn (k : ℕ) : Prop := ∃ error delay, attempted net parser k = .ok (.error error) ∧
  C.retryPredicate error (UInt64.ofNat (k + 1)) = true ∧
  C.retryStrategy.delayForAttempt X (UInt64.ofNat (k + 1)) = some delay

/-- The attempts before are all retried. -/
def Reached (k : ℕ) : Prop := ∀ j < k, GoesOn X C net parser j

/-- What a loop makes of an attempt. -/
inductive Turned (k : ℕ) : Except Panic (Turn α) → Prop
  | panics {p : Panic} (h : attempted net parser k = .error p) : Turned k (.error p)
  | succeeds {a : α} (h : attempted net parser k = .ok (.ok a)) : Turned k (.ok (.returns (.ok a)))
  | refused {error : Error} (h : attempted net parser k = .ok (.error error))
      (hp : C.retryPredicate error (UInt64.ofNat (k + 1)) = false) : Turned k (.ok (.returns (.error error)))
  | first {error : Error} (h : attempted net parser k = .ok (.error error))
      (hd : C.retryStrategy.delayForAttempt X (UInt64.ofNat (k + 1)) = none) (hk : k = 0) :
      Turned k (.ok (.returns (.error error)))
  | exhausted {error : Error} (h : attempted net parser k = .ok (.error error))
      (hp : C.retryPredicate error (UInt64.ofNat (k + 1)) = true)
      (hd : C.retryStrategy.delayForAttempt X (UInt64.ofNat (k + 1)) = none) (hk : 0 < k) :
      Turned k (.ok (.returns (.error (.maxRetriesExceeded (UInt64.ofNat (k + 1)) error))))
  | sleeps {error : Error} {delay : Duration} (h : attempted net parser k = .ok (.error error))
      (hp : C.retryPredicate error (UInt64.ofNat (k + 1)) = true)
      (hd : C.retryStrategy.delayForAttempt X (UInt64.ofNat (k + 1)) = some delay) :
      Turned k (.ok (.sleeps ((error.rateLimitDelay (net k).waitAt C.rateLimitConfig).getD delay) (UInt64.ofNat (k + 1)) true))

/-- The turn of an attempt with a result. -/
def turnOf (k : ℕ) (result : Except Panic (Except Error α)) : Except Panic (Turn α) := do
  match ← result with
  | .ok response => return .returns (.ok response)
  | .error error =>
    if C.retryPredicate error (UInt64.ofNat (k + 1)) = false then return .returns (.error error)
    match C.retryStrategy.delayForAttempt X (UInt64.ofNat (k + 1)) with
    | none =>
      if decide (0 < k) = false then return .returns (.error error)
      return .returns (.error (.maxRetriesExceeded (UInt64.ofNat (k + 1)) error))
    | some strategyDelay =>
      return .sleeps ((error.rateLimitDelay (net k).waitAt C.rateLimitConfig).getD strategyDelay) (UInt64.ofNat (k + 1)) true

/-- The loop from the attempt after `k` others on. -/
def loopFrom (turns k : ℕ) : Run α :=
  loopTurns (C.retryLoopTurn X parser) net turns k (UInt64.ofNat k) (decide (0 < k))

end

section Loop

variable {α : Type} {X : Deps} {C : Client} {net : ℕ → Attempt}
  {parser : SystemTime → HttpResponse → UInt64 → Except Panic (Except Error α)}

theorem ofNat_add_one (k : ℕ) : UInt64.ofNat k + 1 = UInt64.ofNat (k + 1) := (UInt64.ofNat_add k 1).symm

theorem retryLoopTurn_eq (k : ℕ) : C.retryLoopTurn X parser (UInt64.ofNat k) (decide (0 < k)) (net k) =
    turnOf X C net k (attempted net parser k) := by
  unfold Client.retryLoopTurn attempted turnOf
  dsimp only
  rw [ofNat_add_one]
  cases Client.executeRequest (net k) with
  | ok response => rfl
  | error error => rfl

theorem turned (k : ℕ) : Turned X C net parser k (turnOf X C net k (attempted net parser k)) := by
  cases ha : attempted net parser k with
  | error p => exact .panics ha
  | ok result =>
    cases result with
    | ok a => exact .succeeds ha
    | error error =>
      show Turned X C net parser k (if _ then _ else _)
      split
      · next hp => exact .refused ha hp
      · next hp =>
        rw [Bool.not_eq_false] at hp
        cases hd : C.retryStrategy.delayForAttempt X (UInt64.ofNat (k + 1)) with
        | none =>
          show Turned X C net parser k (if _ then _ else _)
          split
          · next hk =>
            rw [decide_eq_false_iff_not, Nat.not_lt, Nat.le_zero] at hk
            exact .first ha hd hk
          · next hk =>
            rw [Bool.not_eq_false, decide_eq_true_eq] at hk
            exact .exhausted ha hp hd hk
        | some delay => exact .sleeps ha hp hd

/-- The rule for retry loops, by induction on the turns. -/
theorem loopFrom_induct {P : ℕ → ℕ → Run α → Prop} (hzero : ∀ k, P 0 k ⟨[], .running⟩)
    (hpanics : ∀ turns k p, attempted net parser k = .error p → P (turns + 1) k ⟨[.request], .panicked p⟩)
    (hreturns : ∀ turns k result, Turned X C net parser k (.ok (.returns result)) →
      P (turns + 1) k ⟨[.request], .returned result⟩)
    (hsleeps : ∀ turns k error delay run, attempted net parser k = .ok (.error error) →
      C.retryPredicate error (UInt64.ofNat (k + 1)) = true →
      C.retryStrategy.delayForAttempt X (UInt64.ofNat (k + 1)) = some delay → P turns (k + 1) run →
      P (turns + 1) k (run.after
        [.request, .wait ((error.rateLimitDelay (net k).waitAt C.rateLimitConfig).getD delay)])) :
    ∀ turns k, P turns k (loopFrom X C net parser turns k) := by
  intro turns
  induction turns with
  | zero => exact hzero
  | succ turns ih =>
    intro k
    have ht : Turned X C net parser k (turnOf X C net k (attempted net parser k)) := turned k
    unfold loopFrom loopTurns
    rw [retryLoopTurn_eq]
    generalize turnOf X C net k (attempted net parser k) = t at ht
    cases ht with
    | panics h => exact hpanics turns k _ h
    | succeeds h => exact hreturns turns k _ (.succeeds h)
    | refused h hp => exact hreturns turns k _ (.refused h hp)
    | first h hd hk => exact hreturns turns k _ (.first h hd hk)
    | exhausted h hp hd hk => exact hreturns turns k _ (.exhausted h hp hd hk)
    | sleeps h hp hd => exact hsleeps turns k _ _ _ h hp hd (ih (k + 1))

/-! ### What every call keeps -/

/-- Past the retries there are, no attempt is retried. -/
theorem lt_of_delay {k : ℕ} {n : UInt64} {delay : Duration} (hn : n ∈ C.retryStrategy.maxRetries) (hmax : n.toNat + 1 < 2 ^ 64)
    (hk : k ≤ n.toNat) (hd : C.retryStrategy.delayForAttempt X (UInt64.ofNat (k + 1)) = some delay) : k + 1 ≤ n.toNat := by
  have hle : UInt64.ofNat (k + 1) ≤ n := RetryStrategy.le_of_delayForAttempt hd n hn
  rw [UInt64.le_iff_toNat_le, UInt64.toNat_ofNat_of_lt' (show k + 1 < 2 ^ 64 by omega)] at hle
  exact hle

theorem loopFrom_requests {n : UInt64} (hn : n ∈ C.retryStrategy.maxRetries) (hmax : n.toNat + 1 < 2 ^ 64) (turns k : ℕ)
    (hk : k ≤ n.toNat) : requests (loopFrom X C net parser turns k).events ≤ n.toNat + 1 - k := by
  refine loopFrom_induct (P := fun _ k run => k ≤ n.toNat → requests run.events ≤ n.toNat + 1 - k) ?_ ?_ ?_ ?_ turns k hk
  · intro k _
    exact Nat.zero_le _
  · intro _ k p _ hk
    exact Nat.le_sub_of_add_le (by rw [show requests [Event.request] = 1 from rfl]; omega)
  · intro _ k result _ hk
    exact Nat.le_sub_of_add_le (by rw [show requests [Event.request] = 1 from rfl]; omega)
  · intro _ k error delay run _ _ hd ih hk
    have hlt : k + 1 ≤ n.toNat := lt_of_delay hn hmax hk hd
    have hrun : requests run.events ≤ n.toNat + 1 - (k + 1) := ih hlt
    show requests (.request :: .wait _ :: run.events) ≤ _
    rw [requests_retry]
    omega

/-- Enough turns: one for each attempt there can be. -/
theorem loopFrom_ends {n : UInt64} (hn : n ∈ C.retryStrategy.maxRetries) (hmax : n.toNat + 1 < 2 ^ 64) (turns k : ℕ)
    (hk : k ≤ n.toNat) (ht : n.toNat + 1 ≤ turns + k) : (loopFrom X C net parser turns k).ending ≠ .running := by
  refine loopFrom_induct (P := fun turns k run => k ≤ n.toNat → n.toNat + 1 ≤ turns + k → run.ending ≠ .running) ?_ ?_ ?_ ?_
    turns k hk ht
  · intro k hk ht
    omega
  · rintro _ k p _ _ _ ⟨⟩
  · rintro _ k result _ _ _ ⟨⟩
  · intro turns k error delay run _ _ hd ih hk ht
    exact ih (lt_of_delay hn hmax hk hd) (by omega)

theorem loopFrom_waits (turns k i : ℕ) (d : Duration) (h : (waits (loopFrom X C net parser turns k).events)[i]? = some d) :
    ∃ s, C.retryStrategy.delayForAttempt X (UInt64.ofNat (k + i + 1)) = some s ∧ d ≤ max s C.rateLimitConfig.maxWait := by
  refine loopFrom_induct (P := fun _ k run => ∀ i, (waits run.events)[i]? = some d →
    ∃ s, C.retryStrategy.delayForAttempt X (UInt64.ofNat (k + i + 1)) = some s ∧ d ≤ max s C.rateLimitConfig.maxWait)
    ?_ ?_ ?_ ?_ turns k i h
  · intro k i h
    cases h
  · intro _ k p _ i h
    cases h
  · intro _ k result _ i h
    cases h
  · intro _ k error delay run _ _ hd ih i h
    replace h : (_ :: waits run.events)[i]? = some d := h
    cases i with
    | zero =>
      cases h
      refine ⟨delay, hd, ?_⟩
      cases hr : error.rateLimitDelay (net k).waitAt C.rateLimitConfig with
      | none => exact le_max_left _ _
      | some capped => exact (rateLimitDelay_le hr).trans (le_max_right _ _)
    | succ i =>
      obtain ⟨s, hs, hle⟩ := ih i h
      exact ⟨s, by rw [← hs, show k + (i + 1) + 1 = k + 1 + i + 1 by omega], hle⟩

theorem loopFrom_shape (turns k : ℕ) (h : (loopFrom X C net parser turns k).ending ≠ .running) :
    (loopFrom X C net parser turns k).events = retried (waits (loopFrom X C net parser turns k).events) := by
  refine loopFrom_induct (P := fun _ _ run => run.ending ≠ .running → run.events = retried (waits run.events)) ?_ ?_ ?_ ?_
    turns k h
  · exact fun _ h => absurd rfl h
  · exact fun _ _ _ _ _ => rfl
  · exact fun _ _ _ _ _ => rfl
  · exact fun _ _ _ _ _ _ _ _ ih h => retried_retry (ih h)

/-- A call whose attempts do not panic as far as they are reached does not panic. -/
theorem loopFrom_returns (hclear : ∀ k, Reached X C net parser k → ∀ p, attempted net parser k ≠ .error p) (turns k : ℕ)
    (hk : Reached X C net parser k) (p : Panic) : (loopFrom X C net parser turns k).ending ≠ .panicked p := by
  refine loopFrom_induct (P := fun _ k run => Reached X C net parser k → run.ending ≠ .panicked p) ?_ ?_ ?_ ?_ turns k hk
  · rintro k _ ⟨⟩
  · intro _ k p' h hk
    exact absurd h (hclear k hk p')
  · rintro _ k result _ _ ⟨⟩
  · intro _ k error delay run h hp hd ih hk
    refine ih fun j hj => ?_
    rcases Nat.lt_succ_iff_lt_or_eq.1 hj with hlt | rfl
    · exact hk j hlt
    · exact ⟨error, delay, h, hp, hd⟩

/-- A call that reaches an attempt that panics panics there. -/
theorem loopFrom_panics {m : ℕ} {p : Panic} (hm : Reached X C net parser m) (hp : attempted net parser m = .error p) (turns k : ℕ)
    (hk : k ≤ m) (ht : m < turns + k) : ∃ p, (loopFrom X C net parser turns k).ending = .panicked p := by
  refine loopFrom_induct (P := fun turns k run => k ≤ m → m < turns + k → ∃ p, run.ending = .panicked p) ?_ ?_ ?_ ?_
    turns k hk ht
  · intro k hk ht
    omega
  · exact fun _ _ p _ _ _ => ⟨p, rfl⟩
  · intro turns k result hturned hk _
    rcases Nat.lt_or_eq_of_le hk with hlt | rfl
    · -- an attempt before is retried
      obtain ⟨error, delay, ha, hpred, hd⟩ := hm k hlt
      cases hturned with
      | succeeds h => rw [ha] at h; cases h
      | refused h hp' =>
        rw [ha] at h
        cases h
        rw [hpred] at hp'
        cases hp'
      | first h hd' hk => rw [hd] at hd'; cases hd'
      | exhausted h hp' hd' hk => rw [hd] at hd'; cases hd'
    · cases hturned with
      | succeeds h => rw [hp] at h; cases h
      | refused h hp' => rw [hp] at h; cases h
      | first h hd' hk => rw [hp] at h; cases h
      | exhausted h hp' hd' hk => rw [hp] at h; cases h
  · intro turns k error delay run ha _ _ ih hk ht
    rcases Nat.lt_or_eq_of_le hk with hlt | rfl
    · exact ih hlt (by omega)
    · rw [hp] at ha
      cases ha

/-- `MaxRetriesExceeded` is returned after the last of at least two attempts, when the strategy has no further delay. -/
theorem loopFrom_exceeded (hplain : ∀ k a e, attempted net parser k ≠ .ok (.error (.maxRetriesExceeded a e))) (turns k : ℕ)
    (result : Except Error α) (a : UInt64) (e : Error) (h : (loopFrom X C net parser turns k).ending = .returned result) :
    result = .error (.maxRetriesExceeded a e) ↔ ∃ n, n + 1 = k + requests (loopFrom X C net parser turns k).events ∧ 0 < n ∧
      a = UInt64.ofNat (n + 1) ∧ attempted net parser n = .ok (.error e) ∧ C.retryPredicate e a = true ∧
      C.retryStrategy.delayForAttempt X a = none := by
  refine loopFrom_induct (P := fun _ k run => run.ending = .returned result → (result = .error (.maxRetriesExceeded a e) ↔
    ∃ n, n + 1 = k + requests run.events ∧ 0 < n ∧ a = UInt64.ofNat (n + 1) ∧ attempted net parser n = .ok (.error e) ∧
      C.retryPredicate e a = true ∧ C.retryStrategy.delayForAttempt X a = none)) ?_ ?_ ?_ ?_ turns k h
  · rintro k ⟨⟩
  · rintro _ k p _ ⟨⟩
  · rintro _ k _ hturned ⟨⟩
    clear h
    constructor
    · rintro rfl
      cases hturned with
      | refused h hp => exact absurd h (hplain k a e)
      | first h hd hk => exact absurd h (hplain k a e)
      | exhausted h hp hd hk => exact ⟨k, rfl, hk, rfl, h, hp, hd⟩
    · rintro ⟨n, hn, hpos, ha, hfail, hpred, hdelay⟩
      obtain rfl : n = k := Nat.succ.inj hn
      cases hturned with
      | succeeds h => rw [hfail] at h; cases h
      | refused h hp =>
        rw [hfail] at h
        cases h
        rw [ha, hp] at hpred
        cases hpred
      | first h hd hk => omega
      | exhausted h hp hd hk =>
        rw [hfail] at h
        cases h
        rw [ha]
  · intro _ k error delay run _ _ _ ih h
    have hcount : requests (run.after [.request, .wait ((error.rateLimitDelay (net k).waitAt C.rateLimitConfig).getD delay)]).events =
        requests run.events + 1 := requests_retry
    rw [ih h, hcount, show k + 1 + requests run.events = k + (requests run.events + 1) by omega]

end Loop

/-! ### The two parsers -/

section

variable (C : Client)

/-- A response the code panics on: it failed, rate limits are read, and its reset timestamp has the sign bit. -/
def Overflows (now : Attempt) : Prop := C.rateLimitConfig.enabled = true ∧ ∃ response timestamp, now.outcome = .ok response ∧
  isSuccess response.status = false ∧ resetTimestamp response.headers = some timestamp ∧ 2 ^ 63 ≤ timestamp.toNat

end

section Parsers

variable {α : Type} {X : Deps} {C : Client} {net : ℕ → Attempt}

theorem parseRateLimitReset_panics {headers : HeaderMap} {p : Panic} : parseRateLimitReset headers = .error p ↔
    ∃ timestamp, resetTimestamp headers = some timestamp ∧ 2 ^ 63 ≤ timestamp.toNat := by
  unfold parseRateLimitReset
  cases resetTimestamp headers with
  | none => exact iff_of_false nofun (by rintro ⟨_, ⟨⟩, _⟩)
  | some timestamp =>
    have hiff : SystemTime.unixEpoch.add (.fromSecs timestamp) = .error p ↔ 2 ^ 63 ≤ timestamp.toNat := SystemTime.add_fromSecs_panics
    dsimp only
    generalize SystemTime.unixEpoch.add (.fromSecs timestamp) = t at hiff
    constructor
    · intro h
      refine ⟨timestamp, rfl, hiff.1 ?_⟩
      cases t with
      | ok t => cases h
      | error p' => exact congrArg _ (Except.error.inj h)
    · rintro ⟨_, ⟨⟩, h⟩
      rw [hiff.2 h]
      rfl

theorem fromHeaders_panics {now : SystemTime} {headers : HeaderMap} {p : Panic} :
    RateLimitInfo.fromHeaders X now headers = .error p ↔
      ∃ timestamp, resetTimestamp headers = some timestamp ∧ 2 ^ 63 ≤ timestamp.toNat := by
  rw [← @parseRateLimitReset_panics headers p]
  unfold RateLimitInfo.fromHeaders
  cases parseRateLimitReset headers with
  | ok resetAt => exact iff_of_false nofun nofun
  | error p' => cases p'; cases p; exact iff_of_true rfl rfl

theorem httpStatusError_panics {now : SystemTime} {status : UInt16} {headers : HeaderMap} {body : Bytes} {p : Panic} :
    C.httpStatusError X now status headers body = .error p ↔ C.rateLimitConfig.enabled = true ∧
      ∃ timestamp, resetTimestamp headers = some timestamp ∧ 2 ^ 63 ≤ timestamp.toNat := by
  rw [← @fromHeaders_panics X now headers p]
  unfold Client.httpStatusError
  cases C.rateLimitConfig.enabled with
  | false => exact iff_of_false nofun (by rintro ⟨⟨⟩, _⟩)
  | true =>
    cases hinfo : RateLimitInfo.fromHeaders X now headers with
    | ok info => exact iff_of_false nofun (by rintro ⟨_, ⟨⟩⟩)
    | error p' => cases p'; cases p; exact iff_of_true rfl ⟨rfl, rfl⟩

/-- The error of a response is its status, never an exhausted call. -/
theorem httpStatusError_ok {now : SystemTime} {status : UInt16} {headers : HeaderMap} {body : Bytes} {error : Error}
    (h : C.httpStatusError X now status headers body = .ok error) : ∃ info, error = .httpStatus status body headers info := by
  unfold Client.httpStatusError at h
  cases he : C.rateLimitConfig.enabled with
  | false =>
    rw [he] at h
    cases h
    exact ⟨none, rfl⟩
  | true =>
    rw [he] at h
    cases hinfo : RateLimitInfo.fromHeaders X now headers with
    | error p =>
      rw [hinfo] at h
      cases h
    | ok info =>
      rw [hinfo] at h
      cases h
      exact ⟨_, rfl⟩

theorem fromReqwest_ne {err : ReqwestError} {a : UInt64} {e : Error} : Error.fromReqwest err ≠ .maxRetriesExceeded a e := by
  unfold Error.fromReqwest
  split
  · nofun
  · split
    · nofun
    · split
      · nofun
      · nofun

/-- What the loops use of a parser: it panics where a failed response overflows, and never returns an exhausted call. -/
structure Parses (X : Deps) (C : Client) (parser : SystemTime → HttpResponse → UInt64 → Except Panic (Except Error α)) : Prop where
  panics : ∀ now response attempts p, parser now response attempts = .error p ↔ C.rateLimitConfig.enabled = true ∧
    ∃ timestamp, isSuccess response.status = false ∧ resetTimestamp response.headers = some timestamp ∧ 2 ^ 63 ≤ timestamp.toNat
  plain : ∀ now response attempts a e, parser now response attempts ≠ .ok (.error (.maxRetriesExceeded a e))

/-- A parser that hands a failed response to `http_status_error`. -/
theorem Parses.of_failed {parser : SystemTime → HttpResponse → UInt64 → Except Panic (Except Error α)}
    (hfailed : ∀ now response attempts, isSuccess response.status = false → parser now response attempts =
      (C.httpStatusError X now response.status response.headers (Client.readOrEmpty response)).map .error)
    (hok : ∀ now response attempts, isSuccess response.status = true → ∃ result, parser now response attempts = .ok result ∧
      ∀ a e, result ≠ .error (.maxRetriesExceeded a e)) : Parses X C parser := by
  constructor
  · intro now response attempts p
    cases hs : isSuccess response.status with
    | true =>
      obtain ⟨result, hr, -⟩ := hok now response attempts hs
      rw [hr]
      exact iff_of_false nofun (by rintro ⟨_, _, ⟨⟩, _⟩)
    | false =>
      have hiff : C.httpStatusError X now response.status response.headers (Client.readOrEmpty response) = .error p ↔ _ :=
        httpStatusError_panics
      rw [hfailed now response attempts hs]
      simp only [true_and]
      rw [← hiff]
      cases C.httpStatusError X now response.status response.headers (Client.readOrEmpty response) with
      | ok error => exact iff_of_false nofun nofun
      | error p' => cases p'; cases p; exact iff_of_true rfl rfl
  · intro now response attempts a e h
    cases hs : isSuccess response.status with
    | true =>
      obtain ⟨result, hr, hne⟩ := hok now response attempts hs
      rw [hr] at h
      exact hne a e (Except.ok.inj h)
    | false =>
      rw [hfailed now response attempts hs] at h
      cases he : C.httpStatusError X now response.status response.headers (Client.readOrEmpty response) with
      | error p =>
        rw [he] at h
        cases h
      | ok error =>
        obtain ⟨info, rfl⟩ := httpStatusError_ok he
        rw [he] at h
        cases h

theorem parses_parseBytesResponse : Parses X C (C.parseBytesResponse X) := by
  refine .of_failed (fun now response attempts hs => ?_) fun now response attempts hs => ?_
  · unfold Client.parseBytesResponse
    rw [hs, if_pos rfl]
    cases C.httpStatusError X now response.status response.headers (Client.readOrEmpty response) with
    | ok error => rfl
    | error p => rfl
  · unfold Client.parseBytesResponse
    rw [hs, if_neg nofun]
    cases response.bytes with
    | ok body => exact ⟨_, rfl, nofun⟩
    | error err => exact ⟨_, rfl, fun a e h => fromReqwest_ne (Except.error.inj h)⟩

theorem parses_acceptStartedResponse : Parses X C (C.acceptStartedResponse X) := by
  refine .of_failed (fun now response attempts hs => ?_) fun now response attempts hs => ?_
  · unfold Client.acceptStartedResponse
    rw [hs, if_pos rfl]
    cases C.httpStatusError X now response.status response.headers (Client.readOrEmpty response) with
    | ok error => rfl
    | error p => rfl
  · unfold Client.acceptStartedResponse
    rw [hs, if_neg nofun]
    exact ⟨_, rfl, nofun⟩

variable {parser : SystemTime → HttpResponse → UInt64 → Except Panic (Except Error α)}

/-- An attempt panics exactly on an overflowing response. -/
theorem attempted_panics (h : Parses X C parser) {k : ℕ} : (∃ p, attempted net parser k = .error p) ↔ Overflows C (net k) := by
  unfold attempted Client.executeRequest Overflows
  cases (net k).outcome with
  | error err => exact iff_of_false (by rintro ⟨_, ⟨⟩⟩) (by rintro ⟨_, _, _, ⟨⟩, _⟩)
  | ok response =>
    show (∃ p, parser (net k).parsedAt response (UInt64.ofNat (k + 1)) = .error p) ↔ _
    simp only [h.panics]
    constructor
    · rintro ⟨-, he, timestamp, hs, ht, hbig⟩
      exact ⟨he, response, timestamp, rfl, hs, ht, hbig⟩
    · rintro ⟨he, _, timestamp, ⟨⟩, hs, ht, hbig⟩
      exact ⟨.instantOverflow, he, timestamp, hs, ht, hbig⟩

theorem attempted_plain (h : Parses X C parser) (k : ℕ) (a : UInt64) (e : Error) :
    attempted net parser k ≠ .ok (.error (.maxRetriesExceeded a e)) := by
  unfold attempted Client.executeRequest
  cases (net k).outcome with
  | error err => exact fun h => fromReqwest_ne (Except.error.inj (Except.ok.inj h))
  | ok response => exact h.plain _ _ _ a e

/-! ### The two loops agree -/

/-- Results with the same panic or the same error, or with none. -/
inductive Alike {β : Type} : Except Panic (Except Error α) → Except Panic (Except Error β) → Prop
  | panics (p : Panic) : Alike (.error p) (.error p)
  | fails (error : Error) : Alike (.ok (.error error)) (.ok (.error error))
  | succeeds (a : α) (b : β) : Alike (.ok (.ok a)) (.ok (.ok b))

/-- The loop that was copied by hand is the other one. -/
theorem executeStarted_eq : C.executeStarted X net = fun turns => C.retryLoop X net turns (C.acceptStartedResponse X) := by
  have hturn : C.executeStartedTurn X = C.retryLoopTurn X (C.acceptStartedResponse X) := by
    funext attempt didRetry now
    unfold Client.executeStartedTurn Client.retryLoopTurn
    cases Client.executeRequest now with
    | ok response =>
      refine congrArg (Client.acceptStartedResponse X C now.parsedAt response (attempt + 1) >>= ·) (funext fun result => ?_)
      cases result with
      | ok started => rfl
      | error error => dsimp only
    | error error =>
      show ite _ _ _ = ite _ _ _
      cases C.retryStrategy.delayForAttempt X (attempt + 1) with
      | none => rfl
      | some delay => rfl
  funext turns
  unfold Client.executeStarted Client.retryLoop
  rw [hturn]

theorem turnOf_failed {k : ℕ} {error : Error} : turnOf X C net k (.ok (.error error) : Except Panic (Except Error α)) =
    if C.retryPredicate error (UInt64.ofNat (k + 1)) = false then .ok (.returns (.error error))
    else match C.retryStrategy.delayForAttempt X (UInt64.ofNat (k + 1)) with
      | none => if decide (0 < k) = false then .ok (.returns (.error error))
        else .ok (.returns (.error (.maxRetriesExceeded (UInt64.ofNat (k + 1)) error)))
      | some delay => .ok (.sleeps ((error.rateLimitDelay (net k).waitAt C.rateLimitConfig).getD delay) (UInt64.ofNat (k + 1)) true) :=
  rfl

theorem loopFrom_events {β : Type} {parser' : SystemTime → HttpResponse → UInt64 → Except Panic (Except Error β)}
    (h : ∀ k, Alike (attempted net parser k) (attempted net parser' k)) (turns k : ℕ) :
    (loopFrom X C net parser turns k).events = (loopFrom X C net parser' turns k).events := by
  induction turns generalizing k with
  | zero => rfl
  | succ turns ih =>
    have hk : Alike (attempted net parser k) (attempted net parser' k) := h k
    unfold loopFrom loopTurns
    rw [retryLoopTurn_eq, retryLoopTurn_eq]
    generalize attempted net parser k = x at hk
    generalize attempted net parser' k = y at hk
    cases hk with
    | panics p => rfl
    | succeeds a b => rfl
    | fails error =>
      rw [turnOf_failed, turnOf_failed]
      cases C.retryPredicate error (UInt64.ofNat (k + 1)) with
      | false => rfl
      | true =>
        cases C.retryStrategy.delayForAttempt X (UInt64.ofNat (k + 1)) with
        | none =>
          cases decide (0 < k) with
          | false => rfl
          | true => rfl
        | some delay =>
          exact congrArg ([.request, .wait ((error.rateLimitDelay (net k).waitAt C.rateLimitConfig).getD delay)] ++ ·) (ih (k + 1))

/-- With a readable body a success is a success to both parsers, and failures are the same. -/
theorem attempted_alike (hread : ∀ k response, (net k).outcome = .ok response → ∃ body, response.bytes = .ok body) (k : ℕ) :
    Alike (attempted net (C.acceptStartedResponse X) k) (attempted net (C.parseBytesResponse X) k) := by
  unfold attempted Client.executeRequest
  cases ho : (net k).outcome with
  | error err => exact .fails _
  | ok response =>
    obtain ⟨body, hbody⟩ := hread k response ho
    show Alike (C.acceptStartedResponse X (net k).parsedAt response (UInt64.ofNat (k + 1)))
      (C.parseBytesResponse X (net k).parsedAt response (UInt64.ofNat (k + 1)))
    unfold Client.acceptStartedResponse Client.parseBytesResponse
    cases isSuccess response.status with
    | true =>
      rw [if_neg nofun, if_neg nofun, hbody]
      exact .succeeds _ _
    | false =>
      rw [if_pos rfl, if_pos rfl]
      cases C.httpStatusError X (net k).parsedAt response.status response.headers (Client.readOrEmpty response) with
      | ok error => exact .fails error
      | error p => exact .panics p

end Parsers

/-! ### The promises of a call -/

section

variable {α : Type} (X : Deps) (C : Client) (net : ℕ → Attempt)

/-- What a call promises, its attempts coming to `results`: it returns without a panic after at most `max_retries + 1`
requests, waits once before each retry, no longer than the strategy and the cap allow, and says that its retries are
exhausted exactly when they are. -/
structure Bounded (results : ℕ → Except Panic (Except Error α)) (call : ℕ → Run α) : Prop where
  returns : ∃ turns result, (call turns).ending = .returned result
  never_panics : ∀ turns p, (call turns).ending ≠ .panicked p
  requests_le : ∀ turns, ∀ n ∈ C.retryStrategy.maxRetries, requests (call turns).events ≤ n.toNat + 1
  alternates : ∀ turns result, (call turns).ending = .returned result →
    (call turns).events = retried (waits (call turns).events)
  waits_le : ∀ turns i delay, (waits (call turns).events)[i]? = some delay →
    ∃ s, C.retryStrategy.delayForAttempt X (UInt64.ofNat (i + 1)) = some s ∧ delay ≤ max s C.rateLimitConfig.maxWait
  exceeded_iff : ∀ turns result, (call turns).ending = .returned result → ∀ attempts error,
    result = .error (.maxRetriesExceeded attempts error) ↔ attempts.toNat = requests (call turns).events ∧
      2 ≤ attempts.toNat ∧ results (attempts.toNat - 1) = .ok (.error error) ∧ C.retryPredicate error attempts = true ∧
      C.retryStrategy.delayForAttempt X attempts = none

/-- Both calls keep their promises, and do the same where bodies are readable. -/
structure RetryLaw : Prop where
  started : Bounded X C (attempted net (C.acceptStartedResponse X)) (C.executeStarted X net)
  bytes : Bounded X C (attempted net (C.parseBytesResponse X)) (C.callBytes X net)
  agree : (∀ k response, (net k).outcome = .ok response → ∃ body, response.bytes = .ok body) →
    ∀ turns, (C.executeStarted X net turns).events = (C.callBytes X net turns).events

/-- No response that a call reaches overflows. -/
def Clear (parser : SystemTime → HttpResponse → UInt64 → Except Panic (Except Error α)) : Prop :=
  ∀ k, Reached X C net parser k → ¬ Overflows C (net k)

end

section Promises

variable {α : Type} {X : Deps} {C : Client} {net : ℕ → Attempt}
  {parser : SystemTime → HttpResponse → UInt64 → Except Panic (Except Error α)}

theorem maxRetries_some (strategy : RetryStrategy) : ∃ n, n ∈ strategy.maxRetries := by
  cases strategy with
  | none => exact ⟨_, rfl⟩
  | exponentialBackoff _ _ maxRetries _ | linear _ maxRetries | custom maxRetries _ => exact ⟨maxRetries, rfl⟩

theorem bounded_iff (hparse : Parses X C parser) (hmax : ∀ n ∈ C.retryStrategy.maxRetries, n.toNat + 1 < 2 ^ 64) :
    Bounded X C (attempted net parser) (C.retryLoop X net · parser) ↔ Clear X C net parser := by
  obtain ⟨n, hn⟩ := maxRetries_some C.retryStrategy
  have hzero : Reached X C net parser 0 := nofun
  constructor
  · intro h k hk hover
    obtain ⟨p, hp⟩ := (attempted_panics hparse).2 hover
    obtain ⟨p', hp'⟩ := loopFrom_panics hk hp (k + 1) 0 (Nat.zero_le k) (Nat.lt_succ_self k)
    exact h.never_panics _ _ hp'
  · intro hclear
    have hreturns : ∀ turns p, (loopFrom X C net parser turns 0).ending ≠ .panicked p := fun turns =>
      loopFrom_returns (fun k hk p hp => hclear k hk ((attempted_panics hparse).1 ⟨p, hp⟩)) turns 0 hzero
    have hrequests : ∀ turns, requests (loopFrom X C net parser turns 0).events ≤ n.toNat + 1 := fun turns =>
      loopFrom_requests hn (hmax n hn) turns 0 (Nat.zero_le _)
    refine ⟨?_, hreturns, ?_, ?_, ?_, ?_⟩
    · have hends : (loopFrom X C net parser (n.toNat + 1) 0).ending ≠ .running :=
        loopFrom_ends hn (hmax n hn) _ 0 (Nat.zero_le _) (Nat.le_refl _)
      refine ⟨n.toNat + 1, ?_⟩
      cases he : (loopFrom X C net parser (n.toNat + 1) 0).ending with
      | returned result => exact ⟨result, he⟩
      | panicked p => exact absurd he (hreturns _ p)
      | running => exact absurd he hends
    · intro turns m hm
      obtain rfl : m = n := Option.some.inj (hm.symm.trans hn)
      exact hrequests turns
    · intro turns result h
      exact loopFrom_shape turns 0 fun hrun => nomatch h.symm.trans hrun
    · intro turns i delay h
      have hw := loopFrom_waits turns 0 i delay h
      rwa [Nat.zero_add] at hw
    · intro turns result h attempts error
      have hiff := loopFrom_exceeded (attempted_plain hparse) turns 0 result attempts error h
      have hle := hrequests turns
      have hlt := hmax n hn
      rw [Nat.zero_add] at hiff
      refine hiff.trans ⟨?_, ?_⟩
      · rintro ⟨m, hm, hpos, rfl, hfail, hpred, hdelay⟩
        have hto : (UInt64.ofNat (m + 1)).toNat = m + 1 := UInt64.toNat_ofNat_of_lt' (show m + 1 < 2 ^ 64 by omega)
        rw [hto]
        exact ⟨hm, by omega, hfail, hpred, hdelay⟩
      · rintro ⟨hm, hpos, hfail, hpred, hdelay⟩
        refine ⟨attempts.toNat - 1, ?_, by omega, ?_, hfail, hpred, hdelay⟩
        · exact (Nat.sub_add_cancel (by omega)).trans hm
        · rw [Nat.sub_add_cancel (by omega), UInt64.ofNat_toNat]

/-- The calls keep their promises exactly when no response they reach carries a reset timestamp with the sign bit. -/
theorem retries_bounded_iff (hmax : ∀ n ∈ C.retryStrategy.maxRetries, n.toNat + 1 < 2 ^ 64) :
    RetryLaw X C net ↔ Clear X C net (C.acceptStartedResponse X) ∧ Clear X C net (C.parseBytesResponse X) := by
  have hstarted : Bounded X C (attempted net (C.acceptStartedResponse X)) (C.executeStarted X net) ↔
      Clear X C net (C.acceptStartedResponse X) := by
    rw [executeStarted_eq]
    exact bounded_iff parses_acceptStartedResponse hmax
  have hbytes : Bounded X C (attempted net (C.parseBytesResponse X)) (C.callBytes X net) ↔ Clear X C net (C.parseBytesResponse X) :=
    bounded_iff parses_parseBytesResponse hmax
  refine ⟨fun h => ⟨hstarted.1 h.started, hbytes.1 h.bytes⟩, fun ⟨hs, hb⟩ => ⟨hstarted.2 hs, hbytes.2 hb, ?_⟩⟩
  intro hread turns
  rw [executeStarted_eq]
  exact loopFrom_events (attempted_alike hread) turns 0

end Promises

/-! ### A reset timestamp with the sign bit -/

/-- Neither dates nor jitter. -/
def plainDeps : Deps := ⟨fun _ => none, fun _ delay => delay⟩

/-- The default client with one retry after a second. -/
def onceMore : Client := ⟨.linear (.fromSecs 1) 1, retryOnRetryable, .default⟩

/-- Every request is answered the same, at the epoch. -/
def answering (status : UInt16) (headers : HeaderMap) : ℕ → Attempt := fun _ =>
  ⟨.ok ⟨status, headers, .ok []⟩, .unixEpoch, .unixEpoch⟩

/-- A service that is unavailable, without a word on rate limits. -/
theorem retries_bounded_iff_unavailable : RetryLaw plainDeps onceMore (answering 503 []) := by
  have hclear : ∀ k, ¬ Overflows onceMore (answering 503 [] k) := by
    rintro k ⟨-, response, timestamp, ho, -, ht, -⟩
    cases ho
    cases ht
  refine (retries_bounded_iff ?_).2 ⟨fun k _ => hclear k, fun k _ => hclear k⟩
  rintro _ ⟨⟩
  decide

/-- `x-ratelimit-reset: 9223372036854775808` on a 429. -/
def signBit : HeaderMap := [("x-ratelimit-reset".toList, "9223372036854775808".toList.map fun c => UInt8.ofNat c.toNat)]

theorem panics_on_signBit : ¬ RetryLaw plainDeps onceMore (answering 429 signBit) := by
  intro h
  have hover : Overflows onceMore (answering 429 signBit 0) :=
    ⟨rfl, ⟨429, signBit, .ok []⟩, 9223372036854775808, rfl, rfl, by decide +kernel, by decide⟩
  obtain ⟨p, hp⟩ := (attempted_panics (@parses_parseBytesResponse plainDeps onceMore)).2 hover
  have hfirst : Reached plainDeps onceMore (answering 429 signBit) (onceMore.parseBytesResponse plainDeps) 0 := nofun
  obtain ⟨p', hp'⟩ := loopFrom_panics hfirst hp 1 0 (Nat.le_refl 0) Nat.one_pos
  exact h.bytes.never_panics _ _ hp'

end YeetzS3.Sdk
