import Nyarix.Api.FileAccess
import Nyarix.Lib.TokenBucket

/-! The rate limit on a module's I/O: its checks of files, network destinations and host names draw on
one token bucket. -/

namespace Nyarix

structure NetworkPolicy where
  allowed : List (String × Option (BitVec 16))

namespace NetworkPolicy

def denyAll : NetworkPolicy := ⟨[]⟩

def allowHost (policy : NetworkPolicy) (host : String) : NetworkPolicy := ⟨policy.allowed ++ [(host, none)]⟩

def allowHostPort (policy : NetworkPolicy) (host : String) (port : BitVec 16) : NetworkPolicy :=
  ⟨policy.allowed ++ [(host, some port)]⟩

def allows (policy : NetworkPolicy) (host : String) (port : BitVec 16) : Bool :=
  policy.allowed.any fun (allowedHost, allowedPort) => allowedHost == host && allowedPort.all (· == port)

def allowsHost (policy : NetworkPolicy) (host : String) : Bool :=
  policy.allowed.any fun (allowedHost, _) => allowedHost == host

end NetworkPolicy

structure IoContext extends RuntimeContext where
  networkPolicy : NetworkPolicy

inductive IoTarget where
  | file (path : UnixPath)
  | network (host : String) (port : BitVec 16)
  | dns (host : String)

def IoTarget.capability : IoTarget → Capability
  | .file _ => .filesystem
  | .network _ _ => .network
  | .dns _ => .dns

structure IoCall where
  now : Instant
  metadata : ModuleMetadata
  target : IoTarget

namespace IoContext

def checkAccess (ctx : IoContext) (now : Instant) (metadata : ModuleMetadata) (capability : Capability) (allowed : Bool)
    (violation : String) : Except SecurityError Unit × IoContext :=
  match ctx.requestCapability metadata capability with
  | .error e => (.error e, ctx)
  | .ok () =>
    match ctx.checkRateLimit now metadata with
    | (.error e, inner) => (.error e, { ctx with toRuntimeContext := inner })
    | (.ok (), inner) =>
      if allowed then (.ok (), { ctx with toRuntimeContext := inner })
      else (.error (.sandboxViolation metadata.name violation), { ctx with toRuntimeContext := inner })

def checkNetworkAccess (ctx : IoContext) (now : Instant) (metadata : ModuleMetadata) (host : String) (port : BitVec 16) :
    Except SecurityError Unit × IoContext :=
  ctx.checkAccess now metadata .network (ctx.networkPolicy.allows host port)
    s!"network access to {host}:{port.toNat} is not whitelisted"

def checkDnsResolve (ctx : IoContext) (now : Instant) (metadata : ModuleMetadata) (host : String) :
    Except SecurityError Unit × IoContext :=
  ctx.checkAccess now metadata .dns (ctx.networkPolicy.allowsHost host) s!"DNS resolution of {host} is not whitelisted"

def check (ctx : IoContext) (call : IoCall) : Except SecurityError Unit × IoContext :=
  match call.target with
  | .file path =>
    let (result, inner) := ctx.toRuntimeContext.checkFileAccess call.now call.metadata path
    (result, { ctx with toRuntimeContext := inner })
  | .network host port => ctx.checkNetworkAccess call.now call.metadata host port
  | .dns host => ctx.checkDnsResolve call.now call.metadata host

/-- What `try_acquire` returns to the call, if the call comes that far and there is a limiter. -/
def acquired (ctx : IoContext) (call : IoCall) : Option Bool :=
  if ctx.grantedCapabilities.has call.target.capability then
    ctx.ioRateLimiter.map fun limiter => (limiter.tryAcquire call.now).1
  else none

end IoContext

structure IoEntry where
  call : IoCall
  acquired : Option Bool
  result : Except SecurityError Unit

namespace IoContext

def run (ctx : IoContext) : List IoCall → List IoEntry
  | [] => []
  | call :: calls => ⟨call, ctx.acquired call, (ctx.check call).1⟩ :: run (ctx.check call).2 calls

def after (ctx : IoContext) (calls : List IoCall) : IoContext := calls.foldl (fun ctx call => (ctx.check call).2) ctx

def listed (ctx : IoContext) : IoTarget → Bool × String
  | .file path => (ctx.filesystemPolicy.allows path, s!"filesystem access to {path.display} is not whitelisted")
  | .network host port =>
    (ctx.networkPolicy.allows host port, s!"network access to {host}:{port.toNat} is not whitelisted")
  | .dns host => (ctx.networkPolicy.allowsHost host, s!"DNS resolution of {host} is not whitelisted")

theorem check_eq (ctx : IoContext) (call : IoCall) : ctx.check call =
    ctx.checkAccess call.now call.metadata call.target.capability (ctx.listed call.target).1 (ctx.listed call.target).2 := by
  unfold check
  cases call.target with
  | file path =>
    have hpolicy := ctx.checkRateLimit_filesystemPolicy call.now call.metadata
    unfold checkAccess RuntimeContext.checkFileAccess
    dsimp only [IoTarget.capability]
    cases ctx.requestCapability call.metadata .filesystem with
    | error e => rfl
    | ok =>
      rcases hrate : ctx.checkRateLimit call.now call.metadata with ⟨_ | _, inner⟩
      · rfl
      · rw [hrate] at hpolicy
        dsimp only at hpolicy ⊢
        rw [hpolicy]
        by_cases hallows : ctx.filesystemPolicy.allows path = true
        · have hlisted : (ctx.listed (.file path)).1 = true := hallows
          rw [if_pos hallows, if_pos hlisted]
        · have hlisted : ¬ (ctx.listed (.file path)).1 = true := hallows
          rw [if_neg hallows, if_neg hlisted]
          rfl
  | network host port => rfl
  | dns host => rfl

def resultOf (ctx : IoContext) (call : IoCall) : Option Bool → Except SecurityError Unit
  | none => .error (.capabilityDenied call.metadata.name call.target.capability.lowercase)
  | some false => .error (.sandboxViolation call.metadata.name "I/O rate limit exceeded")
  | some true =>
    if (ctx.listed call.target).1 then .ok () else .error (.sandboxViolation call.metadata.name (ctx.listed call.target).2)

def withIoRateLimiter (ctx : IoContext) (limiter : RateLimiter) : IoContext := { ctx with ioRateLimiter := some limiter }

theorem check_withIoRateLimiter (ctx : IoContext) (limiter : RateLimiter) (call : IoCall) :
    (ctx.withIoRateLimiter limiter).check call =
      (ctx.resultOf call ((ctx.withIoRateLimiter limiter).acquired call),
        ctx.withIoRateLimiter
          (if ctx.grantedCapabilities.has call.target.capability then (limiter.tryAcquire call.now).2 else limiter)) := by
  have hrate : (ctx.withIoRateLimiter limiter).checkRateLimit call.now call.metadata =
      (if (limiter.tryAcquire call.now).1 then .ok ()
        else .error (.sandboxViolation call.metadata.name "I/O rate limit exceeded"),
        (ctx.withIoRateLimiter (limiter.tryAcquire call.now).2).toRuntimeContext) := by
    unfold RuntimeContext.checkRateLimit
    dsimp only [withIoRateLimiter]
    rcases limiter.tryAcquire call.now with ⟨_ | _, limiter'⟩ <;> rfl
  have hlisted : (ctx.withIoRateLimiter limiter).listed call.target = ctx.listed call.target := by
    cases call.target <;> rfl
  rw [check_eq, hlisted, checkAccess, RuntimeContext.requestCapability, acquired]
  cases hcap : ctx.grantedCapabilities.has call.target.capability with
  | false =>
    have hcap' : (ctx.withIoRateLimiter limiter).grantedCapabilities.has call.target.capability = false := hcap
    rw [hcap']
    rfl
  | true =>
    have hcap' : (ctx.withIoRateLimiter limiter).grantedCapabilities.has call.target.capability = true := hcap
    rw [hcap', if_pos rfl, if_pos rfl, if_pos rfl]
    dsimp only
    rw [hrate]
    cases hgranted : (limiter.tryAcquire call.now).1 with
    | false =>
      have hacquired : (ctx.withIoRateLimiter limiter).ioRateLimiter.map (fun limiter => (limiter.tryAcquire call.now).1) =
          some false := congrArg some hgranted
      rw [hacquired]
      rfl
    | true =>
      have hacquired : (ctx.withIoRateLimiter limiter).ioRateLimiter.map (fun limiter => (limiter.tryAcquire call.now).1) =
          some true := congrArg some hgranted
      rw [hacquired, if_pos rfl, resultOf]
      dsimp only
      split_ifs <;> rfl

def seconds (now : Instant) : ℚ := now / 1000000000

def bucket (limiter : RateLimiter) : TokenBucket.Bucket ℚ := ⟨limiter.tokens, seconds limiter.lastRefill⟩

theorem seconds_mono {since till : Instant} (h : since ≤ till) : seconds since ≤ seconds till :=
  div_le_div_of_nonneg_right (Nat.cast_le.mpr h) (by norm_num)

theorem seconds_sub {since till : Instant} (h : since ≤ till) :
    RateLimiter.seconds since till = seconds till - seconds since := by
  rw [RateLimiter.seconds, Nat.cast_sub h, sub_div]
  rfl

theorem tryAcquire_take {limiter : RateLimiter} {now : Instant} (h : limiter.lastRefill ≤ now) :
    (limiter.tryAcquire now).1 = (TokenBucket.take limiter.capacity limiter.refillPerSecond (bucket limiter) (seconds now)).1 ∧
      bucket (limiter.tryAcquire now).2 =
        (TokenBucket.take limiter.capacity limiter.refillPerSecond (bucket limiter) (seconds now)).2 ∧
      (limiter.tryAcquire now).2.capacity = limiter.capacity ∧
      (limiter.tryAcquire now).2.refillPerSecond = limiter.refillPerSecond ∧ (limiter.tryAcquire now).2.lastRefill = now := by
  have hlevel :
      min (limiter.tokens + RateLimiter.seconds limiter.lastRefill now * limiter.refillPerSecond) limiter.capacity =
      TokenBucket.level limiter.capacity limiter.refillPerSecond (bucket limiter) (seconds now) := by
    rw [seconds_sub h]
    rfl
  unfold RateLimiter.tryAcquire TokenBucket.take
  dsimp only
  rw [hlevel]
  split_ifs <;> exact ⟨rfl, rfl, rfl, rfl, rfl⟩

def asks (ctx : IoContext) (call : IoCall) : Option ℚ :=
  if ctx.grantedCapabilities.has call.target.capability then some (seconds call.now) else none

variable (ctx : IoContext) (limiter : RateLimiter) {call : IoCall} {calls : List IoCall}

theorem order_of_le {last : Instant} (hlast : last ≤ call.now)
    (hcalls : (call.now :: calls.map IoCall.now).Pairwise (· ≤ ·)) : (last :: calls.map IoCall.now).Pairwise (· ≤ ·) :=
  List.pairwise_cons.mpr ⟨fun _ hnow => hlast.trans (List.rel_of_pairwise_cons hcalls hnow), hcalls.tail⟩

theorem check_step (h : limiter.lastRefill ≤ call.now) : ∃ limiter',
    ((ctx.withIoRateLimiter limiter).check call).2 = ctx.withIoRateLimiter limiter' ∧
      TokenBucket.step limiter.capacity limiter.refillPerSecond ctx.asks (bucket limiter) call =
        ((ctx.withIoRateLimiter limiter).acquired call, bucket limiter') ∧
      limiter'.capacity = limiter.capacity ∧ limiter'.refillPerSecond = limiter.refillPerSecond ∧
      limiter'.lastRefill ≤ call.now := by
  rw [check_withIoRateLimiter]
  refine ⟨_, rfl, ?_⟩
  have hacquired : (ctx.withIoRateLimiter limiter).acquired call =
      if ctx.grantedCapabilities.has call.target.capability then some (limiter.tryAcquire call.now).1 else none := rfl
  rw [hacquired]
  split_ifs with hcap
  · obtain ⟨hgranted, hbucket, hcapacity, hrefill, hlast⟩ := tryAcquire_take h
    have hasks : ctx.asks call = some (seconds call.now) := if_pos hcap
    refine ⟨?_, hcapacity, hrefill, hlast.le⟩
    rw [TokenBucket.step_some hasks, hgranted, hbucket]
  · have hasks : ctx.asks call = none := if_neg hcap
    exact ⟨TokenBucket.step_none hasks _, rfl, rfl, h⟩

def entryOf (entry : IoCall × Option Bool) : IoEntry := ⟨entry.1, entry.2, ctx.resultOf entry.1 entry.2⟩

theorem entryOf_injective : Function.Injective ctx.entryOf := fun _ _ h =>
  Prod.ext (congrArg IoEntry.call h) (congrArg IoEntry.acquired h)

theorem run_eq (horder : (limiter.lastRefill :: calls.map IoCall.now).Pairwise (· ≤ ·)) :
    (ctx.withIoRateLimiter limiter).run calls =
      (TokenBucket.trace limiter.capacity limiter.refillPerSecond ctx.asks (bucket limiter) calls).map ctx.entryOf := by
  induction calls generalizing limiter with
  | nil => rfl
  | cons call calls ih =>
    obtain ⟨hlast, hcalls⟩ := List.pairwise_cons.mp horder
    obtain ⟨limiter', hnext, hstep, hcapacity, hrefill, hlast'⟩ :=
      check_step ctx limiter (hlast call.now List.mem_cons_self)
    have horder' := order_of_le hlast' hcalls
    have hresult : ((ctx.withIoRateLimiter limiter).check call).1 =
        ctx.resultOf call ((ctx.withIoRateLimiter limiter).acquired call) := by rw [check_withIoRateLimiter]
    rw [run, hnext, ih limiter' horder', TokenBucket.trace, hstep, List.map_cons, hresult, hcapacity, hrefill]
    rfl

theorem inOrder (horder : (limiter.lastRefill :: calls.map IoCall.now).Pairwise (· ≤ ·)) :
    TokenBucket.InOrder ctx.asks (bucket limiter) calls := by
  have hasks : ∀ {call time}, ctx.asks call = some time → time = seconds call.now := by
    intro call time htime
    unfold asks at htime
    split_ifs at htime
    exact (Option.some.inj htime).symm
  obtain ⟨hlast, hcalls⟩ := List.pairwise_cons.mp horder
  refine List.pairwise_cons.mpr ⟨fun time htime => ?_, List.pairwise_filterMap.mpr ?_⟩
  · obtain ⟨call, hcall, htime⟩ := List.mem_filterMap.mp htime
    rw [hasks htime]
    exact seconds_mono (hlast call.now (List.mem_map_of_mem hcall))
  · refine (List.pairwise_map.mp hcalls).imp fun hle time htime time' htime' => ?_
    rw [hasks htime, hasks htime']
    exact seconds_mono hle

theorem after_within (hrate : 0 ≤ limiter.refillPerSecond) (hwithin : TokenBucket.Within limiter.capacity (bucket limiter))
    (horder : (limiter.lastRefill :: calls.map IoCall.now).Pairwise (· ≤ ·)) : ∃ limiter',
      (ctx.withIoRateLimiter limiter).after calls = ctx.withIoRateLimiter limiter' ∧
        TokenBucket.Within limiter.capacity (bucket limiter') := by
  induction calls generalizing limiter with
  | nil => exact ⟨limiter, rfl, hwithin⟩
  | cons call calls ih =>
    obtain ⟨hlast, hcalls⟩ := List.pairwise_cons.mp horder
    obtain ⟨limiter', hnext, hstep, hcapacity, hrefill, hlast'⟩ :=
      check_step ctx limiter (hlast call.now List.mem_cons_self)
    have horder' := order_of_le hlast' hcalls
    have hwithin' := TokenBucket.within_step hrate hwithin fun now => (inOrder ctx limiter horder).le
    rw [hstep] at hwithin'
    rw [← hrefill] at hrate
    rw [← hcapacity] at hwithin'
    obtain ⟨last, hafter, hlast⟩ := ih limiter' hrate hwithin' horder'
    rw [hcapacity] at hlast
    refine ⟨last, ?_, hlast⟩
    rw [after, List.foldl_cons, hnext]
    exact hafter

theorem asks_of_acquired {entry : IoCall × Option Bool} {b : TokenBucket.Bucket ℚ} {cap rate : ℚ}
    (hentry : entry ∈ TokenBucket.trace cap rate ctx.asks b calls) (hacquired : entry.2 = some true) :
    ctx.asks entry.1 = some (seconds entry.1.now) := by
  cases hasks : ctx.asks entry.1 with
  | none =>
    rw [(TokenBucket.mem_trace hentry).2 hasks] at hacquired
    cases hacquired
  | some time =>
    unfold asks at hasks
    split_ifs at hasks
    exact hasks.symm

theorem countP_run_le (hrate : 0 ≤ limiter.refillPerSecond)
    (hwithin : TokenBucket.Within limiter.capacity (bucket limiter))
    (horder : (limiter.lastRefill :: calls.map IoCall.now).Pairwise (· ≤ ·)) {since till : Instant} (hle : since ≤ till) :
    (((ctx.withIoRateLimiter limiter).run calls).countP fun entry =>
      entry.acquired = some true ∧ since ≤ entry.call.now ∧ entry.call.now ≤ till : ℚ) ≤
        limiter.capacity + limiter.refillPerSecond * RateLimiter.seconds since till := by
  have hgranted := TokenBucket.granted_le hrate hwithin (inOrder ctx limiter horder) (seconds_mono hle)
  rw [seconds_sub hle, mul_comm]
  refine le_trans ?_ hgranted
  rw [run_eq ctx limiter horder, List.countP_map, Nat.cast_le]
  -- a call that took a token asked for one at its own time
  refine List.countP_mono_left fun entry hentry hp => ?_
  obtain ⟨hacquired, hsince, htill⟩ : entry.2 = some true ∧ since ≤ entry.1.now ∧ entry.1.now ≤ till :=
    of_decide_eq_true hp
  rw [TokenBucket.took, ctx.asks_of_acquired hentry hacquired, hacquired, Option.any_some,
    decide_eq_true (seconds_mono hsince), decide_eq_true (seconds_mono htill)]
  rfl

theorem run_of_sublist (hrate : 0 ≤ limiter.refillPerSecond)
    (horder : (limiter.lastRefill :: calls.map IoCall.now).Pairwise (· ≤ ·)) {kept : List IoEntry}
    (hsub : kept.Sublist ((ctx.withIoRateLimiter limiter).run calls))
    (hkept : kept.filter (·.acquired ≠ some false) =
      ((ctx.withIoRateLimiter limiter).run calls).filter (·.acquired ≠ some false)) :
    (ctx.withIoRateLimiter limiter).run (kept.map IoEntry.call) = kept := by
  rw [run_eq ctx limiter horder] at hsub hkept
  obtain ⟨kept, hpart, rfl⟩ := List.sublist_map_iff.mp hsub
  have hcalls : (kept.map Prod.fst).Sublist calls := by
    have hfst := hpart.map Prod.fst
    rwa [TokenBucket.trace_fst] at hfst
  have horder' : (limiter.lastRefill :: (kept.map Prod.fst).map IoCall.now).Pairwise (· ≤ ·) :=
    horder.sublist (List.Sublist.cons_cons _ (hcalls.map _))
  have hcall : (kept.map ctx.entryOf).map IoEntry.call = kept.map Prod.fst := List.map_map
  rw [List.filter_map, List.filter_map] at hkept
  -- calls and answers are told apart by their entries
  have hfilter := List.map_injective_iff.mpr ctx.entryOf_injective hkept
  have htrace := TokenBucket.trace_of_sublist hrate (inOrder ctx limiter horder) (fun _ _ => rfl) hpart hfilter
  rw [hcall, run_eq ctx limiter horder', htrace]

/-- The limiter's envelope: the tokens stay between nothing and the capacity; between two times no more calls
are granted than that and what is refilled; and without refused calls the others fare as they did. -/
theorem rate_limiter_envelope (ctx : IoContext) (capacity refillPerSecond : BitVec 32) (start : Instant)
    (horder : (start :: calls.map IoCall.now).Pairwise (· ≤ ·)) :
    (∀ before, before <+: calls → ∃ limiter,
      ((ctx.withIoRateLimiter (.new capacity refillPerSecond start)).after before).ioRateLimiter = some limiter ∧
        0 ≤ limiter.tokens ∧ limiter.tokens ≤ capacity.toNat) ∧
    (∀ since till, since ≤ till →
      (((ctx.withIoRateLimiter (.new capacity refillPerSecond start)).run calls).countP fun entry =>
        entry.acquired = some true ∧ since ≤ entry.call.now ∧ entry.call.now ≤ till : ℚ) ≤
          capacity.toNat + refillPerSecond.toNat * RateLimiter.seconds since till) ∧
    ∀ kept, kept.Sublist ((ctx.withIoRateLimiter (.new capacity refillPerSecond start)).run calls) →
      kept.filter (·.acquired ≠ some false) =
          ((ctx.withIoRateLimiter (.new capacity refillPerSecond start)).run calls).filter (·.acquired ≠ some false) →
        (ctx.withIoRateLimiter (.new capacity refillPerSecond start)).run (kept.map IoEntry.call) = kept := by
  have hrate : 0 ≤ (RateLimiter.new capacity refillPerSecond start).refillPerSecond := Nat.cast_nonneg _
  have hwithin : TokenBucket.Within (capacity.toNat : ℚ) (bucket (.new capacity refillPerSecond start)) :=
    ⟨Nat.cast_nonneg _, le_refl _⟩
  refine ⟨fun before hbefore => ?_, fun since till hle => ?_, fun kept hsub hkept => ?_⟩
  · have horder' : (start :: before.map IoCall.now).Pairwise (· ≤ ·) :=
      horder.sublist (List.Sublist.cons_cons _ (hbefore.sublist.map _))
    obtain ⟨limiter, hafter, hlimiter⟩ := after_within ctx (.new capacity refillPerSecond start) hrate hwithin horder'
    refine ⟨limiter, ?_, hlimiter.nonneg, hlimiter.le⟩
    rw [hafter]
    rfl
  · exact countP_run_le ctx (.new capacity refillPerSecond start) hrate hwithin horder hle
  · exact run_of_sublist ctx (.new capacity refillPerSecond start) hrate horder hsub hkept

def allowingIo : IoContext :=
  ⟨⟨.fromCapabilities [.filesystem, .network, .dns], .denyAll, none⟩,
    (NetworkPolicy.denyAll.allowHost "localhost").allowHostPort "relay" 443⟩

def ioCalls : List IoCall :=
  [⟨0, ⟨"relay", .unbounded⟩, .dns "relay"⟩, ⟨0, ⟨"relay", .unbounded⟩, .network "relay" 443⟩,
    ⟨1000000000, ⟨"relay", .unbounded⟩, .file (.new "/tmp/a")⟩]

theorem rate_limiter_envelope_relay :
    (((allowingIo.withIoRateLimiter (.new 1 1 0)).run ioCalls).countP fun entry =>
      entry.acquired = some true ∧ 0 ≤ entry.call.now ∧ entry.call.now ≤ 1000000000 : ℚ) ≤
        (1 : BitVec 32).toNat + (1 : BitVec 32).toNat * RateLimiter.seconds 0 1000000000 :=
  (rate_limiter_envelope allowingIo 1 1 0 (by decide)).2.1 0 1000000000 (by decide)

end IoContext
end Nyarix
