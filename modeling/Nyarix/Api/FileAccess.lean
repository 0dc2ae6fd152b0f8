import Mathlib.Data.Rat.Floor
import Nyarix.Lib.UnixPath
import Nyarix.Module

/-! Checking a module's access to files: its capabilities, the rate limit, the whitelist. -/

namespace Nyarix

inductive SecurityError where
  | capabilityDenied (module capability : String)
  | signatureFailed (reason : String)
  | insufficientTrust (module level required : String)
  | sandboxViolation (module violation : String)
  deriving DecidableEq, Repr

inductive Capability where
  | filesystem | network | tun | random | crypto | clock | scheduler | storage | metrics | dns | uiHooks
  | background | privilegedSockets
  deriving DecidableEq, Repr

namespace Capability

def bit : Capability → Nat
  | .filesystem => 0
  | .network => 1
  | .tun => 2
  | .random => 3
  | .crypto => 4
  | .clock => 5
  | .scheduler => 6
  | .storage => 7
  | .metrics => 8
  | .dns => 9
  | .uiHooks => 10
  | .background => 11
  | .privilegedSockets => 12

def lowercase : Capability → String
  | .filesystem => "filesystem"
  | .network => "network"
  | .tun => "tun"
  | .random => "random"
  | .crypto => "crypto"
  | .clock => "clock"
  | .scheduler => "scheduler"
  | .storage => "storage"
  | .metrics => "metrics"
  | .dns => "dns"
  | .uiHooks => "uihooks"
  | .background => "background"
  | .privilegedSockets => "privilegedsockets"

end Capability

structure CapabilityMask where
  bits : BitVec 16
  deriving DecidableEq

namespace CapabilityMask

def empty : CapabilityMask := ⟨0⟩

def mask (c : Capability) : CapabilityMask := ⟨1 <<< c.bit⟩

def contains (m other : CapabilityMask) : Bool := m.bits &&& other.bits == other.bits

def fromCapabilities (cs : List Capability) : CapabilityMask :=
  cs.foldl (fun m c => ⟨m.bits ||| (mask c).bits⟩) empty

def has (m : CapabilityMask) (c : Capability) : Bool := m.contains (mask c)

end CapabilityMask

/-- A token bucket; its floating-point numbers are taken as exact. -/
structure RateLimiter where
  capacity : Rat
  refillPerSecond : Rat
  tokens : Rat
  lastRefill : Instant

namespace RateLimiter

def new (capacity refillPerSecond : BitVec 32) (now : Instant) : RateLimiter :=
  ⟨capacity.toNat, refillPerSecond.toNat, capacity.toNat, now⟩

def seconds (since now : Instant) : Rat := ((now - since : Nat) : Rat) / 1000000000

def tryAcquire (r : RateLimiter) (now : Instant) : Bool × RateLimiter :=
  let tokens := min (r.tokens + seconds r.lastRefill now * r.refillPerSecond) r.capacity
  if 1 ≤ tokens then (true, { r with tokens := tokens - 1, lastRefill := now })
  else (false, { r with tokens, lastRefill := now })

end RateLimiter

structure FilesystemPolicy where
  allowedPrefixes : List UnixPath

namespace FilesystemPolicy

def denyAll : FilesystemPolicy := ⟨[]⟩

def allowing (prefixes : List UnixPath) : FilesystemPolicy := ⟨prefixes⟩

def allows (policy : FilesystemPolicy) (path : UnixPath) : Bool :=
  policy.allowedPrefixes.any fun base => path.startsWith base

end FilesystemPolicy

structure RuntimeContext where
  grantedCapabilities : CapabilityMask
  filesystemPolicy : FilesystemPolicy
  ioRateLimiter : Option RateLimiter

namespace RuntimeContext

def empty : RuntimeContext := ⟨.empty, .denyAll, none⟩

def requestCapability (ctx : RuntimeContext) (metadata : ModuleMetadata) (capability : Capability) :
    Except SecurityError Unit :=
  if ctx.grantedCapabilities.has capability then .ok ()
  else .error (.capabilityDenied metadata.name capability.lowercase)

def checkRateLimit (ctx : RuntimeContext) (now : Instant) (metadata : ModuleMetadata) :
    Except SecurityError Unit × RuntimeContext :=
  match ctx.ioRateLimiter with
  | none => (.ok (), ctx)
  | some limiter =>
    let (granted, limiter) := limiter.tryAcquire now
    let ctx := { ctx with ioRateLimiter := some limiter }
    if granted then (.ok (), ctx) else (.error (.sandboxViolation metadata.name "I/O rate limit exceeded"), ctx)

def checkFileAccess (ctx : RuntimeContext) (now : Instant) (metadata : ModuleMetadata) (path : UnixPath) :
    Except SecurityError Unit × RuntimeContext :=
  match ctx.requestCapability metadata .filesystem with
  | .error e => (.error e, ctx)
  | .ok () =>
    match ctx.checkRateLimit now metadata with
    | (.error e, ctx) => (.error e, ctx)
    | (.ok (), ctx) =>
      if ctx.filesystemPolicy.allows path then (.ok (), ctx)
      else (.error (.sandboxViolation metadata.name s!"filesystem access to {path.display} is not whitelisted"), ctx)

theorem checkRateLimit_filesystemPolicy (ctx : RuntimeContext) (now : Instant) (metadata : ModuleMetadata) :
    (ctx.checkRateLimit now metadata).2.filesystemPolicy = ctx.filesystemPolicy := by
  unfold checkRateLimit
  split
  · rfl
  · dsimp only
    split <;> rfl

end RuntimeContext

namespace FilesystemPolicy

/-- From an allowed prefix that the path starts with, no `..` leads above it, or the names after
the highest climb lead into an allowed prefix again. -/
def Stays (policy : FilesystemPolicy) (path base : UnixPath) : Prop :=
  let effect := UnixPath.climb (path.route.drop base.route.length)
  let top := base.locate []
  effect.1 = 0 ∨
    ∃ other ∈ policy.allowedPrefixes, other.locate [] <+: top.take (top.length - effect.1) ++ effect.2

variable {policy : FilesystemPolicy} {path base : UnixPath}

theorem locate_of_startsWith (h : path.startsWith base) (ha : base.isAbsolute) :
    path.locate [] = (base.locate []).take
        ((base.locate []).length - (UnixPath.climb (path.route.drop base.route.length)).1) ++
      (UnixPath.climb (path.route.drop base.route.length)).2 := by
  obtain ⟨rest, hroute, hrest⟩ := UnixPath.route_of_startsWith h ha
  rw [UnixPath.locate, hroute, UnixPath.follow_append, List.drop_left]
  exact UnixPath.follow_climb hrest _

/-- An allowed path leads under an allowed prefix exactly when it stays. -/
theorem allows_resolves_iff (policy : FilesystemPolicy) (path : UnixPath)
    (habs : ∀ base ∈ policy.allowedPrefixes, base.isAbsolute) :
    (policy.allows path → ∃ base ∈ policy.allowedPrefixes, base.locate [] <+: path.locate []) ↔
      ∀ base ∈ policy.allowedPrefixes, path.startsWith base → policy.Stays path base := by
  constructor
  · intro h base hbase hstart
    obtain ⟨other, hother, hunder⟩ := h (List.any_eq_true.mpr ⟨base, hbase, hstart⟩)
    rw [locate_of_startsWith hstart (habs base hbase)] at hunder
    exact .inr ⟨other, hother, hunder⟩
  · intro h hallows
    obtain ⟨base, hbase, hstart⟩ := List.any_eq_true.mp hallows
    rcases h base hbase hstart with hups | ⟨other, hother, hunder⟩
    · refine ⟨base, hbase, ?_⟩
      have hstay : (UnixPath.climb (path.route.drop base.route.length)).1 = 0 := hups
      rw [locate_of_startsWith hstart (habs base hbase), hstay, Nat.sub_zero, List.take_length]
      exact List.prefix_append _ _
    · refine ⟨other, hother, ?_⟩
      rw [locate_of_startsWith hstart (habs base hbase)]
      exact hunder

theorem allows_resolves_iff_tmp : ∃ base ∈ (allowing [.new "/tmp"]).allowedPrefixes,
    base.locate [] <+: (UnixPath.new "/tmp/a/../b").locate [] :=
  (allows_resolves_iff (allowing [.new "/tmp"]) (.new "/tmp/a/../b") (by decide)).mpr
    (List.forall_mem_singleton.mpr fun _ => .inl (by decide)) (by decide)

theorem parent_dir_walks_out :
    (RuntimeContext.checkFileAccess ⟨.fromCapabilities [.filesystem], allowing [.new "/tmp"], none⟩ 0
        ⟨"storage", .unbounded⟩ (.new "/tmp/../etc/passwd")).1 = .ok () ∧
      (allowing [.new "/tmp"]).allows (.new "/tmp/../etc/passwd") = true ∧
      ¬ ∃ base ∈ (allowing [.new "/tmp"]).allowedPrefixes,
        base.locate [] <+: (UnixPath.new "/tmp/../etc/passwd").locate [] := by
  refine ⟨rfl, by decide, by decide⟩

end FilesystemPolicy
end Nyarix
