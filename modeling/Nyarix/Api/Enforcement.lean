import Nyarix.Api.FileAccess

/-! Granting a module the capabilities it requires, and starting it only with all of them. -/

namespace Nyarix

namespace CapabilityMask

def satisfies (m required : CapabilityMask) : Bool := m.contains required

instance instMembershipCapability : Membership Capability CapabilityMask :=
  ⟨fun m c => m.bits.getLsbD c.bit = true⟩

instance instDecidableMem (m : CapabilityMask) (c : Capability) : Decidable (c ∈ m) :=
  inferInstanceAs (Decidable (m.bits.getLsbD c.bit = true))

theorem mem_def {m : CapabilityMask} {c : Capability} : c ∈ m ↔ m.bits.getLsbD c.bit = true := Iff.rfl

theorem eq_of_getLsbD {m other : CapabilityMask}
    (h : ∀ i, m.bits.getLsbD i = true ↔ other.bits.getLsbD i = true) : m = other := by
  suffices hbits : m.bits = other.bits from congrArg mk hbits
  apply BitVec.eq_of_getLsbD_eq
  intro i _
  exact Bool.eq_iff_iff.mpr (h i)

theorem bits_mask (c : Capability) : (mask c).bits = BitVec.twoPow 16 c.bit := by
  cases c <;> rfl

theorem getLsbD_mask (c : Capability) (i : Nat) : (mask c).bits.getLsbD i = decide (c.bit = i) := by
  have hbit : c.bit < 16 := by cases c <;> decide
  rw [bits_mask, BitVec.getLsbD_twoPow]
  simp [hbit]

theorem contains_iff {m other : CapabilityMask} :
    m.contains other ↔ ∀ i, other.bits.getLsbD i = true → m.bits.getLsbD i = true := by
  rw [contains, beq_iff_eq]
  constructor
  · intro h i hi
    rw [← h, BitVec.getLsbD_and, Bool.and_eq_true] at hi
    exact hi.1
  · intro h
    apply BitVec.eq_of_getLsbD_eq
    intro i _
    rw [BitVec.getLsbD_and]
    cases hi : other.bits.getLsbD i with
    | false => exact Bool.and_false _
    | true => rw [h i hi, Bool.and_self]

theorem has_iff {m : CapabilityMask} {c : Capability} : m.has c ↔ c ∈ m := by
  rw [has, contains_iff, mem_def]
  simp only [getLsbD_mask, decide_eq_true_eq]
  exact ⟨fun h => h _ rfl, fun h i hi => hi ▸ h⟩

theorem getLsbD_fromCapabilities (cs : List Capability) (i : Nat) :
    (fromCapabilities cs).bits.getLsbD i = true ↔ ∃ c ∈ cs, c.bit = i := by
  have hfold : ∀ m : CapabilityMask,
      (cs.foldl (fun m c => (⟨m.bits ||| (mask c).bits⟩ : CapabilityMask)) m).bits.getLsbD i = true ↔
        m.bits.getLsbD i = true ∨ ∃ c ∈ cs, c.bit = i := by
    induction cs with
    | nil =>
      intro m
      simp
    | cons c cs ih =>
      intro m
      rw [List.foldl_cons, ih]
      have hor : (m.bits ||| (mask c).bits).getLsbD i = true ↔ m.bits.getLsbD i = true ∨ c.bit = i := by
        rw [BitVec.getLsbD_or, Bool.or_eq_true, getLsbD_mask, decide_eq_true_eq]
      rw [hor, List.exists_mem_cons_iff, or_assoc]
  have hempty : (empty : CapabilityMask).bits.getLsbD i = false := BitVec.getLsbD_zero
  rw [fromCapabilities, hfold, hempty]
  simp

theorem bit_injective : Function.Injective Capability.bit := by
  intro c d h
  cases c <;> cases d <;> first | rfl | cases h

theorem mem_fromCapabilities {cs : List Capability} {c : Capability} : c ∈ fromCapabilities cs ↔ c ∈ cs := by
  rw [mem_def, getLsbD_fromCapabilities]
  constructor
  · rintro ⟨d, hd, hbit⟩
    exact bit_injective hbit ▸ hd
  · intro hc
    exact ⟨c, hc, rfl⟩

theorem satisfies_fromCapabilities {m : CapabilityMask} {cs : List Capability} :
    m.satisfies (fromCapabilities cs) ↔ ∀ c ∈ cs, c ∈ m := by
  rw [satisfies, contains_iff]
  simp only [getLsbD_fromCapabilities]
  constructor
  · intro h c hc
    exact h c.bit ⟨c, hc, rfl⟩
  · rintro h i ⟨c, hc, rfl⟩
    exact h c hc

end CapabilityMask

structure CapabilityGrant where
  granted : CapabilityMask
  denied : List Capability
  deriving DecidableEq

namespace CapabilityGrant

def request (required : List Capability) (granted : CapabilityMask) : CapabilityGrant where
  granted := ⟨(CapabilityMask.fromCapabilities required).bits &&& granted.bits⟩
  denied := required.filter fun capability => !granted.has capability

def isFullyGranted (grant : CapabilityGrant) : Bool := grant.denied.isEmpty

def has (grant : CapabilityGrant) (capability : Capability) : Bool := grant.granted.has capability

variable {required : List Capability} {policy : CapabilityMask}

theorem denied_request : (request required policy).denied = required.filter (· ∉ policy) := by
  show required.filter (fun c => !policy.has c) = _
  apply List.filter_congr
  intro c _
  rw [Bool.eq_iff_iff, Bool.not_eq_true', decide_eq_true_eq, ← Bool.not_eq_true, CapabilityMask.has_iff]

theorem granted_request :
    (request required policy).granted = .fromCapabilities (required.filter (· ∈ policy)) := by
  apply CapabilityMask.eq_of_getLsbD
  intro i
  show ((CapabilityMask.fromCapabilities required).bits &&& policy.bits).getLsbD i = true ↔ _
  rw [BitVec.getLsbD_and, Bool.and_eq_true, CapabilityMask.getLsbD_fromCapabilities,
    CapabilityMask.getLsbD_fromCapabilities]
  constructor
  · rintro ⟨⟨c, hc, rfl⟩, hpolicy⟩
    exact ⟨c, List.mem_filter.mpr ⟨hc, decide_eq_true hpolicy⟩, rfl⟩
  · rintro ⟨c, hc, rfl⟩
    obtain ⟨hrequired, hpolicy⟩ := List.mem_filter.mp hc
    exact ⟨⟨c, hrequired, rfl⟩, of_decide_eq_true hpolicy⟩

theorem isFullyGranted_request : (request required policy).isFullyGranted ↔ ∀ c ∈ required, c ∈ policy := by
  rw [isFullyGranted, denied_request, List.isEmpty_iff, List.filter_eq_nil_iff]
  simp

end CapabilityGrant

def RuntimeContext.requestCapabilities (ctx : RuntimeContext) (requiredCapabilities : List Capability) :
    CapabilityGrant :=
  .request requiredCapabilities ctx.grantedCapabilities

class Module (M : Type) where
  metadata : M → ModuleMetadata
  requiredCapabilities : M → List Capability
  initializeModule : M → RuntimeContext → M × Unwind (Except ModuleError Unit)

structure InstantiationError where
  name : String
  source : ModuleError
  deriving DecidableEq

inductive EnforcementError where
  | capabilityDenied (error : SecurityError)
  | instantiation (error : InstantiationError)
  deriving DecidableEq

def catchPanic {A : Type} : Unwind A → Except String A
  | .returned value => .ok value
  | .panicked reason => .error reason

def catchModulePanic {A : Type} (moduleName : String) (call : Unwind (Except ModuleError A)) :
    Except ModuleError A :=
  match catchPanic call with
  | .ok result => result
  | .error reason => .error (.crashed moduleName reason)

/-- What starting a module leaves to see: the denials it logs and its calls of `initialize`. -/
inductive Effect (M : Type) where
  | warned (module : String) (capability : Capability)
  | initialized (module : M) (ctx : RuntimeContext)

def Effect.start? {M : Type} : Effect M → Option (M × RuntimeContext)
  | .warned _ _ => none
  | .initialized module ctx => some (module, ctx)

section

variable {M : Type} [Module M]

def instantiate (module : M) (ctx : RuntimeContext) :
    List (Effect M) × Unwind (Except InstantiationError M) :=
  let name := (Module.metadata module).name
  let (started, call) := Module.initializeModule module ctx
  ([.initialized module ctx], call.bind fun
    | .ok () => .returned (.ok started)
    | .error source => .returned (.error ⟨name, source⟩))

def capabilityName (capability : Capability) : String := capability.lowercase

def enforceAndInstantiate (module : M) (ctx : RuntimeContext) :
    List (Effect M) × Unwind (Except EnforcementError M) :=
  let name := (Module.metadata module).name
  let grant := ctx.requestCapabilities (Module.requiredCapabilities module)
  if !grant.isFullyGranted then
    (grant.denied.map (.warned name ·),
      match grant.denied[0]? with
      | some first => .returned (.error (.capabilityDenied (.capabilityDenied name (capabilityName first))))
      | none => .panicked "index out of bounds: the len is 0 but the index is 0")
  else
    let (effects, call) := instantiate module ctx
    let call := call.bind fun result => .returned (result.mapError (·.source))
    (effects, .returned ((catchModulePanic name call).mapError fun source => .instantiation ⟨name, source⟩))

theorem enforceAndInstantiate_granted {module : M} {ctx : RuntimeContext}
    (h : ∀ c ∈ Module.requiredCapabilities module, c ∈ ctx.grantedCapabilities) :
    enforceAndInstantiate module ctx = ([.initialized module ctx], .returned
      (match Module.initializeModule module ctx with
        | (started, .returned (.ok ())) => .ok started
        | (_, .returned (.error source)) => .error (.instantiation ⟨(Module.metadata module).name, source⟩)
        | (_, .panicked reason) => .error (.instantiation
            ⟨(Module.metadata module).name, .crashed (Module.metadata module).name reason⟩))) := by
  have hgrant : (ctx.requestCapabilities (Module.requiredCapabilities module)).isFullyGranted = true :=
    CapabilityGrant.isFullyGranted_request.mpr h
  simp only [enforceAndInstantiate, instantiate, hgrant, Bool.not_true, Bool.false_eq_true, if_false]
  rcases Module.initializeModule module ctx with ⟨started, (source | _) | reason⟩
  · rfl
  · rfl
  · rfl

theorem enforceAndInstantiate_denied {module : M} {ctx : RuntimeContext} {first : Capability}
    (h : (Module.requiredCapabilities module).find? (· ∉ ctx.grantedCapabilities) = some first) :
    enforceAndInstantiate module ctx =
      (((Module.requiredCapabilities module).filter (· ∉ ctx.grantedCapabilities)).map
          (.warned (Module.metadata module).name ·),
        .returned (.error (.capabilityDenied
          (.capabilityDenied (Module.metadata module).name first.lowercase)))) := by
  have hdenied : (ctx.requestCapabilities (Module.requiredCapabilities module)).denied =
      (Module.requiredCapabilities module).filter (· ∉ ctx.grantedCapabilities) :=
    CapabilityGrant.denied_request
  have hfirst : ((Module.requiredCapabilities module).filter (· ∉ ctx.grantedCapabilities))[0]? = some first := by
    rw [← List.head?_eq_getElem?, List.head?_filter, h]
  have hgrant : (ctx.requestCapabilities (Module.requiredCapabilities module)).isFullyGranted = false := by
    rw [← Bool.not_eq_true]
    intro hfull
    have hmem := List.mem_of_find?_eq_some h
    have hout : first ∉ ctx.grantedCapabilities := by
      simpa using List.find?_some h
    exact hout (CapabilityGrant.isFullyGranted_request.mp hfull first hmem)
  simp only [enforceAndInstantiate, hgrant, hdenied, hfirst, Bool.not_false, if_true]
  rfl

/-- The filtered list, the folded mask and the test before the start make one decision. -/
theorem grants_agree (required : List Capability) (policy : CapabilityMask) (module : M) (ctx : RuntimeContext) :
    ((CapabilityGrant.request required policy).denied = required.filter (· ∉ policy) ∧
      (∀ c, (CapabilityGrant.request required policy).has c ↔ c ∈ required ∧ c ∈ policy) ∧
      (CapabilityGrant.request required policy).granted = .fromCapabilities (required.filter (· ∈ policy)) ∧
      ((CapabilityGrant.request required policy).isFullyGranted ↔
        policy.satisfies (.fromCapabilities required))) ∧
    ((enforceAndInstantiate module ctx).1.filterMap Effect.start? =
        (if ∀ c ∈ Module.requiredCapabilities module, c ∈ ctx.grantedCapabilities then [(module, ctx)] else []) ∧
      (∀ first, (Module.requiredCapabilities module).find? (· ∉ ctx.grantedCapabilities) = some first →
        (enforceAndInstantiate module ctx).2 = .returned (.error (.capabilityDenied
          (.capabilityDenied (Module.metadata module).name first.lowercase)))) ∧
      ∃ result, (enforceAndInstantiate module ctx).2 = .returned result) := by
  refine ⟨⟨CapabilityGrant.denied_request, fun c => ?_, CapabilityGrant.granted_request, ?_⟩, ?_⟩
  · rw [CapabilityGrant.has, CapabilityMask.has_iff, CapabilityGrant.granted_request,
      CapabilityMask.mem_fromCapabilities, List.mem_filter, decide_eq_true_eq]
  · rw [CapabilityGrant.isFullyGranted_request, CapabilityMask.satisfies_fromCapabilities]
  · cases hfind : (Module.requiredCapabilities module).find? (· ∉ ctx.grantedCapabilities) with
    | none =>
      have hall : ∀ c ∈ Module.requiredCapabilities module, c ∈ ctx.grantedCapabilities := by
        simpa using hfind
      rw [if_pos hall, enforceAndInstantiate_granted hall]
      exact ⟨rfl, fun _ h => (Option.some_ne_none _ h.symm).elim, _, rfl⟩
    | some first =>
      have hout : first ∉ ctx.grantedCapabilities := by
        simpa using List.find?_some hfind
      have hsome : ¬ ∀ c ∈ Module.requiredCapabilities module, c ∈ ctx.grantedCapabilities :=
        fun hall => hout (hall first (List.mem_of_find?_eq_some hfind))
      rw [if_neg hsome, enforceAndInstantiate_denied hfind]
      refine ⟨?_, fun c hc => Option.some.inj hc ▸ rfl, _, rfl⟩
      rw [List.filterMap_map]
      exact List.filterMap_eq_nil_iff.mpr fun _ _ => rfl

end
end Nyarix
