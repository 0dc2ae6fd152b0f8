import Nyarix.Api.Enforcement
import Nyarix.Lib.Bottomup
import Nyarix.Loader.DependencyGraph

/-! Initializing modules one after another, each in a context with the dependencies that have been
registered before it. Whatever the load order, the same modules come up in the same states. -/

namespace Nyarix.Loading

/-- A module as the loader sees it. Of its context `initializeModule` finds the dependencies here; what
else the context holds does not change while modules are loaded. -/
class Loadable (M : Type) where
  name : M → String
  initializeModule : M → HashMap String M → M × Unwind (Except ModuleError Unit)

section Instantiate
variable {M : Type} [Loadable M]

def instantiate (module : M) (dependencies : HashMap String M) : Unwind (Except InstantiationError M) :=
  match Loadable.initializeModule module dependencies with
  | (started, .returned (.ok ())) => .returned (.ok started)
  | (_, .returned (.error source)) => .returned (.error ⟨Loadable.name module, source⟩)
  | (_, .panicked reason) => .panicked reason

def started (module : M) (dependencies : HashMap String M) : Option M :=
  match instantiate module dependencies with
  | .returned (.ok started) => some started
  | _ => none

end Instantiate

structure ModuleRegistry (M : Type) where
  modules : HashMap String M

namespace ModuleRegistry
variable {M : Type}

def new : ModuleRegistry M := ⟨∅⟩

def get (r : ModuleRegistry M) (name : String) : Option M := r.modules.lookup name

def dependenciesFor (r : ModuleRegistry M) (names : List String) : HashMap String M :=
  (names.filterMap fun name => (r.get name).map fun module => (name, module)).foldl
    (fun found entry => found.insert entry.1 entry.2) ∅

def instantiateAndRegister [Loadable M] (r : ModuleRegistry M) (module : M) (dependencies : HashMap String M) :
    ModuleRegistry M × Unwind (Except InstantiationError Unit) :=
  match instantiate module dependencies with
  | .returned (.ok instance_) => (⟨r.modules.insert (Loadable.name instance_) instance_⟩, .returned (.ok ()))
  | .returned (.error e) => (r, .returned (.error e))
  | .panicked reason => (r, .panicked reason)

/-- The module that a package holds is initialized with what is registered of its declared dependencies. -/
def load [Loadable M] (module : String → M) (declared : String → List String) (r : ModuleRegistry M) (name : String) :
    ModuleRegistry M := (r.instantiateAndRegister (module name) (r.dependenciesFor (declared name))).1

theorem lookup_dependenciesFor (r : ModuleRegistry M) (names : List String) (name : String) :
    (r.dependenciesFor names).lookup name = if name ∈ names then r.get name else none := by
  have hentry : ∀ e : String × M, e ∈ (names.filterMap fun name => (r.get name).map fun module => (name, module)) ↔
      e.1 ∈ names ∧ r.get e.1 = some e.2 := by
    intro e
    simp only [List.mem_filterMap, Option.map_eq_some_iff]
    constructor
    · rintro ⟨_, hmem, _, hget, rfl⟩
      exact ⟨hmem, hget⟩
    · rintro ⟨hmem, hget⟩
      exact ⟨e.1, hmem, e.2, hget, rfl⟩
  unfold dependenciesFor
  rw [HashMap.lookup_foldl_insert]
  cases hfind : List.find? _ _ with
  | some e =>
    have hname : e.1 = name := by simpa using List.find?_some hfind
    obtain ⟨hmem, hget⟩ := (hentry e).mp (List.mem_reverse.mp (List.mem_of_find?_eq_some hfind))
    rw [← hname, if_pos hmem, hget]
    rfl
  | none =>
    split_ifs with hmem
    · cases hget : r.get name with
      | none => rfl
      | some module =>
        have habsent := List.find?_eq_none.mp hfind (name, module)
          (List.mem_reverse.mpr ((hentry (name, module)).mpr ⟨hmem, hget⟩))
        exact absurd (decide_eq_true rfl) habsent
    · rfl

section Load
variable [Loadable M] {module : String → M} {declared : String → List String}

def KeepsName (module : String → M) : Prop :=
  ∀ name dependencies, Loadable.name (Loadable.initializeModule (module name) dependencies).1 = name

theorem started_name (hkeeps : KeepsName module) {name : String} {dependencies : HashMap String M} {m : M}
    (h : started (module name) dependencies = some m) : Loadable.name m = name := by
  have hname := hkeeps name dependencies
  unfold started instantiate at h
  rcases hinit : Loadable.initializeModule (module name) dependencies with ⟨m', (e | _) | reason⟩ <;>
    rw [hinit] at h hname
  · cases h
  · exact Option.some.inj h ▸ hname
  · cases h

/-- What a module would be made of: the context is a registry's, and the rest is what it is not told. -/
def make (module : String → M) (declared : String → List String) (name : String) (found : String → Option M) : Option M :=
  started (module name) (((declared name).filterMap fun d => (found d).map fun m => (d, m)).foldl
    (fun deps entry => deps.insert entry.1 entry.2) ∅)

theorem make_get (r : ModuleRegistry M) (name : String) :
    make module declared name r.get = started (module name) (r.dependenciesFor (declared name)) := rfl

theorem local_make (module : String → M) (declared : String → List String) :
    Bottomup.Local declared (make module declared) := by
  intro name found found' h
  unfold make
  rw [List.filterMap_congr fun d hd => by rw [h d hd]]

theorem load_cases (r : ModuleRegistry M) (name : String) :
    (started (module name) (r.dependenciesFor (declared name)) = none ∧ r.load module declared name = r) ∨
      ∃ m, started (module name) (r.dependenciesFor (declared name)) = some m ∧
        r.load module declared name = ⟨r.modules.insert (Loadable.name m) m⟩ := by
  unfold load instantiateAndRegister started
  rcases instantiate (module name) (r.dependenciesFor (declared name)) with (e | m) | reason
  · exact .inl ⟨rfl, rfl⟩
  · exact .inr ⟨m, rfl, rfl⟩
  · exact .inl ⟨rfl, rfl⟩

theorem get_load (hkeeps : KeepsName module) {r : ModuleRegistry M} {name : String} (hnew : r.get name = none) :
    (r.load module declared name).get = Bottomup.step (make module declared) r.get name := by
  funext other
  unfold Bottomup.step
  rw [make_get]
  by_cases hother : other = name
  · rw [hother, Function.update_self]
    rcases load_cases r name with ⟨hnone, hload⟩ | ⟨m, hsome, hload⟩
    · rw [hload, hnone, hnew]
    · rw [hload, hsome, started_name hkeeps hsome]
      exact AList.lookup_insert _
  · rw [Function.update_of_ne hother]
    rcases load_cases r name with ⟨hnone, hload⟩ | ⟨m, hsome, hload⟩
    · rw [hload]
    · rw [hload, started_name hkeeps hsome]
      exact AList.lookup_insert_ne hother

theorem get_loadAll (hkeeps : KeepsName module) {order : List String} (hnodup : order.Nodup) :
    (order.foldl (load module declared) new).get = order.foldl (Bottomup.step (make module declared)) fun _ => none := by
  induction order using List.reverseRecOn with
  | nil => rfl
  | append_singleton order name ih =>
    obtain ⟨hbefore, -, hdisjoint⟩ := List.nodup_append.mp hnodup
    have hnotMem : name ∉ order := fun hmem => hdisjoint name hmem name (List.mem_singleton_self name) rfl
    rw [List.foldl_append, List.foldl_append, List.foldl_cons, List.foldl_nil, List.foldl_cons, List.foldl_nil, ← ih hbefore]
    refine get_load hkeeps ?_
    rw [ih hbefore]
    exact Bottomup.foldl_of_notMem hnotMem _

def declaredDependencies (manifests : List PackageManifest) (name : String) : List String :=
  ((manifests.find? (·.package.name = name)).map fun m => m.dependencies.keys).getD []

theorem mem_declaredDependencies {manifests : List PackageManifest}
    (hnames : (manifests.map (·.package.name)).Nodup) {name d : String} :
    d ∈ declaredDependencies manifests name ↔ ∃ m ∈ manifests, m.package.name = name ∧ d ∈ m.dependencies := by
  unfold declaredDependencies
  constructor
  · intro hd
    cases hfind : manifests.find? (·.package.name = name) with
    | none =>
      rw [hfind] at hd
      exact absurd hd List.not_mem_nil
    | some m =>
      rw [hfind] at hd
      obtain ⟨hmem, hname⟩ := DependencyGraph.of_find?_name hfind
      exact ⟨m, hmem, hname, AList.mem_keys.mp hd⟩
  · rintro ⟨m, hmem, rfl, hd⟩
    rw [DependencyGraph.find?_name hnames hmem]
    exact AList.mem_keys.mpr hd

theorem isLoadOrder_of_loadOrder {manifests : List PackageManifest} (hnames : (manifests.map (·.package.name)).Nodup)
    {order : List String} {fuel : Nat} (hfuel : manifests.length ≤ fuel)
    (h : (DependencyGraph.build manifests).loadOrder fuel = some (.ok order)) : IsLoadOrder manifests order := by
  have hkeys := DependencyGraph.keys_build hnames
  have hlength : (DependencyGraph.build manifests).edges.keys.length ≤ manifests.length := by
    rw [hkeys.length_eq, List.length_map]
  obtain ⟨result, hresult, -, horder, -⟩ := (DependencyGraph.build manifests).loadOrder_cases hlength
  rw [hresult fuel hfuel, Option.some.injEq] at h
  obtain ⟨hperm, hfirst⟩ := horder order h
  exact ⟨hperm.trans hkeys, fun front a back hsplit b hb =>
    hfirst front a back hsplit b ((DependencyGraph.mem_successors hnames a b).mpr hb)⟩

theorem needsFirst {manifests : List PackageManifest} (hnames : (manifests.map (·.package.name)).Nodup)
    {order : List String} (h : IsLoadOrder manifests order) :
    Bottomup.NeedsFirst (declaredDependencies manifests) order := by
  intro front name back hsplit d hd hknown
  refine h.first front name back hsplit d ⟨(mem_declaredDependencies hnames).mp hd, ?_⟩
  exact List.mem_map.mp (h.names.mem_iff.mp hknown)

/-- Loading modules in the order that `load_order` finds. Each one is initialized with all the declared
dependencies that come up at all, and is registered exactly if its initialization succeeds; and any other
order that puts dependencies first would bring up the same modules in the same states. -/
theorem loading_in_order (hkeeps : KeepsName module) {manifests : List PackageManifest}
    (hnames : (manifests.map (·.package.name)).Nodup) {order : List String} {fuel : Nat}
    (hfuel : manifests.length ≤ fuel) (h : (DependencyGraph.build manifests).loadOrder fuel = some (.ok order)) :
    let declared := declaredDependencies manifests
    let r := order.foldl (load module declared) new
    (∀ front name back, order = front ++ name :: back → ∀ d,
      ((front.foldl (load module declared) new).dependenciesFor (declared name)).lookup d =
        if d ∈ declared name then r.get d else none) ∧
    (∀ name, r.get name =
      if name ∈ order then started (module name) (r.dependenciesFor (declared name)) else none) ∧
    ∀ order', IsLoadOrder manifests order' → ∀ name, (order'.foldl (load module declared) new).get name = r.get name := by
  intro declared r
  have horder := isLoadOrder_of_loadOrder hnames hfuel h
  have hnodup : order.Nodup := horder.names.nodup_iff.mpr hnames
  have hmade : r.get = order.foldl (Bottomup.step (make module declared)) fun _ => none := get_loadAll hkeeps hnodup
  have hsolves : Bottomup.Solves (make module declared) order r.get :=
    hmade ▸ Bottomup.solves_foldl (local_make module declared) hnodup (needsFirst hnames horder)
  refine ⟨fun front name back hsplit d => ?_, fun name => ?_, fun order' horder' name => ?_⟩
  · have hfront : front.Nodup := by
      rw [hsplit] at hnodup
      exact (List.nodup_append.mp hnodup).1
    rw [lookup_dependenciesFor, get_loadAll hkeeps hfront, hmade, hsplit]
    split_ifs with hd
    · exact Bottomup.foldl_front (hsplit ▸ hnodup) (hsplit ▸ needsFirst hnames horder) hd
    · rfl
  · split_ifs with hmem
    · exact hsolves.within name hmem
    · exact hsolves.beyond name hmem
  · have hnodup' : order'.Nodup := horder'.names.nodup_iff.mpr hnames
    have hsolves' := (Bottomup.solves_foldl (local_make module declared) hnodup' (needsFirst hnames horder')).perm
      (horder'.names.trans horder.names.symm)
    rw [← get_loadAll hkeeps hnodup'] at hsolves'
    exact congrFun (hsolves'.unique (local_make module declared) (needsFirst hnames horder) hsolves) name

end Load
end ModuleRegistry

structure Dependent where
  name : String
  needs : List String
  deriving DecidableEq

instance : Loadable Dependent where
  name := Dependent.name
  initializeModule m dependencies :=
    (m, .returned (match m.needs.find? (· ∉ dependencies) with
      | none => .ok ()
      | some missing => .error (.missingDependency m.name missing)))

def chainManifests : List PackageManifest := [stubManifest "a" ["b"], stubManifest "b" []]

def chainModule (name : String) : Dependent := ⟨name, if name = "a" then ["b"] else []⟩

theorem ModuleRegistry.loading_in_order_chain :
    (DependencyGraph.build chainManifests).loadOrder 2 = some (.ok ["b", "a"]) ∧
      ((["b", "a"].foldl (load chainModule (declaredDependencies chainManifests)) new).get "a") =
        some ⟨"a", ["b"]⟩ := by
  have horder : (DependencyGraph.build chainManifests).loadOrder 2 = some (.ok ["b", "a"]) := by decide
  have hkeeps : KeepsName chainModule := fun _ _ => rfl
  obtain ⟨-, hget, -⟩ := loading_in_order hkeeps (by decide) (by decide) horder
  exact ⟨horder, (hget "a").trans rfl⟩

end Nyarix.Loading
