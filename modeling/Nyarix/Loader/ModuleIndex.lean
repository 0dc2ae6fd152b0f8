import Nyarix.Lib.Collection
import Nyarix.Package.Archive

/-! The index of packages by name, and its check for duplicates. -/

namespace Nyarix

def ioError (path : UnixPath) (source : IoError) : PackageError := .io path.display source

structure DiscoveredPackage where
  path : UnixPath
  name : String
  version : Semver.Version
  deriving DecidableEq

structure DuplicateModule where
  name : String
  version : Semver.Version
  keptPath : UnixPath
  duplicatePath : UnixPath
  deriving DecidableEq

structure ModuleIndex where
  packages : HashMap String (List DiscoveredPackage)

namespace ModuleIndex

def new : ModuleIndex := ⟨∅⟩

def get (index : ModuleIndex) (name : String) : List DiscoveredPackage :=
  (index.packages.lookup name).getD []

def insert (index : ModuleIndex) (package : DiscoveredPackage) : Option DuplicateModule × ModuleIndex :=
  let packages :=
    if package.name ∈ index.packages then index.packages else index.packages.insert package.name []
  let existing := (packages.lookup package.name).getD []
  match existing.find? (·.version = package.version) with
  | some first => (some ⟨package.name, package.version, first.path, package.path⟩, ⟨packages⟩)
  | none => (none, ⟨HashMap.modify package.name (· ++ [package]) packages⟩)

def Has (index : ModuleIndex) (name : String) (version : Semver.Version) : Prop :=
  ∃ package ∈ index.get name, package.version = version

variable {index index' : ModuleIndex} {package : DiscoveredPackage} {duplicate : DuplicateModule}

theorem insert_existing (index : ModuleIndex) (name : String) :
    ((if name ∈ index.packages then index.packages else index.packages.insert name []).lookup name).getD [] =
      index.get name := by
  split
  · rfl
  · next h =>
    rw [AList.lookup_insert, get, AList.lookup_eq_none.mpr h]
    rfl

theorem insert_duplicate (index : ModuleIndex) (package : DiscoveredPackage) :
    (index.insert package).1.isSome ↔ index.Has package.name package.version := by
  have hfind : ((index.get package.name).find? (·.version = package.version)).isSome ↔
      index.Has package.name package.version := by
    simp only [List.find?_isSome, decide_eq_true_eq, Has]
  rw [← hfind]
  unfold insert
  simp only [insert_existing]
  cases (index.get package.name).find? (·.version = package.version) <;> simp

theorem insert_of_has (h : index.Has package.name package.version) : (index.insert package).2 = index := by
  obtain ⟨other, hother, hversion⟩ := h
  have hmem : package.name ∈ index.packages := by
    by_contra hno
    rw [get, AList.lookup_eq_none.mpr hno] at hother
    exact absurd hother List.not_mem_nil
  obtain ⟨first, hfirst⟩ : ∃ first, (index.get package.name).find? (·.version = package.version) = some first :=
    Option.isSome_iff_exists.mp (List.find?_isSome.mpr ⟨other, hother, by simpa using hversion⟩)
  rw [get] at hfirst
  unfold insert
  simp only [if_pos hmem, hfirst]

instance (index : ModuleIndex) (name : String) (version : Semver.Version) : Decidable (index.Has name version) :=
  inferInstanceAs (Decidable (∃ package ∈ index.get name, package.version = version))

theorem get_insert (index : ModuleIndex) (package : DiscoveredPackage) (name : String) :
    (index.insert package).2.get name =
      if name = package.name ∧ ¬ index.Has package.name package.version then index.get name ++ [package]
      else index.get name := by
  by_cases hhas : index.Has package.name package.version
  · rw [insert_of_has hhas, if_neg fun h => h.2 hhas]
  · have hnone : (index.get package.name).find? (·.version = package.version) = none := by
      apply List.find?_eq_none.mpr
      intro other hother hversion
      exact hhas ⟨other, hother, of_decide_eq_true hversion⟩
    have hpush : (index.insert package).2.packages = HashMap.push package.name package index.packages := by
      unfold insert
      simp only [insert_existing, hnone]
      rfl
    rw [get, hpush, HashMap.lookup_push]
    by_cases hname : name = package.name
    · subst hname
      rw [if_pos rfl, if_pos ⟨rfl, hhas⟩]
      rfl
    · rw [if_neg hname, if_neg fun h => hname h.1]
      rfl

structure Sound (index : ModuleIndex) : Prop where
  named : ∀ name, ∀ package ∈ index.get name, package.name = name
  once : ∀ name, ((index.get name).map (·.version)).Nodup

theorem sound_new : new.Sound where
  named _ _ h := absurd h List.not_mem_nil
  once _ := List.nodup_nil

theorem Sound.insert (h : index.Sound) (package : DiscoveredPackage) : (index.insert package).2.Sound where
  named name other hother := by
    rw [get_insert] at hother
    split_ifs at hother with hnew
    · rcases List.mem_append.mp hother with hother | hother
      · exact h.named name other hother
      · rw [List.mem_singleton.mp hother, hnew.1]
    · exact h.named name other hother
  once name := by
    rw [get_insert]
    split_ifs with hnew
    · rw [List.map_append, List.nodup_append']
      refine ⟨h.once name, List.nodup_singleton _, ?_⟩
      rw [List.map_singleton, List.disjoint_singleton, List.mem_map]
      rintro ⟨other, hother, hversion⟩
      rw [hnew.1] at hother
      exact hnew.2 ⟨other, hother, hversion⟩
    · exact h.once name

/-- The packages of the index in the order that `names` and `get` list them. -/
def listed (index : ModuleIndex) : List DiscoveredPackage := index.packages.keys.flatMap index.get

theorem Sound.listed_nodup (h : index.Sound) : index.listed.Nodup := by
  refine List.nodup_flatMap.mpr ⟨fun name _ => (h.once name).of_map _, ?_⟩
  refine List.Pairwise.imp (fun {a b} hne => ?_) index.packages.keys_nodup
  intro package ha hb
  exact hne ((h.named a package ha).symm.trans (h.named b package hb))

end ModuleIndex
end Nyarix
