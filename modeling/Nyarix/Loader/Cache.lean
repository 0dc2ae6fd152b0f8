import Nyarix.Lib.Collection
import Nyarix.Lib.Fold
import Nyarix.Lib.Semver
import Nyarix.Lib.StableSort
import Nyarix.Lib.UnixPath

/-! The index of installed packages. Recording replaces the entry of the same name and version;
evicting takes out the oldest entries until the rest fits. -/

namespace Nyarix
open Semver (Version)

structure CacheEntry where
  name : String
  version : Version
  path : UnixPath
  installedAt : Int
  sizeBytes : UInt64
  deriving DecidableEq

structure PackageCache where
  entries : List CacheEntry

/-- What an eviction returns, the directories it removes from the disk, and the index it leaves. -/
structure Eviction where
  evicted : List CacheEntry
  removedDirs : List UnixPath
  cache : PackageCache

def CacheEntry.same (e e' : CacheEntry) : Bool := e.name = e'.name ∧ e.version = e'.version

def totalSize (entries : List CacheEntry) : UInt64 := entries.foldl (fun total entry => total + entry.sizeBytes) 0

/-- Take entries off the front for as long as the rest is too large. -/
def evict (maxBytes : UInt64) : List CacheEntry → List CacheEntry × List CacheEntry
  | [] => ([], [])
  | removed :: entries =>
    if totalSize (removed :: entries) > maxBytes then
      (removed :: (evict maxBytes entries).1, (evict maxBytes entries).2)
    else ([], removed :: entries)

namespace PackageCache

def new : PackageCache := ⟨[]⟩

def record (cache : PackageCache) (entry : CacheEntry) : PackageCache :=
  ⟨cache.entries.filter (fun existing => ¬ existing.same entry) ++ [entry]⟩

def evictToFit (cache : PackageCache) (maxBytes : UInt64) : Eviction :=
  let (evicted, entries) := evict maxBytes (StableSort.sort CacheEntry.installedAt cache.entries)
  ⟨evicted, evicted.filterMap (·.path.parent), ⟨entries⟩⟩

def size (cache : PackageCache) : Nat := Tally.sumOver (fun entry : CacheEntry => entry.sizeBytes.toNat) cache.entries

end PackageCache

inductive CacheCall where
  | record (entry : CacheEntry)
  | evictToFit (maxBytes : UInt64)

def PackageCache.step (cache : PackageCache) : CacheCall → PackageCache
  | .record entry => cache.record entry
  | .evictToFit maxBytes => (cache.evictToFit maxBytes).cache

def PackageCache.Unique (cache : PackageCache) : Prop :=
  cache.entries.Pairwise fun e e' => e.same e' = false

structure Records (before : PackageCache) (entry : CacheEntry) (after : PackageCache) : Prop where
  recorded : after.entries.filter (·.same entry) = [entry]
  others : after.entries.filter (fun e => ¬ e.same entry) = before.entries.filter fun e => ¬ e.same entry

/-- The evicted entries are the fewest of the oldest that leave the rest within the limit. -/
structure Evicts (before : PackageCache) (maxBytes : UInt64) (eviction : Eviction) : Prop where
  sorted : StableSort.Sorts CacheEntry.installedAt before.entries (eviction.evicted ++ eviction.cache.entries)
  fits : eviction.cache.size ≤ maxBytes.toNat
  fewest : ∀ n < eviction.evicted.length,
    maxBytes.toNat < PackageCache.size ⟨(eviction.evicted ++ eviction.cache.entries).drop n⟩
  oldest : ∀ e ∈ eviction.evicted, ∀ kept ∈ eviction.cache.entries, e.installedAt ≤ kept.installedAt
  removed : eviction.removedDirs = eviction.evicted.filterMap (·.path.parent)

def PackageCache.Does (cache : PackageCache) : CacheCall → Prop
  | .record entry => Records cache entry (cache.record entry)
  | .evictToFit maxBytes => Evicts cache maxBytes (cache.evictToFit maxBytes)

theorem foldl_sizes (entries : List CacheEntry) (total : UInt64) :
    (entries.foldl (fun total entry => total + entry.sizeBytes) total).toNat =
      (total.toNat + Tally.sumOver (fun entry : CacheEntry => entry.sizeBytes.toNat) entries) % 2 ^ 64 := by
  induction entries generalizing total with
  | nil =>
    have hlt := total.toNat_lt
    simp only [List.foldl_nil, Tally.sumOver_nil]
    omega
  | cons entry entries ih =>
    rw [List.foldl_cons, ih, UInt64.toNat_add, Tally.sumOver_cons]
    omega

theorem totalSize_toNat {entries : List CacheEntry} (h : PackageCache.size ⟨entries⟩ < 2 ^ 64) :
    (totalSize entries).toNat = PackageCache.size ⟨entries⟩ := by
  rw [totalSize, foldl_sizes]
  change (0 + PackageCache.size ⟨entries⟩) % 2 ^ 64 = _
  omega

theorem size_cons (entry : CacheEntry) (entries : List CacheEntry) :
    PackageCache.size ⟨entry :: entries⟩ = entry.sizeBytes.toNat + PackageCache.size ⟨entries⟩ := rfl

theorem size_perm {entries entries' : List CacheEntry} (h : entries.Perm entries') :
    PackageCache.size ⟨entries⟩ = PackageCache.size ⟨entries'⟩ := (h.map _).sum_eq

theorem evict_append (maxBytes : UInt64) (entries : List CacheEntry) :
    (evict maxBytes entries).1 ++ (evict maxBytes entries).2 = entries := by
  induction entries with
  | nil => rfl
  | cons entry entries ih =>
    unfold evict
    split_ifs
    · exact congrArg (entry :: ·) ih
    · rfl

theorem evict_fits (maxBytes : UInt64) {entries : List CacheEntry} (h : PackageCache.size ⟨entries⟩ < 2 ^ 64) :
    PackageCache.size ⟨(evict maxBytes entries).2⟩ ≤ maxBytes.toNat ∧
      ∀ n < (evict maxBytes entries).1.length, maxBytes.toNat < PackageCache.size ⟨entries.drop n⟩ := by
  induction entries with
  | nil => exact ⟨Nat.zero_le _, fun n hn => absurd hn (Nat.not_lt_zero n)⟩
  | cons entry entries ih =>
    have hsize := totalSize_toNat h
    rw [size_cons] at h
    unfold evict
    split_ifs with hlarge
    · obtain ⟨hfits, hfewest⟩ := ih (by omega)
      refine ⟨hfits, fun n hn => ?_⟩
      cases n with
      | zero =>
        rw [List.drop_zero, ← hsize]
        exact UInt64.lt_iff_toNat_lt.mp hlarge
      | succ n => exact hfewest n (Nat.succ_lt_succ_iff.mp hn)
    · refine ⟨?_, fun n hn => absurd hn (Nat.not_lt_zero n)⟩
      rw [← hsize]
      exact not_lt.mp fun hlt => hlarge (UInt64.lt_iff_toNat_lt.mpr hlt)

theorem evictToFit_evicts {cache : PackageCache} (h : cache.size < 2 ^ 64) (maxBytes : UInt64) :
    Evicts cache maxBytes (cache.evictToFit maxBytes) := by
  have hsorts := StableSort.sorts_sort CacheEntry.installedAt cache.entries
  have happend := evict_append maxBytes (StableSort.sort CacheEntry.installedAt cache.entries)
  have hsize : PackageCache.size ⟨StableSort.sort CacheEntry.installedAt cache.entries⟩ < 2 ^ 64 := by
    rwa [size_perm hsorts.perm]
  obtain ⟨hfits, hfewest⟩ := evict_fits maxBytes hsize
  have hascending := hsorts.ascending
  rw [← happend, List.pairwise_append] at hascending
  refine ⟨?_, hfits, fun n hn => ?_, hascending.2.2, rfl⟩
  · exact happend.symm ▸ hsorts
  · exact happend.symm ▸ hfewest n hn

theorem CacheEntry.same_symm (e e' : CacheEntry) : e.same e' = e'.same e := by
  simp only [CacheEntry.same, eq_comm]

theorem record_records (cache : PackageCache) (entry : CacheEntry) : Records cache entry (cache.record entry) := by
  have hself : entry.same entry = true := by simp [CacheEntry.same]
  constructor
  · simp [PackageCache.record, List.filter_append, List.filter_filter, hself]
  · simp [PackageCache.record, List.filter_append, List.filter_filter, hself]

theorem unique_record {cache : PackageCache} (h : cache.Unique) (entry : CacheEntry) : (cache.record entry).Unique := by
  refine List.pairwise_append.mpr ⟨h.filter _, List.pairwise_singleton _ _, fun e he e' he' => ?_⟩
  rw [List.mem_singleton.mp he']
  simpa using (List.mem_filter.mp he).2

theorem unique_evictToFit {cache : PackageCache} (h : cache.Unique) (maxBytes : UInt64) :
    (cache.evictToFit maxBytes).cache.Unique := by
  have hsorts := StableSort.sorts_sort CacheEntry.installedAt cache.entries
  have hsorted : (StableSort.sort CacheEntry.installedAt cache.entries).Pairwise fun e e' => e.same e' = false :=
    hsorts.perm.symm.pairwise h fun {e e'} hsame => (CacheEntry.same_symm e' e).trans hsame
  rw [← evict_append maxBytes (StableSort.sort _ _), List.pairwise_append] at hsorted
  exact hsorted.2.1

theorem unique_step {cache : PackageCache} (h : cache.Unique) (call : CacheCall) : (cache.step call).Unique := by
  cases call with
  | record entry => exact unique_record h entry
  | evictToFit maxBytes => exact unique_evictToFit h maxBytes

/-- Whatever is recorded and evicted, no name and version is listed twice, recording keeps the other
entries, and evicting takes out the shortest run of oldest entries that leaves the rest within the limit. -/
theorem cache_evicts_exactly (calls : List CacheCall)
    (hsizes : Fold.Throughout PackageCache.step (fun cache => cache.size < 2 ^ 64) .new calls) :
    Fold.Throughout PackageCache.step PackageCache.Unique .new calls ∧
      Fold.Along PackageCache.step PackageCache.Does .new calls := by
  constructor
  · have hnew : PackageCache.new.Unique := List.Pairwise.nil
    exact fun before _ => Fold.foldl_invariant (I := PackageCache.Unique) (fun _ call h => unique_step h call) hnew before
  · intro before call hprefix
    cases call with
    | record entry => exact record_records _ entry
    | evictToFit maxBytes => exact evictToFit_evicts (hsizes before ((List.prefix_append _ _).trans hprefix)) maxBytes

def stubEntry (version : UInt64) (sizeBytes : UInt64) : CacheEntry :=
  ⟨"relay", .new version 0 0, .new "cache/relay/package.nyp", 0, sizeBytes⟩

def stubCalls : List CacheCall := [.record (stubEntry 1 7), .record (stubEntry 2 5), .evictToFit 6]

theorem cache_evicts_exactly_stub :
    Fold.Throughout PackageCache.step PackageCache.Unique .new stubCalls ∧
      Fold.Along PackageCache.step PackageCache.Does .new stubCalls := by
  apply cache_evicts_exactly
  intro before hprefix
  rw [← List.mem_inits] at hprefix
  simp only [stubCalls, List.inits, List.map_cons, List.map_nil, List.mem_cons, List.not_mem_nil, or_false] at hprefix
  rcases hprefix with rfl | rfl | rfl | rfl <;> decide

end Nyarix
