import Mathlib.Data.Finset.Union
import Mathlib.Data.Finset.Lattice.Basic
import Nyarix.Lib.UnixPath

/-! A disk, as the calls that make directories and write files see it. A call does what it
is asked to unless a fault stops it half-way; what a host refuses is a fault, too. -/

inductive ErrorKind where
  | notFound | permissionDenied | alreadyExists | invalidInput | invalidData | unexpectedEof | other
  deriving DecidableEq, Repr

/-- An I/O error: one that the host reports by its number, or one made with a message. -/
inductive IoError where
  | os (code : Nat)
  | custom (kind : ErrorKind) (message : String)
  deriving DecidableEq, Repr

/-- The kind of an error, by its number on Linux. -/
def IoError.kind : IoError → ErrorKind
  | .os 2 => .notFound
  | .os 1 | .os 13 => .permissionDenied
  | .os 17 => .alreadyExists
  | .os 22 => .invalidInput
  | .os _ => .other
  | .custom kind _ => kind

/-- A call stops after so many steps: directories made, or the file opened and then bytes
written. -/
structure Fault where
  after : Nat
  error : IoError

structure Disk where
  cwd : Location
  directories : Finset Location
  /-- The files written so far, oldest first; the last entry of a location is its content. -/
  writes : List (Location × ByteArray)
  /-- What befalls the coming calls; later calls succeed. -/
  faults : List (Option Fault)
  cwd_exists : ∀ l, l <+: cwd → l ∈ directories

namespace Disk

def lastWrite (writes : List (Location × ByteArray)) (l : Location) : Option ByteArray :=
  (writes.reverse.find? (·.1 = l)).map Prod.snd

def file (d : Disk) (l : Location) : Option ByteArray := lastWrite d.writes l

inductive Call where
  | createDirAll (path : UnixPath)
  | write (path : UnixPath) (contents : ByteArray)

namespace Call

def path : Call → UnixPath
  | .createDirAll p | .write p _ => p

/-- A path that does not end in a name is one of a directory; no file can be written there. -/
def sound : Call → Bool
  | .createDirAll _ => true
  | .write p _ => p.named

def makes (cwd : Location) : Call → List Location
  | .createDirAll p => p.visited cwd
  | .write _ _ => []

def leaves (cwd : Location) : Call → List (Location × ByteArray)
  | .createDirAll _ => []
  | .write p contents => [(p.locate cwd, contents)]

def leavesAfter (cwd : Location) (after : Nat) : Call → List (Location × ByteArray)
  | .createDirAll _ => []
  | .write p contents => if after = 0 then [] else [(p.locate cwd, contents.extract 0 (after - 1))]

end Call

def put (d : Disk) (made : List Location) (written : List (Location × ByteArray))
    (faults : List (Option Fault)) : Disk :=
  { d with
    directories := d.directories ∪ made.toFinset
    writes := d.writes ++ written
    faults := faults
    cwd_exists := fun l h => Finset.mem_union_left _ (d.cwd_exists l h) }

def withFaults (d : Disk) (faults : List (Option Fault)) : Disk := { d with faults }

def isADirectory : IoError := .os 21

def call (c : Call) (d : Disk) : Except IoError Unit × Disk :=
  if c.sound then
    match d.faults with
    | some fault :: faults =>
      (.error fault.error, d.put ((c.makes d.cwd).take fault.after) (c.leavesAfter d.cwd fault.after) faults)
    | faults => (.ok (), d.put (c.makes d.cwd) (c.leaves d.cwd) faults.tail)
  else (.error isADirectory, d)

def perform : List Call → Disk → Except (UnixPath × IoError) Unit × Disk
  | [], d => (.ok (), d)
  | c :: calls, d =>
    match d.call c with
    | (.error e, d) => (.error (c.path, e), d)
    | (.ok (), d) => perform calls d

def landed (cwd : Location) : List (Option Fault) → List Call → List (Location × ByteArray)
  | _, [] => []
  | some fault :: _, c :: _ => if c.sound then c.leavesAfter cwd fault.after else []
  | faults, c :: calls => if c.sound then c.leaves cwd ++ landed cwd faults.tail calls else []

def Completes (faults : List (Option Fault)) (calls : List Call) : Prop :=
  (∀ c ∈ calls, c.sound) ∧ ∀ f ∈ faults.take calls.length, f = none

variable {d : Disk} {c : Call} {calls : List Call} {cwd l : Location}

theorem perform_append (calls calls' : List Call) (d : Disk) : perform (calls ++ calls') d =
    match perform calls d with
    | (.error e, d) => (.error e, d)
    | (.ok (), d) => perform calls' d := by
  induction calls generalizing d with
  | nil => rfl
  | cons c calls ih =>
    rw [List.cons_append, perform, perform]
    split
    · rfl
    · exact ih _

theorem perform_writes (calls : List Call) (d : Disk) :
    (perform calls d).2.writes = d.writes ++ landed d.cwd d.faults calls := by
  induction calls generalizing d with
  | nil => rw [perform, landed, List.append_nil]
  | cons c calls ih =>
    rw [perform, call]
    by_cases hc : c.sound
    · rw [if_pos hc]
      rcases hf : d.faults with _ | ⟨_ | fault, faults⟩
      · simp only [ih, landed, if_pos hc, put, List.append_assoc]
      · simp only [ih, landed, if_pos hc, put, List.append_assoc, List.tail_cons]
      · simp only [landed, if_pos hc, put]
    · rw [if_neg hc]
      rcases d.faults with _ | ⟨_ | fault, faults⟩ <;> simp only [landed, if_neg hc, List.append_nil]

theorem perform_ok (calls : List Call) (d : Disk) :
    (perform calls d).1 = .ok () ↔ Completes d.faults calls := by
  induction calls generalizing d with
  | nil => simp [perform, Completes]
  | cons c calls ih =>
    rw [perform, call]
    by_cases hc : c.sound
    · rw [if_pos hc]
      rcases hf : d.faults with _ | ⟨_ | fault, faults⟩
      · simp [ih, put, Completes, hc]
      · simp [ih, put, Completes, hc]
      · simp [Completes]
    · rw [if_neg hc]
      simp [Completes, hc]

theorem perform_made (h : l ∈ (perform calls d).2.directories) :
    l ∈ d.directories ∨ ∃ c ∈ calls.takeWhile Call.sound, l ∈ c.makes d.cwd := by
  induction calls generalizing d with
  | nil => exact .inl h
  | cons c calls ih =>
    by_cases hc : c.sound
    · rw [perform, call, if_pos hc] at h
      rw [List.takeWhile_cons_of_pos hc]
      rcases hf : d.faults with _ | ⟨_ | fault, faults⟩ <;> simp only [hf] at h
      case cons.some =>
        refine (Finset.mem_union.mp h).imp_right fun h => ?_
        exact ⟨c, List.mem_cons_self, List.mem_of_mem_take (List.mem_toFinset.mp h)⟩
      all_goals
        rcases ih h with h | ⟨b, hb, h⟩
        · refine (Finset.mem_union.mp h).imp_right fun h => ?_
          exact ⟨c, List.mem_cons_self, List.mem_toFinset.mp h⟩
        · exact .inr ⟨b, List.mem_cons_of_mem c hb, h⟩
    · rw [perform, call, if_neg hc] at h
      exact .inl h

theorem leavesAfter_location {after : Nat} {w : Location × ByteArray} (h : w ∈ c.leavesAfter cwd after) :
    ∃ v ∈ c.leaves cwd, v.1 = w.1 := by
  cases c with
  | createDirAll p => exact absurd h List.not_mem_nil
  | write p contents =>
    refine ⟨(p.locate cwd, contents), List.mem_cons_self, ?_⟩
    by_cases ha : after = 0
    · simp [Call.leavesAfter, ha] at h
    · obtain rfl : w = (p.locate cwd, contents.extract 0 (after - 1)) := by
        simpa [Call.leavesAfter, ha] using h
      rfl

theorem landed_cons (cwd : Location) (faults : List (Option Fault)) (c : Call) (calls : List Call) :
    landed cwd faults (c :: calls) = [] ∨ (∃ after, landed cwd faults (c :: calls) = c.leavesAfter cwd after) ∨
      landed cwd faults (c :: calls) = c.leaves cwd ++ landed cwd faults.tail calls := by
  by_cases hc : c.sound
  · rcases faults with _ | ⟨_ | fault, faults⟩ <;> simp only [landed, if_pos hc]
    case cons.some => exact .inr (.inl ⟨_, rfl⟩)
    all_goals exact .inr (.inr trivial)
  · rcases faults with _ | ⟨_ | fault, faults⟩ <;> exact .inl (by simp only [landed, if_neg hc])

theorem landed_tail {faults : List (Option Fault)} {p q : UnixPath} {contents : ByteArray}
    {w : Location × ByteArray}
    (h : w ∈ (landed cwd faults (.createDirAll p :: .write q contents :: calls)).tail) :
    ∃ faults', w ∈ landed cwd faults' calls := by
  rcases landed_cons cwd faults (.createDirAll p) (.write q contents :: calls) with hd | ⟨after, hd⟩ | hd
  · rw [hd] at h
    exact absurd h List.not_mem_nil
  · rw [hd] at h
    exact absurd h List.not_mem_nil
  · rw [hd, Call.leaves, List.nil_append] at h
    rcases landed_cons cwd faults.tail (.write q contents) calls with hw | ⟨after, hw⟩ | hw
    · rw [hw] at h
      exact absurd h List.not_mem_nil
    · rw [hw, Call.leavesAfter] at h
      split at h <;> exact absurd h List.not_mem_nil
    · rw [hw] at h
      exact ⟨faults.tail.tail, h⟩

theorem landed_location {faults : List (Option Fault)} {w : Location × ByteArray} (h : w ∈ landed cwd faults calls) :
    ∃ c ∈ calls.takeWhile Call.sound, ∃ v ∈ c.leaves cwd, v.1 = w.1 := by
  induction calls generalizing faults with
  | nil => exact absurd h (by simp [landed])
  | cons c calls ih =>
    by_cases hc : c.sound
    · rw [List.takeWhile_cons_of_pos hc]
      rcases faults with _ | ⟨_ | fault, faults⟩ <;> simp only [landed, if_pos hc] at h
      case cons.some => exact ⟨c, List.mem_cons_self, leavesAfter_location h⟩
      all_goals
        rcases List.mem_append.mp h with h | h
        · exact ⟨c, List.mem_cons_self, w, h, rfl⟩
        · obtain ⟨b, hb, hw⟩ := ih h
          exact ⟨b, List.mem_cons_of_mem c hb, hw⟩
    · rcases faults with _ | ⟨_ | fault, faults⟩ <;>
        simp only [landed, if_neg hc, List.not_mem_nil] at h

theorem landed_nil (cwd : Location) (calls : List Call) :
    landed cwd [] calls = (calls.takeWhile Call.sound).flatMap (Call.leaves cwd) := by
  induction calls with
  | nil => rfl
  | cons c calls ih =>
    by_cases hc : c.sound
    · simp only [landed, if_pos hc, List.tail_nil, ih, List.takeWhile_cons_of_pos hc, List.flatMap_cons]
    · simp only [landed, if_neg hc, List.takeWhile_cons_of_neg hc, List.flatMap_nil]

theorem perform_kept (calls : List Call) (d : Disk) : d.directories ⊆ (perform calls d).2.directories := by
  induction calls generalizing d with
  | nil => exact Finset.Subset.refl _
  | cons c calls ih =>
    have hstep : d.directories ⊆ (d.call c).2.directories := by
      unfold call
      split
      · split <;> exact Finset.subset_union_left
      · exact Finset.Subset.refl _
    rcases h : d.call c with ⟨_ | _, d'⟩ <;> rw [h] at hstep <;> simp only [perform, h]
    · exact hstep
    · exact hstep.trans (ih d')

theorem perform_directories (h : d.faults = []) {l : Location} (hc : c ∈ calls.takeWhile Call.sound)
    (hl : l ∈ c.makes d.cwd) : l ∈ (perform calls d).2.directories := by
  induction calls generalizing d with
  | nil => exact absurd hc List.not_mem_nil
  | cons b calls ih =>
    by_cases hb : b.sound
    · have hcall : d.call b = (.ok (), d.put (b.makes d.cwd) (b.leaves d.cwd) []) := by
        rw [call, if_pos hb, h]
        rfl
      rw [List.takeWhile_cons_of_pos hb] at hc
      rw [perform, hcall]
      rcases List.mem_cons.mp hc with rfl | hc
      · exact perform_kept calls _ (Finset.mem_union_right _ (List.mem_toFinset.mpr hl))
      · exact ih (d := d.put _ _ []) rfl hc hl
    · rw [List.takeWhile_cons_of_neg hb] at hc
      exact absurd hc List.not_mem_nil

theorem lastWrite_append (ws vs : List (Location × ByteArray)) (l : Location) :
    lastWrite (ws ++ vs) l = (lastWrite vs l).or (lastWrite ws l) := by
  rw [lastWrite, List.reverse_append, List.find?_append, Option.map_or]
  rfl

theorem perform_file (calls : List Call) (d : Disk) (l : Location) : (perform calls d).2.file l = d.file l ↔
    ∀ contents ∈ lastWrite (landed d.cwd d.faults calls) l, d.file l = some contents := by
  rw [file, perform_writes, lastWrite_append]
  cases lastWrite (landed d.cwd d.faults calls) l with
  | none => simp [file]
  | some contents => simp [file, eq_comm]

end Disk
