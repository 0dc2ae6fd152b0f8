import Nyarix.Lib.Numeral
import Nyarix.Package.Manifest

/-! The text of a Module API version, as it stands in a manifest, and which module is loaded for a version. -/

namespace Nyarix
open Numeral (Denotes)

structure ApiVersionParseError where
  input : String
  deriving DecidableEq, Repr

def splitOnce (sep : Char) : List Char → Option (List Char × List Char)
  | [] => none
  | c :: cs => if c = sep then some ([], cs) else (splitOnce sep cs).map fun parts => (c :: parts.1, parts.2)

namespace ApiVersion

def text (v : ApiVersion) : List Char := Nat.toDigits 10 v.major.toNat ++ '.' :: Nat.toDigits 10 v.minor.toNat

instance : ToString ApiVersion := ⟨fun v => String.ofList v.text⟩

def parseU16 (cs : List Char) : Option UInt16 := (Numeral.parse (2 ^ 16) cs).map UInt16.ofNat

/-- Parse the form `major.minor`; whatever goes wrong, the error holds the whole input. -/
def fromStr (input : String) : Except ApiVersionParseError ApiVersion :=
  match splitOnce '.' input.toList with
  | none => .error ⟨input⟩
  | some (major, minor) =>
    match parseU16 major with
    | none => .error ⟨input⟩
    | some major =>
      match parseU16 minor with
      | none => .error ⟨input⟩
      | some minor => .ok ⟨major, minor⟩

end ApiVersion

theorem splitOnce_eq_some {sep : Char} {cs front back : List Char} :
    splitOnce sep cs = some (front, back) ↔ cs = front ++ sep :: back ∧ sep ∉ front := by
  induction cs generalizing front with
  | nil => simp [splitOnce]
  | cons c cs ih =>
    rw [splitOnce]
    split_ifs with hc
    · subst hc
      rw [Option.some.injEq, Prod.mk.injEq]
      constructor
      · rintro ⟨rfl, rfl⟩
        exact ⟨rfl, List.not_mem_nil⟩
      · rintro ⟨heq, hfront⟩
        cases front with
        | nil => exact ⟨rfl, (List.cons.inj heq).2⟩
        | cons d front => exact absurd ((List.cons.inj heq).1 ▸ List.mem_cons_self) hfront
    · rw [Option.map_eq_some_iff]
      constructor
      · rintro ⟨⟨front', back'⟩, hsplit, heq⟩
        obtain ⟨rfl, rfl⟩ := Prod.mk.inj heq
        obtain ⟨rfl, hfront⟩ := ih.mp hsplit
        exact ⟨rfl, fun hmem => (List.mem_cons.mp hmem).elim (fun h => hc h.symm) hfront⟩
      · rintro ⟨heq, hfront⟩
        cases front with
        | nil => exact absurd (List.cons.inj heq).1 hc
        | cons d front =>
          obtain ⟨rfl, rfl⟩ := List.cons.inj heq
          exact ⟨(front, back), ih.mpr ⟨rfl, fun hmem => hfront (List.mem_cons_of_mem _ hmem)⟩, rfl⟩

theorem dot_notMem_of_denotes {cs : List Char} {n : Nat} (h : Denotes cs n) : '.' ∉ cs := by
  intro hmem
  cases h with
  | plain hne hdigits => exact absurd (hdigits '.' hmem) (by decide)
  | plus hne hdigits =>
    rcases List.mem_cons.mp hmem with heq | hmem
    · exact absurd heq (by decide)
    · exact absurd (hdigits '.' hmem) (by decide)

namespace ApiVersion

theorem parseU16_eq_some {cs : List Char} {n : UInt16} : parseU16 cs = some n ↔ Denotes cs n.toNat := by
  rw [parseU16, Option.map_eq_some_iff]
  constructor
  · rintro ⟨m, hm, rfl⟩
    obtain ⟨hdenotes, hlt⟩ := (Numeral.parse_eq_some (by decide)).mp hm
    rwa [UInt16.toNat_ofNat_of_lt' hlt]
  · intro h
    exact ⟨n.toNat, (Numeral.parse_eq_some (by decide)).mpr ⟨h, n.toNat_lt⟩, UInt16.ofNat_toNat⟩

def Spells (cs : List Char) (v : ApiVersion) : Prop :=
  ∃ major minor, cs = major ++ '.' :: minor ∧ Denotes major v.major.toNat ∧ Denotes minor v.minor.toNat

theorem spells_text (v : ApiVersion) : Spells v.text v :=
  ⟨_, _, rfl, Numeral.denotes_toDigits _, Numeral.denotes_toDigits _⟩

theorem fromStr_eq_ok {input : String} {v : ApiVersion} : fromStr input = .ok v ↔ Spells input.toList v := by
  unfold fromStr
  constructor
  · intro h
    split at h
    · cases h
    next major minor hsplit =>
    split at h
    · cases h
    next m hmajor =>
    split at h
    · cases h
    next n hminor =>
    obtain rfl := Except.ok.inj h
    exact ⟨major, minor, (splitOnce_eq_some.mp hsplit).1, parseU16_eq_some.mp hmajor, parseU16_eq_some.mp hminor⟩
  · rintro ⟨major, minor, heq, hmajor, hminor⟩
    rw [splitOnce_eq_some.mpr ⟨heq, dot_notMem_of_denotes hmajor⟩]
    dsimp only
    rw [parseU16_eq_some.mpr hmajor, parseU16_eq_some.mpr hminor]

theorem fromStr_eq_error {input : String} {e : ApiVersionParseError} (h : fromStr input = .error e) : e = ⟨input⟩ := by
  unfold fromStr at h
  split at h
  · exact (Except.error.inj h).symm
  split at h
  · exact (Except.error.inj h).symm
  split at h
  · exact (Except.error.inj h).symm
  · cases h

theorem Spells.length_le {cs : List Char} {v : ApiVersion} (h : Spells cs v) : v.text.length ≤ cs.length := by
  obtain ⟨major, minor, rfl, hmajor, hminor⟩ := h
  unfold text
  rw [List.length_append, List.length_append]
  exact Nat.add_le_add hmajor.length_le (Nat.succ_le_succ hminor.length_le)

theorem Spells.eq_text {cs : List Char} {v : ApiVersion} (h : Spells cs v) (hlength : cs.length = v.text.length) :
    cs = v.text := by
  obtain ⟨major, minor, rfl, hmajor, hminor⟩ := h
  unfold text at hlength ⊢
  rw [List.length_append, List.length_append, List.length_cons, List.length_cons] at hlength
  have hle := hmajor.length_le
  have hle' := hminor.length_le
  rw [hmajor.eq_toDigits (by omega), hminor.eq_toDigits (by omega)]

/-- A version is read back from its text; the texts that are read as a version are those that spell it, of which
the one it is displayed as is the shortest, and the only one as short; and an error holds the input. -/
theorem api_version_text (input : String) (v : ApiVersion) :
    fromStr (toString v) = .ok v ∧
    (fromStr input = .ok v ↔ ∃ major minor, input.toList = major ++ '.' :: minor ∧ Denotes major v.major.toNat ∧
      Denotes minor v.minor.toNat) ∧
    (fromStr input = .ok v → (toString v).length ≤ input.length ∧
      (input.length = (toString v).length → input = toString v)) ∧
    ∀ e, fromStr input = .error e → e.input = input := by
  have htext : (toString v).toList = v.text := String.toList_ofList
  refine ⟨?_, fromStr_eq_ok, fun h => ⟨?_, fun hlength => ?_⟩, fun e he => ?_⟩
  · rw [fromStr_eq_ok, htext]
    exact spells_text v
  · have hle := (fromStr_eq_ok.mp h).length_le
    rwa [← htext, String.length_toList, String.length_toList] at hle
  · rw [← String.length_toList, ← String.length_toList, htext] at hlength
    have heq := (fromStr_eq_ok.mp h).eq_text hlength
    rw [← htext] at heq
    exact String.toList_inj.mp heq
  · rw [fromStr_eq_error he]

end ApiVersion

inductive Resolution where
  | exactMatch (name : String)
  | compatibleVersion (name : String)
  | fallback (name : String)
  | incompatible
  deriving DecidableEq, Repr

def resolve (required : ApiVersion) (candidates : List (String × ApiVersion)) (fallback : Option String) : Resolution :=
  match candidates.find? fun candidate => candidate.2 = required with
  | some candidate => .exactMatch candidate.1
  | none =>
    match candidates.find? fun candidate => isCompatible required candidate.2 with
    | some candidate => .compatibleVersion candidate.1
    | none =>
      match fallback with
      | some name => .fallback name
      | none => .incompatible

def Resolution.rank : Resolution → Nat
  | .exactMatch _ => 0
  | .compatibleVersion _ => 1
  | .fallback _ => 2
  | .incompatible => 3

theorem resolve_rank (required : ApiVersion) (candidates : List (String × ApiVersion)) (fallback : Option String) :
    (resolve required candidates fallback).rank = if ∃ candidate ∈ candidates, candidate.2 = required then 0
      else if ∃ candidate ∈ candidates, isCompatible required candidate.2 = true then 1
      else if fallback.isSome then 2 else 3 := by
  unfold resolve
  cases hexact : candidates.find? fun candidate => decide (candidate.2 = required) with
  | some candidate =>
    rw [if_pos ⟨candidate, List.mem_of_find?_eq_some hexact, by simpa using List.find?_some hexact⟩]
    rfl
  | none =>
    have hno : ¬ ∃ candidate ∈ candidates, candidate.2 = required := by
      rintro ⟨c, hc, heq⟩
      exact List.find?_eq_none.mp hexact c hc (decide_eq_true heq)
    rw [if_neg hno]
    cases hcompatible : candidates.find? fun candidate => isCompatible required candidate.2 with
    | some candidate =>
      rw [if_pos ⟨candidate, List.mem_of_find?_eq_some hcompatible, by simpa using List.find?_some hcompatible⟩]
      rfl
    | none =>
      have hnone : ¬ ∃ candidate ∈ candidates, isCompatible required candidate.2 = true := by
        rintro ⟨c, hc, heq⟩
        exact List.find?_eq_none.mp hcompatible c hc heq
      rw [if_neg hnone]
      cases fallback with
      | some name => rfl
      | none => rfl

/-- More candidates, in whatever order, never make the answer worse. -/
theorem resolve_antitone (required : ApiVersion) {candidates more : List (String × ApiVersion)} (h : candidates ⊆ more)
    (fallback : Option String) : (resolve required more fallback).rank ≤ (resolve required candidates fallback).rank := by
  have hmono (P : String × ApiVersion → Prop) : (∃ c ∈ candidates, P c) → ∃ c ∈ more, P c := by
    rintro ⟨c, hc, hp⟩
    exact ⟨c, h hc, hp⟩
  have hexact := hmono fun c => c.2 = required
  have hcompatible := hmono fun c => isCompatible required c.2 = true
  rw [resolve_rank, resolve_rank]
  split_ifs
  all_goals first | decide | exact absurd (hexact ‹_›) ‹_› | exact absurd (hcompatible ‹_›) ‹_›

end Nyarix
