import Mathlib.Data.Char
import Mathlib.Data.List.Infix
import Mathlib.Data.List.Lex
import Mathlib.Data.Prod.Lex
import Nyarix.Lib.Framing

/-! Semantic versions and their text. -/

namespace Semver

/-- The text of a pre-release or of build metadata: identifiers with dots between them. -/
structure Identifiers where
  text : List Char
  valid : ∀ c ∈ text, c.isAlphanum ∨ c = '-' ∨ c = '.'
  deriving DecidableEq

def Identifiers.empty : Identifiers := ⟨[], List.forall_mem_nil _⟩

structure Version where
  major : UInt64
  minor : UInt64
  patch : UInt64
  pre : Identifiers
  build : Identifiers
  deriving DecidableEq

namespace Version

def new (major minor patch : UInt64) : Version := ⟨major, minor, patch, .empty, .empty⟩

def marked (mark : Char) (ids : Identifiers) : List Char := if ids.text = [] then [] else mark :: ids.text

def text (v : Version) : List Char :=
  Nat.toDigits 10 v.major.toNat ++ '.' :: (Nat.toDigits 10 v.minor.toNat ++
    '.' :: (Nat.toDigits 10 v.patch.toNat ++ (marked '-' v.pre ++ marked '+' v.build)))

instance : ToString Version := ⟨fun v => String.ofList v.text⟩

theorem isDigit_of_mem_toDigits {c : Char} {n : Nat} (h : c ∈ Nat.toDigits 10 n) : c.isDigit :=
  Nat.isDigit_of_mem_toDigits (by decide) (by decide) h

theorem dot_notMem_toDigits (n : Nat) : '.' ∉ Nat.toDigits 10 n :=
  fun h => absurd (isDigit_of_mem_toDigits h) (by decide)

theorem toDigits_injective : Function.Injective (Nat.toDigits 10) := by
  intro n m h
  rw [← Nat.ofDigitChars_ten_toDigits (n := n), h, Nat.ofDigitChars_ten_toDigits]

theorem mem_marked {mark c : Char} {ids : Identifiers} (h : c ∈ marked mark ids) : c = mark ∨ c ∈ ids.text := by
  unfold marked at h
  split_ifs at h
  · exact absurd h List.not_mem_nil
  · exact List.mem_cons.mp h

theorem marked_injective (mark : Char) : Function.Injective (marked mark) := by
  rintro ⟨text, _⟩ ⟨text', _⟩ h
  unfold marked at h
  dsimp only at h
  rw [Identifiers.mk.injEq]
  split_ifs at h with hnil hnil' hnil'
  · rw [hnil, hnil']
  · exact (List.cons.inj h).2

theorem takeWhile_isDigit (n : Nat) (pre build : Identifiers) :
    (Nat.toDigits 10 n ++ (marked '-' pre ++ marked '+' build)).takeWhile Char.isDigit = Nat.toDigits 10 n := by
  have hmarks : (marked '-' pre ++ marked '+' build).takeWhile Char.isDigit = [] := by
    unfold marked
    split_ifs <;> rfl
  rw [List.takeWhile_append_of_pos fun c hc => isDigit_of_mem_toDigits hc, hmarks, List.append_nil]

theorem takeWhile_pre (pre build : Identifiers) :
    (marked '-' pre ++ marked '+' build).takeWhile (· ≠ '+') = marked '-' pre := by
  have hpre : ∀ c ∈ marked '-' pre, decide (c ≠ '+') = true := by
    intro c hc
    rw [decide_eq_true_eq]
    rintro rfl
    rcases mem_marked hc with heq | hmem
    · exact absurd heq (by decide)
    · exact absurd (pre.valid _ hmem) (by decide)
  have hbuild : (marked '+' build).takeWhile (· ≠ '+') = [] := by
    unfold marked
    split_ifs <;> rfl
  rw [List.takeWhile_append_of_pos hpre, hbuild, List.append_nil]

theorem text_injective : Function.Injective text := by
  rintro ⟨major, minor, patch, pre, build⟩ ⟨major', minor', patch', pre', build'⟩ h
  unfold text at h
  obtain ⟨hmajor, h⟩ := (Framing.mark_inj (dot_notMem_toDigits _) (dot_notMem_toDigits _)).mp h
  obtain ⟨hminor, h⟩ := (Framing.mark_inj (dot_notMem_toDigits _) (dot_notMem_toDigits _)).mp h
  have hpatch := congrArg (List.takeWhile Char.isDigit) h
  rw [takeWhile_isDigit, takeWhile_isDigit] at hpatch
  rw [hpatch] at h
  have hmarks := List.append_cancel_left h
  have hpre := congrArg (List.takeWhile (· ≠ '+')) hmarks
  rw [takeWhile_pre, takeWhile_pre] at hpre
  rw [hpre] at hmarks
  have hbuild := List.append_cancel_left hmarks
  rw [Version.mk.injEq, ← UInt64.toNat_inj, ← UInt64.toNat_inj, ← UInt64.toNat_inj]
  exact ⟨toDigits_injective hmajor, toDigits_injective hminor, toDigits_injective hpatch,
    marked_injective '-' hpre, marked_injective '+' hbuild⟩

def key (v : Version) : ℕ ×ₗ ℕ ×ₗ ℕ ×ₗ List Char ×ₗ List Char :=
  toLex (v.major.toNat, toLex (v.minor.toNat, toLex (v.patch.toNat, toLex (v.pre.text, v.build.text))))

theorem key_injective : Function.Injective key := by
  rintro ⟨major, minor, patch, ⟨pre, _⟩, ⟨build, _⟩⟩ ⟨major', minor', patch', ⟨pre', _⟩, ⟨build', _⟩⟩ h
  have hkey := congrArg ofLex h
  simp only [key, ofLex_toLex, Prod.mk.injEq, EmbeddingLike.apply_eq_iff_eq, UInt64.toNat_inj] at hkey
  obtain ⟨rfl, rfl, rfl, rfl, rfl⟩ := hkey
  rfl

/-- Versions by their numbers, and those of the same numbers by the text of their marks. -/
abbrev numericOrder : LinearOrder Version := LinearOrder.lift' key key_injective

end Version

/-- A requirement on a version, as its text; which versions it matches is left to the reader of it. -/
structure VersionReq where
  text : String
  deriving DecidableEq, Repr

end Semver
