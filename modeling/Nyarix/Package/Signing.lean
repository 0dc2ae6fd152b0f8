import Mathlib.Data.List.Sort
import Mathlib.Data.Multiset.Basic
import Mathlib.Data.String.Basic
import Nyarix.Lib.Framing
import Nyarix.Package.Archive

/-! The bytes that a package's signature covers, and Ed25519 over them. -/

namespace Nyarix

def signatureMemberPath : String := "signatures/ed25519.sig"

def publicKeyMemberPath : String := "signatures/ed25519.pub"

abbrev Entry := String × ByteArray

/-- An unstable sort by path; it leaves the order of entries with the same path open. -/
structure SortByPath where
  sort : List Entry → List Entry
  perm : ∀ l, (sort l).Perm l
  sorted : ∀ l, (sort l).Pairwise fun a b => a.1 ≤ b.1

def insertionSortByPath : SortByPath where
  sort := List.insertionSort fun a b => a.1 ≤ b.1
  perm := List.perm_insertionSort _
  sorted l :=
    have : Std.Total fun a b : Entry => a.1 ≤ b.1 := ⟨fun a b => le_total a.1 b.1⟩
    have : IsTrans Entry fun a b => a.1 ≤ b.1 := ⟨fun _ _ _ => le_trans⟩
    List.pairwise_insertionSort _ l

def signed (entries : List Entry) : List Entry :=
  entries.filter fun e => ¬ PackageMember.signatures.path.toList <+: e.1.toList

def utf8 (s : String) : List UInt8 := s.toByteArray.data.toList

/-- Each entry is its path with a NUL after it, its length as a little-endian 64-bit number,
and its contents. -/
def signableBytes (s : SortByPath) (entries : List Entry) : List UInt8 :=
  (s.sort (signed entries)).flatMap fun e =>
    utf8 e.1 ++ 0 :: (Framing.leBytes 8 (UInt64.ofNat e.2.size).toNat ++ e.2.data.toList)

abbrev Bytes (n : Nat) := {b : ByteArray // b.size = n}

instance {n : Nat} : DecidableEq (Bytes n) := @Subtype.instDecidableEq ByteArray _ ByteArray.instDecidableEq

def asArray (b : ByteArray) (n : Nat) : Option (Bytes n) := if h : b.size = n then some ⟨b, h⟩ else none

structure Ed25519 where
  VerifyingKey : Type
  fromBytes : Bytes 32 → Option VerifyingKey
  toBytes : VerifyingKey → Bytes 32
  verify : VerifyingKey → List UInt8 → Bytes 64 → Bool

def lengthField (n : Nat) : List UInt8 := Framing.leBytes 8 (UInt64.ofNat n).toNat

theorem utf8_injective : Function.Injective utf8 := by
  intro a b h
  refine String.toByteArray_inj.mp (ByteArray.ext ?_)
  exact Array.toList_inj.mp h

theorem lengthField_inj {n m : Nat} (hn : n < 2 ^ 64) (hm : m < 2 ^ 64) (h : lengthField n = lengthField m) : n = m := by
  have hbound : ∀ k : UInt64, k.toNat < 256 ^ 8 := UInt64.toNat_lt
  have heq := Framing.leBytes_inj (hbound _) (hbound _) h
  rwa [UInt64.toNat_ofNat_of_lt' hn, UInt64.toNat_ofNat_of_lt' hm] at heq

def record (e : Entry) : String × List UInt8 := (e.1, e.2.data.toList)

theorem record_injective : Function.Injective record := by
  intro a b h
  obtain ⟨hpath, hdata⟩ := Prod.mk.inj h
  exact Prod.ext hpath (ByteArray.ext (Array.toList_inj.mp hdata))

theorem signableBytes_eq (s : SortByPath) (entries : List Entry) : signableBytes s entries =
    ((s.sort (signed entries)).map record).flatMap (Framing.frame utf8 0 lengthField) := by
  rw [signableBytes, List.flatMap_map]
  rfl

/-- One path goes on, after a NUL, where the other ends. -/
def NulContinues (p q : String) : Prop := Framing.Continues utf8 0 p q

instance (p q : String) : Decidable (NulContinues p q) := inferInstanceAs (Decidable (_ <+: _))

/-- The signed bytes determine the signed entries of two packages in which no path continues a
path of the other after a NUL. -/
theorem signable_bytes_determine (s : SortByPath) {a b : List Entry}
    (ha : ∀ e ∈ a, e.2.size < 2 ^ 64) (hb : ∀ e ∈ b, e.2.size < 2 ^ 64)
    (hnul : ∀ e ∈ signed a, ∀ e' ∈ signed b, ¬ NulContinues e.1 e'.1 ∧ ¬ NulContinues e'.1 e.1)
    (h : signableBytes s a = signableBytes s b) : (signed a : Multiset Entry) = signed b := by
  have hmem : ∀ {l : List Entry} {r : String × List UInt8}, r ∈ (s.sort (signed l)).map record →
      ∃ e ∈ signed l, record e = r := by
    intro l r hr
    obtain ⟨e, he, hrecord⟩ := List.mem_map.mp hr
    exact ⟨e, (s.perm _).mem_iff.mp he, hrecord⟩
  have hsize : ∀ {l : List Entry}, (∀ e ∈ l, e.2.size < 2 ^ 64) →
      ∀ r ∈ (s.sort (signed l)).map record, r.2.length < 2 ^ 64 := by
    intro l hl r hr
    obtain ⟨e, he, rfl⟩ := hmem hr
    exact hl e (List.mem_of_mem_filter he)
  rw [signableBytes_eq, signableBytes_eq] at h
  have hwidth : ∀ n, (lengthField n).length = 8 := fun n => Framing.length_leBytes 8 _
  have hsorted := Framing.frames_inj utf8_injective hwidth (fun n hn m hm => lengthField_inj hn hm) (hsize ha) (hsize hb)
    (fun r hr r' hr' => by
      obtain ⟨e, he, rfl⟩ := hmem hr
      obtain ⟨e', he', rfl⟩ := hmem hr'
      exact hnul e he e' he') h
  have hlists := List.map_injective_iff.mpr record_injective hsorted
  exact Multiset.coe_eq_coe.mpr ((s.perm _).symm.trans (hlists ▸ s.perm _))

theorem signable_bytes_determine_swapped :
    (signed [("b", ⟨#[2]⟩), ("a", ⟨#[1]⟩)] : Multiset Entry) = signed [("a", ⟨#[1]⟩), ("b", ⟨#[2]⟩)] := by
  refine signable_bytes_determine insertionSortByPath ?_ ?_ ?_ ?_
  · decide
  · decide
  · decide
  · decide

/-- A path with a NUL in it can stand for an entry and the path of the next one. -/
theorem nul_path_collides :
    signableBytes insertionSortByPath [("a", ⟨#[88]⟩), ("b", ⟨#[2]⟩)] =
        signableBytes insertionSortByPath [("a\x00\x01\x00\x00\x00\x00\x00\x00\x00Xb", ⟨#[2]⟩)] ∧
      (signed [("a", ⟨#[88]⟩), ("b", ⟨#[2]⟩)] : Multiset Entry) ≠
        signed [("a\x00\x01\x00\x00\x00\x00\x00\x00\x00Xb", ⟨#[2]⟩)] := by
  constructor
  · decide
  · decide

end Nyarix
