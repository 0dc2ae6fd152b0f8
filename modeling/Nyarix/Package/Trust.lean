import Nyarix.Lib.Collection
import Nyarix.Package.Signing

/-! The status of a package's embedded signature, and the trust that it earns. -/

namespace Nyarix

inductive SignatureStatus where
  | unsigned | verified | invalid
  deriving DecidableEq, Repr

inductive TrustLevel where
  | system | official | community | unknown | localDev | experimental
  deriving DecidableEq, Repr

structure Checking where
  codec : Codec
  sort : SortByPath
  scheme : Ed25519

def verify (env : Checking) (entries : List Entry) (signature : Bytes 64) (key : env.scheme.VerifyingKey) : Bool :=
  env.scheme.verify key (signableBytes env.sort entries) signature

def keyOf (env : Checking) (bytes : ByteArray) : Option env.scheme.VerifyingKey :=
  (asArray bytes 32).bind env.scheme.fromBytes

namespace PackageReader

def signatureStatus (env : Checking) (reader : PackageReader) : Except PackageError SignatureStatus := do
  let entries ← reader.entries env.codec
  match firstContents entries signatureMemberPath, firstContents entries publicKeyMemberPath with
  | some signatureBytes, some publicKeyBytes =>
    match asArray signatureBytes 64 with
    | none => return .invalid
    | some signature =>
      match asArray publicKeyBytes 32 with
      | none => return .invalid
      | some publicKeyBytes =>
        match env.scheme.fromBytes publicKeyBytes with
        | none => return .invalid
        | some publicKey => return if verify env entries signature publicKey then .verified else .invalid
  | _, _ => return .unsigned

def requireValidSignature (env : Checking) (reader : PackageReader) : Except PackageError Unit := do
  match ← reader.signatureStatus env with
  | .verified => return ()
  | .unsigned | .invalid => throw (.signatureFailure reader.manifest.package.name)

end PackageReader

structure TrustStore where
  knownKeys : HashMap (Bytes 32) TrustLevel

namespace TrustStore

def new : TrustStore := ⟨∅⟩

def trust (env : Checking) (store : TrustStore) (key : env.scheme.VerifyingKey) (level : TrustLevel) : TrustStore :=
  ⟨store.knownKeys.insert (env.scheme.toBytes key) level⟩

def levelFor (env : Checking) (store : TrustStore) (key : env.scheme.VerifyingKey) : Option TrustLevel :=
  store.knownKeys.lookup (env.scheme.toBytes key)

end TrustStore

def classify (env : Checking) (reader : PackageReader) (store : TrustStore) : Except PackageError TrustLevel := do
  if (← reader.signatureStatus env) ≠ .verified then return .unknown
  match ← reader.readEntry env.codec publicKeyMemberPath with
  | none => return .unknown
  | some publicKeyBytes =>
    match asArray publicKeyBytes 32 with
    | none => return .unknown
    | some publicKeyBytes =>
      match env.scheme.fromBytes publicKeyBytes with
      | none => return .unknown
      | some publicKey => return (store.levelFor env publicKey).getD .unknown

/-- The archive's first signature is the first key's, over the signed bytes of all its entries. -/
structure SignedBy (env : Checking) (reader : PackageReader) (publicKeyBytes : ByteArray)
    (publicKey : env.scheme.VerifyingKey) : Prop where
  key : keyOf env publicKeyBytes = some publicKey
  signed : ∃ entries signatureBytes signature, reader.entries env.codec = .ok entries ∧
    firstContents entries publicKeyMemberPath = some publicKeyBytes ∧
    firstContents entries signatureMemberPath = some signatureBytes ∧ asArray signatureBytes 64 = some signature ∧
    verify env entries signature publicKey = true

theorem signatureStatus_verified {env : Checking} {reader : PackageReader}
    (h : reader.signatureStatus env = .ok .verified) :
    ∃ publicKeyBytes publicKey, SignedBy env reader publicKeyBytes publicKey := by
  obtain ⟨entries, hentries, h⟩ := bind_ok.mp h
  split at h
  · next signatureBytes publicKeyBytes hsig hkey =>
    split at h
    · cases h
    · next signature hsignature =>
      split at h
      · cases h
      · next bytes hbytes =>
        split at h
        · cases h
        · next publicKey hpublic =>
          split at h
          · next hverify =>
            refine ⟨publicKeyBytes, publicKey, ?_, entries, signatureBytes, signature, hentries, hkey, hsig, hsignature, hverify⟩
            rw [keyOf, hbytes]
            exact hpublic
          · cases h
  · cases h

/-- A level other than unknown comes from the store, for the key that the archive's signature
was verified with; that key's bytes are those that the second scan reads. -/
theorem classify_trusted {env : Checking} {reader : PackageReader} {store : TrustStore} {level : TrustLevel}
    (h : classify env reader store = .ok level) (hlevel : level ≠ .unknown) :
    ∃ publicKeyBytes publicKey, SignedBy env reader publicKeyBytes publicKey ∧
      reader.readEntry env.codec publicKeyMemberPath = .ok (some publicKeyBytes) ∧
      store.levelFor env publicKey = some level := by
  obtain ⟨status, hstatus, h⟩ := bind_ok.mp h
  by_cases hv : status = .verified
  · subst hv
    obtain ⟨publicKeyBytes, publicKey, hsigned⟩ := signatureStatus_verified hstatus
    obtain ⟨entries, signatureBytes, signature, hentries, hkey, -⟩ := hsigned.signed
    have hread := readEntry_of_entries hentries publicKeyMemberPath
    rw [hkey] at hread
    refine ⟨publicKeyBytes, publicKey, hsigned, hread, ?_⟩
    obtain ⟨bytes, hbytes, hpublic⟩ := Option.bind_eq_some_iff.mp hsigned.key
    simp only [ne_eq, not_true_eq_false, if_false] at h
    obtain ⟨read, hread', h⟩ := bind_ok.mp h
    obtain rfl := Except.ok.inj (hread.symm.trans hread')
    simp only [hbytes, hpublic] at h
    obtain rfl := Except.ok.inj h
    cases hstore : store.levelFor env publicKey with
    | none => simp [hstore] at hlevel
    | some level => rfl
  · rw [if_pos hv] at h
    exact absurd (Except.ok.inj h).symm hlevel

/-- The levels that can be read off a signature, the other three being the Runtime's to assign. -/
def TrustLevel.Derivable (level : TrustLevel) : Prop := level = .official ∨ level = .community ∨ level = .unknown

theorem signatureStatus_of_signed {env : Checking} {reader : PackageReader} {publicKeyBytes : ByteArray}
    {publicKey : env.scheme.VerifyingKey} (h : SignedBy env reader publicKeyBytes publicKey) :
    reader.signatureStatus env = .ok .verified := by
  obtain ⟨entries, signatureBytes, signature, hentries, hkey, hsig, hsignature, hverify⟩ := h.signed
  obtain ⟨bytes, hbytes, hpublic⟩ := Option.bind_eq_some_iff.mp h.key
  refine bind_ok.mpr ⟨entries, hentries, ?_⟩
  simp only [hkey, hsig, hsignature, hbytes, hpublic, hverify, if_true]
  rfl

theorem classify_of_signed {env : Checking} {reader : PackageReader} {publicKeyBytes : ByteArray}
    {publicKey : env.scheme.VerifyingKey} (h : SignedBy env reader publicKeyBytes publicKey) (store : TrustStore) :
    classify env reader store = .ok ((store.levelFor env publicKey).getD .unknown) := by
  obtain ⟨entries, _, _, hentries, hkey, -⟩ := h.signed
  obtain ⟨bytes, hbytes, hpublic⟩ := Option.bind_eq_some_iff.mp h.key
  have hread := readEntry_of_entries hentries publicKeyMemberPath
  rw [hkey] at hread
  refine bind_ok.mpr ⟨.verified, signatureStatus_of_signed h, ?_⟩
  simp only [ne_eq, not_true_eq_false, if_false]
  refine bind_ok.mpr ⟨some publicKeyBytes, hread, ?_⟩
  simp only [hbytes, hpublic]
  rfl

theorem levelFor_calls (env : Checking) (calls : List (env.scheme.VerifyingKey × TrustLevel))
    (key : env.scheme.VerifyingKey) :
    (calls.foldl (fun store call => store.trust env call.1 call.2) TrustStore.new).levelFor env key =
      (calls.reverse.find? fun call => env.scheme.toBytes call.1 = env.scheme.toBytes key).map Prod.snd := by
  have hkeys : ∀ store : TrustStore, (calls.foldl (fun store call => store.trust env call.1 call.2) store).knownKeys =
      calls.foldl (fun keys call => keys.insert (env.scheme.toBytes call.1) call.2) store.knownKeys := by
    induction calls with
    | nil => exact fun store => rfl
    | cons call calls ih => exact fun store => ih (store.trust env call.1 call.2)
  rw [TrustStore.levelFor, hkeys]
  exact HashMap.lookup_foldl_insert _ _ calls _

/-- Whatever keys were registered, an archive gets one of the three levels of signatures exactly if
the last level registered for the key that signed it, if any, is one of them. -/
theorem classify_derivable_iff (env : Checking) (calls : List (env.scheme.VerifyingKey × TrustLevel))
    (reader : PackageReader) :
    (∀ level, classify env reader (calls.foldl (fun store call => store.trust env call.1 call.2) .new) = .ok level →
      level.Derivable) ↔
    ∀ publicKeyBytes publicKey call, SignedBy env reader publicKeyBytes publicKey →
      (calls.reverse.find? fun call => env.scheme.toBytes call.1 = env.scheme.toBytes publicKey) = some call →
      call.2.Derivable := by
  constructor
  · intro h publicKeyBytes publicKey call hsigned hlast
    have hclassify := classify_of_signed hsigned (calls.foldl (fun store call => store.trust env call.1 call.2) .new)
    rw [levelFor_calls, hlast] at hclassify
    exact h call.2 hclassify
  · intro h level hclassify
    by_cases hunknown : level = .unknown
    · exact .inr (.inr hunknown)
    · obtain ⟨publicKeyBytes, publicKey, hsigned, -, hlevel⟩ := classify_trusted hclassify hunknown
      rw [levelFor_calls, Option.map_eq_some_iff] at hlevel
      obtain ⟨call, hlast, rfl⟩ := hlevel
      exact h publicKeyBytes publicKey call hsigned hlast

def stubKey : Bytes 32 := ⟨⟨Array.replicate 32 7⟩, rfl⟩

/-- A scheme in which a signature begins with the key that made it. -/
def stubChecking (members : List Entry) : Checking where
  codec := stubCodec "relay" members
  sort := insertionSortByPath
  scheme := ⟨Bytes 32, some, id, fun key _ signature => signature.1.data.toList.take 32 = key.1.data.toList⟩

def stubSigned : List Entry :=
  [(signatureMemberPath, ⟨Array.replicate 64 7⟩), (publicKeyMemberPath, stubKey.1)]

theorem classify_trusted_relay :
    (TrustStore.new.trust (stubChecking stubSigned) stubKey .official).levelFor (stubChecking stubSigned) stubKey =
        some .official ∧
      ∃ publicKeyBytes publicKey, SignedBy (stubChecking stubSigned) (stubReader "relay" ⟨#[0]⟩) publicKeyBytes publicKey ∧
        (stubReader "relay" ⟨#[0]⟩).readEntry (stubChecking stubSigned).codec publicKeyMemberPath =
          .ok (some publicKeyBytes) ∧
        (TrustStore.new.trust (stubChecking stubSigned) stubKey .official).levelFor (stubChecking stubSigned) publicKey =
          some .official := by
  have hclassify : classify (stubChecking stubSigned) (stubReader "relay" ⟨#[0]⟩)
      (TrustStore.new.trust (stubChecking stubSigned) stubKey .official) = .ok .official := by rfl
  exact ⟨rfl, classify_trusted hclassify (by decide)⟩

theorem signed_package_becomes_system :
    classify (stubChecking stubSigned) (stubReader "relay" ⟨#[0]⟩)
      ([(stubKey, TrustLevel.system)].foldl (fun store call => store.trust (stubChecking stubSigned) call.1 call.2) .new) =
        .ok .system ∧ ¬ TrustLevel.system.Derivable := by
  refine ⟨rfl, ?_⟩
  rintro (h | h | h) <;> cases h

end Nyarix
