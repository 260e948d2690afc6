import Tdnf.Common.Error
import Mathlib.Order.Defs.LinearOrder
import Mathlib.Order.Lattice
import Mathlib.Order.Basic

/-!
# Digests

The supported hash types in the order of their strength, hex digests, and the
comparison of a file with a digest. Computing the digest of a file is left to the
crypto library.
-/

namespace Tdnf.Common

/-- `TDNF_HASH_*` -/
inductive HashType where
  | md5
  | sha1
  | sha256
  | sha512
deriving DecidableEq, Repr

namespace HashType

/-- The number behind the name. -/
def toNat : HashType → ℕ
  | md5 => 0
  | sha1 => 1
  | sha256 => 2
  | sha512 => 3

theorem toNat_injective : Function.Injective toNat := by
  intro a b h
  cases a <;> cases b <;> first | rfl | cases h

instance : LinearOrder HashType := LinearOrder.lift' toNat toNat_injective

/-- `hash_ops[type].length` -/
def length : HashType → ℕ
  | md5 => 16
  | sha1 => 20
  | sha256 => 32
  | sha512 => 64

end HashType

/-- `hashType` -/
def hashTypes : List (String × HashType) :=
  [("md5", .md5), ("sha1", .sha1), ("sha-1", .sha1), ("sha256", .sha256),
    ("sha-256", .sha256), ("sha512", .sha512), ("sha-512", .sha512)]

def isNullOrEmptyString (s : Option String) : Bool := s.getD "" == ""

/-- `isxdigit` -/
def isXDigit (c : Char) : Bool :=
  decide ('0' ≤ c ∧ c ≤ '9') || decide ('a' ≤ c ∧ c ≤ 'f') || decide ('A' ≤ c ∧ c ≤ 'F')

/-- `TDNFCheckHexDigest` -/
def checkHexDigest (hexDigest : Option (List Char)) (digestLength : ℕ) : Bool :=
  match hexDigest with
  | none => false
  | some hex =>
    !hex.isEmpty && decide (0 < digestLength) && hex.all isXDigit &&
      digestLength * 2 == hex.length

/-- The value of a hex digit. -/
def hexValue (c : Char) : ℕ :=
  if c ≤ '9' then c.toNat - '0'.toNat
  else if c ≤ 'F' then c.toNat - 'A'.toNat + 10
  else c.toNat - 'a'.toNat + 10

/-- `TDNFHexToUint` of two hex digits. -/
def hexToUint (a b : Char) : UInt8 := UInt8.ofNat (16 * hexValue a + hexValue b)

/-- `TDNFChecksumFromHexDigest` of a string of hex digits. -/
def checksumFromHexDigest : List Char → List UInt8
  | a :: b :: rest => hexToUint a b :: checksumFromHexDigest rest
  | _ => []

theorem checksumFromHexDigest_length :
    ∀ hex : List Char, (checksumFromHexDigest hex).length = hex.length / 2
  | [] => rfl
  | [_] => by simp [checksumFromHexDigest]
  | a :: b :: rest => by
      rw [checksumFromHexDigest, List.length_cons, checksumFromHexDigest_length rest,
        List.length_cons, List.length_cons]
      omega

/-- A digest of the type. -/
abbrev Digest (t : HashType) := {d : List UInt8 // d.length = t.length}

/-- `TDNFGetDigestForFile` -/
abbrev GetDigest := String → (t : HashType) → Except TdnfError (Digest t)

/-- `TDNFCheckHash` -/
def checkHash (getDigest : GetDigest) (filename : Option String) (digest : List UInt8)
    (type : HashType) : Except TdnfError Unit :=
  match filename with
  | none => .error .invalidParameter
  | some file =>
    if file = "" then .error .invalidParameter
    else
      match getDigest file type with
      | .error e => .error e
      | .ok digestFromFile =>
        if digestFromFile.val = digest.take type.length then .ok ()
        else .error .checksumValidationFailed

/-- A digest matches a well-formed value exactly if the value spells it. -/
theorem checkHash_checksum {getDigest : GetDigest} {file : String} {hex : List Char}
    {type : HashType} (hfile : file ≠ "") (hhex : checkHexDigest (some hex) type.length) :
    checkHash getDigest (some file) (checksumFromHexDigest hex) type =
      (getDigest file type).bind fun d =>
        if d.val = checksumFromHexDigest hex then .ok () else .error .checksumValidationFailed := by
  have hlength : (checksumFromHexDigest hex).length = type.length := by
    rw [checkHexDigest, Bool.and_eq_true, beq_iff_eq] at hhex
    rw [checksumFromHexDigest_length, ← hhex.2, Nat.mul_div_cancel _ (by decide)]
  rw [checkHash, if_neg hfile, List.take_of_length_le hlength.le]
  cases getDigest file type with
  | error e => rfl
  | ok d => rfl

end Tdnf.Common
