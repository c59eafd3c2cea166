import TitanCore.Hex
import TitanCore.JsonReader

/-! The third-party code the program calls, as parameters, and the key operations the
repository builds on them. -/
namespace TitanCore

/-- OpenSSL's digest, libsecp256k1 and nlohmann's parser. `none` and `error` are failures the
wrappers turn into exceptions; `parse` fails with the text of its exception. -/
structure Externals where
  sha256 : Bytes → Hash
  ecPubkeyCreate : PrivateKey → Option PublicKey
  ecdsaSign : Hash → PrivateKey → Option (ByteArr 64)
  ecdsaVerify : Hash → Signature → PublicKey → Bool
  parse : Bytes → Except Bytes Json
  formatDouble : Double → Bytes

namespace Externals
variable (ext : Externals)

def dump (j : Json) : Bytes := j.dump ext.formatDouble

/-- Documented of the parser: it undoes `dump` on every value it could itself return. -/
def ParseUndoesDump : Prop := ∀ j : Json, j.canonical = true → ext.parse (ext.dump j) = .ok j

def parseJson (text : Bytes) : Except Exn Json :=
  match ext.parse text with
  | .ok j => .ok j
  | .error what => .error ⟨.parseError,what⟩

theorem dump_injective {i j : Json} (hi : i.canonical = true) (hj : j.canonical = true)
    (same : ext.dump i = ext.dump j) : i = j :=
  Json.dump_injective ext.formatDouble hi hj same

theorem parseJson_dump (parses : ext.ParseUndoesDump) {j : Json} (ok : j.canonical = true) :
    ext.parseJson (ext.dump j) = .ok j := by
  simp [parseJson,parses j ok]

end Externals

structure KeyPair where
  privateKey : PrivateKey
  publicKey : PublicKey
  deriving DecidableEq

section
variable (ext : Externals)

def derivePublicKey (privateKey : PrivateKey) : Except Exn PublicKey :=
  match ext.ecPubkeyCreate privateKey with
  | some key => .ok key
  | none => .error (.runtimeError (str "Failed to derive public key (invalid private key?)"))

/-- The last twenty bytes of the key's digest. -/
def deriveAddress (publicKey : PublicKey) : Address :=
  ⟨(ext.sha256 publicKey.val).val.drop 12,by simp [(ext.sha256 publicKey.val).2]⟩

def sign (messageHash : Hash) (privateKey : PrivateKey) : Except Exn Signature :=
  match ext.ecdsaSign messageHash privateKey with
  | some signature => .ok signature.val
  | none => .error (.runtimeError (str "ECDSA signing failed"))

def verify (messageHash : Hash) (signature : Signature) (publicKey : PublicKey) : Bool :=
  if signature.length ≠ 64 then false else ext.ecdsaVerify messageHash signature publicKey

/-- The public key belongs to the private one, and its signatures are accepted. -/
structure KeyPair.WellFormed (keys : KeyPair) : Prop where
  derived : derivePublicKey ext keys.privateKey = .ok keys.publicKey
  accepts : ∀ messageHash, ∃ signature, sign ext messageHash keys.privateKey = .ok signature ∧
    verify ext messageHash signature keys.publicKey = true

theorem verify_length {messageHash : Hash} {signature : Signature} {publicKey : PublicKey}
    (accepted : verify ext messageHash signature publicKey = true) : signature.length = 64 := by
  unfold verify at accepted
  split at accepted
  · cases accepted
  · next h => exact not_not.mp h

end
end TitanCore
