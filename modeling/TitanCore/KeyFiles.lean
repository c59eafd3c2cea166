import TitanCore.GenesisConfig
import TitanCore.PrettyDump
import TitanCore.Program

/-! The files of a network: the private keys and the genesis configuration, as the command line
program writes and reads them. -/
namespace TitanCore

/-- The machine that the program runs on. Directories can be created; `random` are the bytes that
`RAND_bytes` gives before it fails. -/
structure Machine where
  files : Bytes → Option Bytes
  writable : Bytes → Bool
  random : List PrivateKey

abbrev CliM := Program Machine Exn

namespace Machine

def write (machine : Machine) (path text : Bytes) : Machine :=
  { machine with files := Function.update machine.files path (some text) }

end Machine

def readFile (path : Bytes) : CliM (Option Bytes) := fun machine => (.ok (machine.files path),machine)

/-- The first line of the file, without blanks. -/
def keyOfText (path text : Bytes) : Except Exn PrivateKey :=
  let hexLine := (text.takeWhile (· ≠ 10)).filter fun b => !isSpace b
  if hexLine = [] then .error (.runtimeError (str "Key file is empty: " ++ path))
  else fromHexFixed 32 hexLine

def loadPrivateKey (path : Bytes) : CliM PrivateKey := do
  match ← readFile path with
  | none => Program.stop (.runtimeError (str "Failed to open key file: " ++ path))
  | some text => Program.lift id (keyOfText path text)

namespace GenesisConfig

end GenesisConfig

def AuthorityInfo.toJson (auth : AuthorityInfo) : Json :=
  let a := Json.null
  let a := a.set (str "address") (.string (toHex auth.address.val))
  let a := a.set (str "publicKey") (.string (toHex auth.publicKey.val))
  a.set (str "allocation") (.unsigned auth.allocation)

def GenesisConfig.toJson (config : GenesisConfig) : Json :=
  let j := Json.null
  let j := j.set (str "genesisValidatorPrivateKey") (.string (toHex config.genesisValidatorPrivateKey.val))
  j.set (str "authorities") (.array (config.authorities.map AuthorityInfo.toJson))

section keys

theorem fromHexFixed_toHex {n : Nat} (data : ByteArr n) : fromHexFixed n (toHex data.val) = .ok data := by
  rw [fromHexFixed,fromHex_toHex]
  exact toArray_self data _

theorem toHex_no_blank (data : Bytes) : ∀ b ∈ toHex data, isSpace b = false := by
  intro b member
  have large := (toHex_ascii data b member).2
  have other : b ≠ 32 := by
    rintro rfl
    exact absurd large (by decide)
  have above : ¬ b.toNat ≤ 13 := by omega
  simp [isSpace,other,above]

theorem keyOfText_saved (path : Bytes) (key : PrivateKey) : keyOfText path (toHex key.val ++ [10]) = .ok key := by
  have line : (toHex key.val ++ [10]).takeWhile (· ≠ 10) = toHex key.val := by
    rw [List.takeWhile_append_of_pos fun b member => ?_]
    · exact List.append_nil _
    · have large := (toHex_ascii key.val b member).2
      simp only [decide_eq_true_eq]
      rintro rfl
      exact absurd large (by decide)
  have clean : (toHex key.val).filter (fun b => !isSpace b) = toHex key.val :=
    List.filter_eq_self.mpr fun b member => by rw [toHex_no_blank _ b member]; rfl
  have some_text : toHex key.val ≠ [] := by
    intro empty
    have length := toHex_length key.val
    rw [empty,key.property] at length
    cases length
  rw [keyOfText,line,clean,if_neg some_text,fromHexFixed_toHex]

end keys

section genesis

theorem AuthorityInfo.toJson_fields (auth : AuthorityInfo) : auth.toJson = .object [
    (str "address",.string (toHex auth.address.val)),
    (str "allocation",.unsigned auth.allocation),
    (str "publicKey",.string (toHex auth.publicKey.val))] := rfl

theorem GenesisConfig.toJson_fields (config : GenesisConfig) : config.toJson = .object [
    (str "authorities",.array (config.authorities.map AuthorityInfo.toJson)),
    (str "genesisValidatorPrivateKey",.string (toHex config.genesisValidatorPrivateKey.val))] := rfl

theorem AuthorityInfo.canonical_toJson (auth : AuthorityInfo) : auth.toJson.canonical = true := by
  rw [AuthorityInfo.toJson_fields]
  simp only [Json.canonical,Json.canonicalFields,Json.keysSorted,utf8Valid_toHex,Bool.and_true]
  decide +kernel

theorem GenesisConfig.canonical_toJson (config : GenesisConfig) : config.toJson.canonical = true := by
  have authorities : Json.canonicalElems (config.authorities.map AuthorityInfo.toJson) = true := by
    rw [Json.canonicalElems_iff]
    intro j member
    obtain ⟨auth,-,rfl⟩ := List.mem_map.mp member
    exact auth.canonical_toJson
  rw [GenesisConfig.toJson_fields]
  simp only [Json.canonical,Json.canonicalFields,Json.keysSorted,utf8Valid_toHex,authorities,Bool.and_true]
  decide +kernel

end genesis
end TitanCore
