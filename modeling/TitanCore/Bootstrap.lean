import TitanCore.KeyFiles
import TitanCore.Network

/-! Setting up a network: one machine generates the keys and the genesis file, and each node starts
from its own key file and a copy of the rest. The nodes that start so are a federation. -/
namespace TitanCore

structure CliArgs where
  generateKeys : Bool := false
  signTx : Bool := false
  showHelp : Bool := false
  count : Int := 3
  genesisDir : Bytes := str "genesis/"
  index : Int := -1
  port : UInt16 := 9000
  rpcPort : UInt16 := 8545
  dataDir : Bytes := []
  peers : List (Bytes × UInt16) := []
  keyFile : Bytes := []
  toAddress : Bytes := []
  amount : UInt64 := 0
  nonce : UInt64 := 0

section
variable (ext : Externals) (tools : Tools)

def authorityOf (kp : KeyPair) : AuthorityInfo := ⟨deriveAddress ext kp.publicKey,kp.publicKey,10000⟩

end

section drawing
variable {ext : Externals} {tools : Tools}

end drawing

section paths

end paths

section dealing
variable {ext : Externals} {tools : Tools}

end dealing

section configuring
variable {ext : Externals} {tools : Tools}

theorem loadPrivateKey_saved {machine : Machine} {path : Bytes} {key : PrivateKey}
    (saved : machine.files path = some (toHex key.val ++ [10])) :
    loadPrivateKey path machine = (.ok key,machine) := by
  rw [loadPrivateKey,Program.bind_run,readFile]
  dsimp only
  rw [saved]
  dsimp only
  rw [keyOfText_saved]
  rfl

def memberConfig (ext : Externals) (dealt : List KeyPair) (first : KeyPair) (own : KeyPair) : Config where
  nodeKeys := own
  genesisValidatorKeys := first
  authorities := dealt.map fun kp => deriveAddress ext kp.publicKey
  genesisAllocations := (GenesisConfig.mk first.privateKey (dealt.map (authorityOf ext))).getAllocations
  persistent := true

end configuring

section network
variable {ext : Externals} {tools : Tools}

def members (ext : Externals) (dealt : List KeyPair) (i : Fin dealt.length) : Config :=
  have nonempty : 0 < dealt.length := Nat.zero_lt_of_lt i.isLt
  memberConfig ext dealt dealt[0] dealt[i]

end network

namespace Reference

end Reference

end TitanCore
