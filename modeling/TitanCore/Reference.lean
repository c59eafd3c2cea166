import TitanCore.Blockchain

/-! Concrete libraries for concrete runs: the JSON reader, and the answers SHA-256 and
secp256k1 give on the inputs of a short chain. Other inputs get answers that tell headers of
different heights apart. -/
namespace TitanCore.Reference

def bytesOf (n value : Nat) : ByteArr n :=
  ⟨(List.range n).map fun i => UInt8.ofNat (value / 256 ^ (n - 1 - i)),by simp⟩

/-- The key pairs of the private keys 1 and 2. -/
def validatorKeys : KeyPair :=
  ⟨bytesOf 32 0x1,
    bytesOf 33 0x279be667ef9dcbbac55a06295ce870b07029bfcdb2dce28d959f2815b16f81798⟩

def observerKeys : KeyPair :=
  ⟨bytesOf 32 0x2,
    bytesOf 33 0x2c6047f9441ed7d6d3045406e95c07cd85c778e4b8cef3ca7abac09b95c709ee5⟩

def validatorAddress : Address := bytesOf 20 0x29e562f73488c8a2bb9dbc5700b361d54b9b0554
def observerAddress : Address := bytesOf 20 0x8d393a22e4476ff8212de13fe1939de2a236f0a7

def emptyDigest : Nat := 0xe3b0c44298fc1c149afbf4c8996fb92427ae41e4649b934ca495991b7852b855
def genesisHash : Nat := 0xb7fe6c33257b1407b0ba882938c503af2e419b3f163531a218a51861c242d28e
def firstHash : Nat := 0x7ff9d86e093ab68790512df30962a7c3c59444292e7341412739125d4d2994c4
def secondHash : Nat := 0xa278a7c89e388e3938acc7c28d14e8655a4bb3670fa3edccd0b84952476e6ba2
def paymentHash : Nat := 0x89cae80f9c32b41055658527fd6e2925dad581b5edf0c977de27f0106f99d488
def secondPaymentHash : Nat := 0x6481acd618c0e71c63d4cf4a3b016c37fc93b760c21338411fc8663f94e68a7d
def payingRoot : Nat := 0xd593dda92cf762620522a7b46536b7641087a8a2cc8b9dfd1e9f011dc6821f96
def payingHash : Nat := 0x5c4f00a54abe3ff3935d37008865898a67eb41237e98b73312a1538e8f6bc31c

def headerText (index : Nat) (previousHash root : Nat) : Bytes :=
  str "\x7b\"index\":" ++ decimal index ++ str ",\"previousHash\":\"" ++ toHex (bytesOf 32 previousHash).val ++
    str "\",\"timestamp\":" ++ decimal index ++ str ",\"transactionRootHash\":\"" ++ toHex (bytesOf 32 root).val ++
    str "\",\"validator\":\"29e562f73488c8a2bb9dbc5700b361d54b9b0554\",\"validatorPublicKey\":\"0279be667ef9dcbbac55a06295ce870b07029bfcdb2dce28d959f2815b16f81798\"\x7d"

def paymentText : Bytes :=
  str "\x7b\"amount\":3,\"nonce\":0,\"recipient\":\"8d393a22e4476ff8212de13fe1939de2a236f0a7\",\"sender\":\"29e562f73488c8a2bb9dbc5700b361d54b9b0554\",\"senderPublicKey\":\"0279be667ef9dcbbac55a06295ce870b07029bfcdb2dce28d959f2815b16f81798\",\"timestamp\":1\x7d"

def secondPaymentText : Bytes :=
  str "\x7b\"amount\":4,\"nonce\":1,\"recipient\":\"8d393a22e4476ff8212de13fe1939de2a236f0a7\",\"sender\":\"29e562f73488c8a2bb9dbc5700b361d54b9b0554\",\"senderPublicKey\":\"0279be667ef9dcbbac55a06295ce870b07029bfcdb2dce28d959f2815b16f81798\",\"timestamp\":2\x7d"

def digests : List (Bytes × Nat) := [
  (validatorKeys.publicKey.val,0xf715baf5d4c2ed329785cef29e562f73488c8a2bb9dbc5700b361d54b9b0554),
  (observerKeys.publicKey.val,0xb1c9938f01121e159887ac2c8d393a22e4476ff8212de13fe1939de2a236f0a7),
  ([],emptyDigest),
  (headerText 0 0 emptyDigest,
    genesisHash),
  (headerText 1 genesisHash emptyDigest,firstHash),
  (headerText 2 firstHash emptyDigest,secondHash),
  (paymentText,paymentHash),
  (secondPaymentText,secondPaymentHash),
  ((bytesOf 32 paymentHash).val,payingRoot),
  (headerText 1 genesisHash payingRoot,payingHash)]

def signatures : List (Nat × Nat) := [
  (genesisHash,0xf844b3e1a5c833f3c8dc621f364e8e09207deaa194227db6b46132dc5b7d656006d694368490d7559bec8d8ae17daad31ca4e9a9ec6d6afa6c59e82a6d2eca97),
  (firstHash,0x54359eebd02fdacc02675c4b2c39a5f5aec8b61be47644ffa669f7273d05c87822050d80743ad4e4912ebe3d22baef198980f5bf3fe73ad85e27d2290dad86b3),
  (secondHash,0xf20071d16c30d572f19c0ce26df6b61715eb6774bea73a0180809c96561d3e48515d654c0c08de4be1c3f62a32c2f8a947753959f57d96ce042b4e8fec46b4d1),
  (paymentHash,0xa559483de28e6d768e1ee344a3342f27a17caeebdfd4e6f9e0659d82eb724d10342f44937dd3fda0b403fbc56d89b402e2f14961d308d888c63bc733e21ae3b1),
  (secondPaymentHash,0x9c952889b802ccd7cded7168d12baa63a32c969a9a51515d4e3e48ab2b9d7b922c0d7098393fd48fd6791cde2245252d7bf97de8b38a88dc6085e540c09b25c1),
  (payingHash,0x4c837cbf2b76811da818d31d988ee600fd1e3cf7614133e3fa4e79e07f72905e5a835ee1151472cfecb241f7ff9096e7152a282405238a77b2d79c32f49aea16)]

def opening (preimage : Bytes) : Hash := ⟨(preimage ++ List.replicate 32 0).take 32,by simp⟩

def digest (preimage : Bytes) : Hash :=
  match digests.find? fun entry => entry.1 = preimage with
  | some entry => bytesOf 32 entry.2
  | none => opening preimage

def signature (messageHash : Hash) : ByteArr 64 :=
  match signatures.find? fun entry => bytesOf 32 entry.1 = messageHash with
  | some entry => bytesOf 64 entry.2
  | none => ⟨List.replicate 64 0,by simp⟩

def observerSignature (messageHash : Hash) : ByteArr 64 :=
  ⟨messageHash.val ++ messageHash.val,by simp [messageHash.2]⟩

def libraries : Externals where
  sha256 := digest
  ecPubkeyCreate key :=
    if key = validatorKeys.privateKey then some validatorKeys.publicKey
    else if key = observerKeys.privateKey then some observerKeys.publicKey
    else none
  ecdsaSign messageHash key :=
    if key = validatorKeys.privateKey then some (signature messageHash)
    else if key = observerKeys.privateKey then some (observerSignature messageHash)
    else none
  ecdsaVerify messageHash s key :=
    key = validatorKeys.publicKey ∧ s = (signature messageHash).val ∨
    key = observerKeys.publicKey ∧ s = (observerSignature messageHash).val
  parse := Json.read
  formatDouble := fun _ => str "0.0"

theorem libraries_parse : libraries.ParseUndoesDump := fun _ canonical =>
  Json.read_dump libraries.formatDouble _ canonical

theorem validatorKeys_wellFormed : validatorKeys.WellFormed libraries := by
  refine ⟨rfl,fun messageHash => ⟨(signature messageHash).val,rfl,?_⟩⟩
  simp [verify,libraries,(signature messageHash).2]

theorem observerKeys_wellFormed : observerKeys.WellFormed libraries := by
  refine ⟨rfl,fun messageHash => ⟨(observerSignature messageHash).val,rfl,?_⟩⟩
  simp [verify,libraries,(observerSignature messageHash).2]

theorem headerPreimage_opening (ext : Externals) (block : Block) : ∃ rest, headerPreimage ext block =
    str "\x7b\"index\":" ++ (decimal block.index.toNat ++ 44 :: rest) := by
  have start : str "\x7b\"index\":" = 123 :: (Json.quote (str "index") ++ [58]) := by decide
  rw [headerPreimage,Externals.dump,headerJson_fields,start]
  simp only [Json.dump,Json.dumpFields,List.cons_append,List.append_assoc,List.nil_append]
  exact ⟨_,rfl⟩

theorem opening_index {a b : Block} (same : opening (headerPreimage libraries a) = opening (headerPreimage libraries b)) :
    a.index = b.index := by
  have number (block : Block) : ((opening (headerPreimage libraries block)).val.drop 9).takeWhile isDigit =
      decimal block.index.toNat := by
    obtain ⟨rest,text⟩ := headerPreimage_opening libraries block
    have short : (decimal block.index.toNat).length ≤ 20 :=
      (decimal_length_le (by decide)).mpr (block.index.toNat_lt.trans (by decide))
    have starts : (str "\x7b\"index\":").length = 9 := by decide
    have width : 23 = (decimal block.index.toNat).length + (22 - (decimal block.index.toNat).length + 1) := by omega
    change List.takeWhile isDigit (((headerPreimage libraries block ++ List.replicate 32 0).take 32).drop 9) = _
    rw [text,List.drop_take,List.append_assoc,← starts,List.drop_left,starts,List.append_assoc]
    change List.takeWhile isDigit (List.take 23 _) = _
    rw [width,List.take_length_add_append,List.cons_append,List.take_succ_cons,
      List.takeWhile_append_of_pos (decimal_digits _),List.takeWhile_cons_of_neg (by decide),List.append_nil]
  have digits : decimal a.index.toNat = decimal b.index.toNat := by rw [← number a,same,number b]
  apply UInt64.toNat.inj
  rw [← digitsValue_decimal a.index.toNat,digits,digitsValue_decimal]

theorem digest_separates {a b : Block}
    (same : digest (headerPreimage libraries a) = digest (headerPreimage libraries b)) : a.index = b.index := by
  have distinct : ∀ x ∈ digests, ∀ y ∈ digests, bytesOf 32 x.2 = bytesOf 32 y.2 → x.1 = y.1 := by decide +kernel
  have unlike : ∀ x ∈ digests, (bytesOf 32 x.2).val.head? ≠ some 123 := by decide +kernel
  have listed {text : Bytes} {entry : Bytes × Nat} (found : digests.find? (fun entry => entry.1 = text) = some entry) :
      entry ∈ digests ∧ entry.1 = text := by
    have matching := List.find?_some found
    exact ⟨List.mem_of_find?_eq_some found,of_decide_eq_true matching⟩
  have begins (block : Block) : (opening (headerPreimage libraries block)).val.head? = some 123 := by
    obtain ⟨rest,text⟩ := headerPreimage_opening libraries block
    rw [text]
    rfl
  unfold digest at same
  split at same <;> split at same
  · next x at_a _ y at_b =>
    have texts := distinct x (listed at_a).1 y (listed at_b).1 same
    rw [(listed at_a).2,(listed at_b).2] at texts
    exact (headerPreimage_injective libraries texts).1
  · next x at_a _ _ => exact absurd (same ▸ begins b) (unlike x (listed at_a).1)
  · next y at_b => exact absurd (same ▸ begins a) (unlike y (listed at_b).1)
  · exact opening_index same

def payment : Transaction where
  sender := validatorAddress
  recipient := observerAddress
  amount := 3
  nonce := 0
  timestamp := 1
  senderPublicKey := validatorKeys.publicKey
  signature := (signature (bytesOf 32 paymentHash)).val
  hash := bytesOf 32 paymentHash

def secondPayment : Transaction where
  sender := validatorAddress
  recipient := observerAddress
  amount := 4
  nonce := 1
  timestamp := 2
  senderPublicKey := validatorKeys.publicKey
  signature := (signature (bytesOf 32 secondPaymentHash)).val
  hash := bytesOf 32 secondPaymentHash

def block (index : UInt64) (previousHash hash : Nat) (transactions : List Transaction) : Block where
  index := index
  timestamp := index
  previousHash := bytesOf 32 previousHash
  validator := validatorAddress
  validatorPublicKey := validatorKeys.publicKey
  transactions := transactions
  signature := (signature (bytesOf 32 hash)).val
  hash := bytesOf 32 hash

def genesis : Block := block 0 0 genesisHash []
def first : Block := block 1 genesisHash firstHash []
def second : Block := block 2 firstHash secondHash []
def paying : Block := block 1 genesisHash payingHash [payment]

theorem createGenesisBlock_validator : createGenesisBlock libraries validatorKeys = .ok genesis := by
  decide +kernel

def schedule : PoAConsensus := ⟨[validatorAddress],by decide⟩

theorem first_extends : Blockchain.Extends libraries (some schedule) [genesis] first where
  index := rfl
  linked := ⟨genesis,rfl,rfl⟩
  verified := by decide +kernel
  scheduled := fun poa member => by
    obtain rfl := Option.some.inj member
    decide +kernel
  room := by decide

/-! More payments and blocks, which drive pending payments out of the pool. -/

def thirdHash : Nat := 0x23eece31a854e6640fa5a56f1d9a25ea839a463e6f5213cae3eaac01ca370ed6
def drainHash : Nat := 0x5ecc6b21316ec582504b4f850e2987c25907c4839b1fd5d39d85647efc2f89fb
def cheaperHash : Nat := 0xf3048bec735c0616a82108073547b28022084c57c595dd958a7dab3ef5640c1a
def doubledRoot : Nat := 0x36683600a3b5f73622ca590116a81afcf1f386f5c8aeac9c18ad4caca244328f
def doubledHash : Nat := 0xc04f99710236bf2ee2d16f6ea8064fe29466862ddf56e48c224c06116bfdf3b4
def drainingRoot : Nat := 0x0704cd0d524761c9ca95159693bccd1d275ac97014f4b5116eea2ceac5c17026
def drainingHash : Nat := 0x99e2d6bb11fedd1fa59b1b730b3b8c887825fe200becf01c92b8d3cc0208a519

def validatorPaymentText (amount nonce timestamp : Nat) : Bytes :=
  str "\x7b\"amount\":" ++ decimal amount ++ str ",\"nonce\":" ++ decimal nonce ++
    str ",\"recipient\":\"8d393a22e4476ff8212de13fe1939de2a236f0a7\",\"sender\":\"29e562f73488c8a2bb9dbc5700b361d54b9b0554\",\"senderPublicKey\":\"0279be667ef9dcbbac55a06295ce870b07029bfcdb2dce28d959f2815b16f81798\",\"timestamp\":" ++
    decimal timestamp ++ str "\x7d"

def moreDigests : List (Bytes × Nat) := [
  (validatorPaymentText 1 2 3,thirdHash),
  (validatorPaymentText 7 0 4,drainHash),
  (validatorPaymentText 2 1 5,cheaperHash),
  ((bytesOf 32 paymentHash).val ++ (bytesOf 32 paymentHash).val,doubledRoot),
  (headerText 1 genesisHash doubledRoot,doubledHash),
  ((bytesOf 32 drainHash).val,drainingRoot),
  (headerText 1 genesisHash drainingRoot,drainingHash)]

def moreSignatures : List (Nat × Nat) := [
  (thirdHash,0xe62d1a94c1116514d87e333d33085ea3995e9a7e398ea0a30bfdce3b33bd51da3d69cf1c6be1546a0b0e900d92091ddf97e74cb76c51e16fe1f2edc0e2fe02c4),
  (drainHash,0xdb5af1dc95f926ff93e2e21a79bd0940e75671e6656aa7e925ec6437a85e7bcc7120d18d6bb143f25d2804a7db9fc752f3ab2a5c07de18a7a801949edfca01f2),
  (cheaperHash,0xd052b728e367842032ce0c205a713c8d2db2527a7605c438c540a31bc2462ffe23ecf1971d64cf56d2af78d2771e21695166a5a1332250ca0194c14e3a8b7a83),
  (doubledHash,0x977aa74b185def3304d696dd448d6698a67cbdd3b31b9d62989ba99cde6f471c0e928fc92f3d3accdb460d89c94f6e36bdc7503fc47c0f18f3e961f5e9ebd82c),
  (drainingHash,0x8ab1974c4905b44a5f74cdcc6aea7f473ef8e12a6b20d17559d1547d1df1b5c06b78d05f881ee868d42cc1efb594f65eb47aec78535c1a7f14d4c036e55d823b)]

def moreDigest (preimage : Bytes) : Hash :=
  match moreDigests.find? fun entry => entry.1 = preimage with
  | some entry => bytesOf 32 entry.2
  | none => digest preimage

def moreSignature (messageHash : Hash) : ByteArr 64 :=
  match moreSignatures.find? fun entry => bytesOf 32 entry.1 = messageHash with
  | some entry => bytesOf 64 entry.2
  | none => signature messageHash

def moreLibraries : Externals :=
  { libraries with
    sha256 := moreDigest
    ecdsaSign := fun messageHash key =>
      if key = validatorKeys.privateKey then some (moreSignature messageHash) else none
    ecdsaVerify := fun messageHash s key =>
      key = validatorKeys.publicKey ∧ s = (moreSignature messageHash).val }

def validatorPayment (amount nonce timestamp : UInt64) (hash : Nat) : Transaction where
  sender := validatorAddress
  recipient := observerAddress
  amount := amount
  nonce := nonce
  timestamp := timestamp
  senderPublicKey := validatorKeys.publicKey
  signature := (moreSignature (bytesOf 32 hash)).val
  hash := bytesOf 32 hash

def thirdPayment : Transaction := validatorPayment 1 2 3 thirdHash

/-- A payment in place of `payment`, after which the validator cannot make `secondPayment`. -/
def drain : Transaction := validatorPayment 7 0 4 drainHash

/-- A payment in place of `secondPayment` that the validator can still make. -/
def cheaperPayment : Transaction := validatorPayment 2 1 5 cheaperHash

def blockOf (hash : Nat) (transactions : List Transaction) : Block :=
  { block 1 genesisHash hash transactions with signature := (moreSignature (bytesOf 32 hash)).val }

def doubled : Block := blockOf doubledHash [payment,payment]

def draining : Block := blockOf drainingHash [drain]

end TitanCore.Reference
