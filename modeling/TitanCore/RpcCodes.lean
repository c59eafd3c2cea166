import TitanCore.RpcErrors

/-! Which requests are refused with the code of a client's mistake. The codes are right except where
`fromHexFixed` throws outside of a handler's own `try` block, and where a decoder accepts what it
should refuse. -/
namespace TitanCore.Rpc

def HexOf (n : Nat) (s : Bytes) : Prop := s.length = 2 * n ∧ ∀ b ∈ s, isHexDigit b = true

structure WellFormedTransaction (j : Json) : Prop where
  array : ∀ field ∈ transactionArrays, ∃ s, j.at? field.1 = .ok (.string s) ∧ HexOf field.2 s
  signature : ∃ s n, j.at? (str "signature") = .ok (.string s) ∧ HexOf n s
  number : ∀ key ∈ transactionNumbers, ∃ found, j.at? key = .ok found ∧ found.isNumber = true ∧
    ¬ found.Irregular

def supported : List Bytes := [str "getBalance",str "getNonce",str "getChainHeight",
  str "getBlockByIndex",str "getMempoolSize",str "getPeerCount",str "submitTransaction"]

structure WellFormedParams (node : Node) (method : Bytes) (params : Json) : Prop where
  address : method = str "getBalance" ∨ method = str "getNonce" →
    ∃ s, params.find? (str "address") = some (.string s) ∧ HexOf 20 s
  index : method = str "getBlockByIndex" → ∃ index, params.find? (str "index") = some (.unsigned index) ∧
    index.toNat < node.blockchain.chain.length
  transaction : method = str "submitTransaction" → ∃ fields,
    params.find? (str "transaction") = some (.object fields) ∧ WellFormedTransaction (.object fields)

/-- The code says whose mistake it was. -/
structure Classified (node : Node) (method : Bytes) (params : Json) (code : Option Int32) : Prop where
  unknown : code = some methodNotFound ↔ method ∉ supported
  malformed : method ∈ supported → ¬ WellFormedParams node method params → code = some invalidParams
  internal : code ≠ some internalError

/-- An address that is a string is hexadecimal, and a transaction that decodes is well formed. -/
structure Legible (method : Bytes) (params : Json) : Prop where
  address : method = str "getBalance" ∨ method = str "getNonce" →
    ∀ s, params.find? (str "address") = some (.string s) → HexOf 20 s
  transaction : method = str "submitTransaction" → ∀ fields,
    params.find? (str "transaction") = some (.object fields) → TransactionShape (.object fields) →
    WellFormedTransaction (.object fields)

section
variable {node : Node} {method : Bytes} {params : Json}

theorem HexOf.length {n : Nat} {s : Bytes} (hex : HexOf n s) : (fromHex s).length = n := by
  have even : s.length % 2 = 0 := by
    rw [hex.1]
    omega
  obtain ⟨data,decoded,-⟩ := fromHexPairs_digits even hex.2
  rw [fromHex,if_neg (not_not.mpr even),decoded,Option.getD_some,fromHexPairs_length decoded,hex.1]
  omega

/-- The codes of the two handlers that decode an address. -/
theorem addressCode_classified :
    ((¬ ∃ s, params.find? (str "address") = some (.string s) ∧ HexOf 20 s) →
      addressCode params = some invalidParams) ∧ addressCode params ≠ some internalError ↔
    ∀ s, params.find? (str "address") = some (.string s) → HexOf 20 s := by
  unfold addressCode
  have apart : some invalidParams ≠ some internalError := by decide
  cases found : params.find? (str "address") with
  | none => simp [apart]
  | some field =>
    cases field with
    | string s =>
      dsimp only
      by_cases hex : HexOf 20 s
      · simp [hex,hex.length]
      · by_cases length : (fromHex s).length = 20
        · simp [hex,length]
        · simp [hex,length]
    | _ => simp [apart]

theorem indexCode_classified :
    ((¬ ∃ index, params.find? (str "index") = some (.unsigned index) ∧
        index.toNat < node.blockchain.chain.length) → indexCode node params = some invalidParams) ∧
      indexCode node params ≠ some internalError := by
  unfold indexCode
  have apart : some invalidParams ≠ some internalError := by decide
  cases params.find? (str "index") with
  | none => simp [apart]
  | some field =>
    cases field with
    | unsigned index =>
      dsimp only
      by_cases inside : index.toNat < node.blockchain.chain.length
      · simp [inside]
      · simp [inside,apart]
    | _ => simp [apart]

theorem transactionCode_classified :
    ((¬ ∃ fields, params.find? (str "transaction") = some (.object fields) ∧
        WellFormedTransaction (.object fields)) → transactionCode params = some invalidParams) ∧
      transactionCode params ≠ some internalError ↔
    ∀ fields, params.find? (str "transaction") = some (.object fields) →
      TransactionShape (.object fields) → WellFormedTransaction (.object fields) := by
  unfold transactionCode
  have apart : some invalidParams ≠ some internalError := by decide
  cases params.find? (str "transaction") with
  | none => simp [apart]
  | some field =>
    cases field with
    | object fields =>
      have shaped := transactionFromJson_shaped (.object fields)
      dsimp only
      cases decoded : transactionFromJson (.object fields) with
      | ok tx =>
        have shape := shaped.mp ⟨tx,decoded⟩
        simp [shape]
      | error e =>
        have shapeless : ¬ TransactionShape (.object fields) := by
          rw [← shaped,decoded]
          rintro ⟨_,⟨⟩⟩
        simp [shapeless,apart]
    | _ => simp [apart]

/-- A method that asks for one thing: the code is right where it is right for that thing. -/
theorem classified_asked {held legible : Prop} {code : Option Int32} (member : method ∈ supported)
    (asks : WellFormedParams node method params ↔ held) (reads : Legible method params ↔ legible)
    (known : code ≠ some methodNotFound)
    (right : ((¬ held → code = some invalidParams) ∧ code ≠ some internalError) ↔ legible) :
    Classified node method params code ↔ Legible method params := by
  rw [reads,← right,← asks]
  constructor
  · intro classified
    exact ⟨classified.malformed member,classified.internal⟩
  · intro ⟨malformed,internal⟩
    exact ⟨iff_of_false known (not_not.mpr member),fun _ => malformed,internal⟩

theorem classified_address (asked : method = str "getBalance" ∨ method = str "getNonce") :
    Classified node method params (addressCode params) ↔ Legible method params := by
  have member : method ∈ supported := by rcases asked with rfl | rfl <;> decide
  have others : method ≠ str "getBlockByIndex" ∧ method ≠ str "submitTransaction" := by
    rcases asked with rfl | rfl <;> decide
  refine classified_asked member ⟨fun formed => formed.address asked,fun held => ?_⟩
    ⟨fun legible => legible.address asked,fun legible => ?_⟩ ?_ addressCode_classified
  · exact ⟨fun _ => held,fun same => absurd same others.1,fun same => absurd same others.2⟩
  · exact ⟨fun _ => legible,fun same => absurd same others.2⟩
  · unfold addressCode
    split
    · split_ifs <;> decide
    · decide

theorem classified_index : Classified node (str "getBlockByIndex") params (indexCode node params) ↔
    Legible (str "getBlockByIndex") params := by
  have others : ¬ (str "getBlockByIndex" = str "getBalance" ∨ str "getBlockByIndex" = str "getNonce") ∧
      str "getBlockByIndex" ≠ str "submitTransaction" := by decide
  refine classified_asked (by decide) ⟨fun formed => formed.index rfl,fun held => ?_⟩
    (iff_true_intro ?_) ?_ (iff_true_intro indexCode_classified)
  · exact ⟨fun same => absurd same others.1,fun _ => held,fun same => absurd same others.2⟩
  · exact ⟨fun same => absurd same others.1,fun same => absurd same others.2⟩
  · unfold indexCode
    split
    · split_ifs <;> decide
    · decide

theorem classified_transaction : Classified node (str "submitTransaction") params (transactionCode params) ↔
    Legible (str "submitTransaction") params := by
  have others : ¬ (str "submitTransaction" = str "getBalance" ∨ str "submitTransaction" = str "getNonce") ∧
      str "submitTransaction" ≠ str "getBlockByIndex" := by decide
  refine classified_asked (by decide) ⟨fun formed => formed.transaction rfl,fun held => ?_⟩
    ⟨fun legible => legible.transaction rfl,fun legible => ?_⟩ ?_ transactionCode_classified
  · exact ⟨fun same => absurd same others.1,fun same => absurd same others.2,fun _ => held⟩
  · exact ⟨fun same => absurd same others.1,fun _ => legible⟩
  · unfold transactionCode
    split
    · split <;> decide
    · decide

/-- A method that asks for nothing has no code, and an unknown one its own. -/
theorem classified_other (address : ¬ (method = str "getBalance" ∨ method = str "getNonce"))
    (index : method ≠ str "getBlockByIndex") (transaction : method ≠ str "submitTransaction") :
    Classified node method params (methodCode node method params) := by
  have formed : WellFormedParams node method params :=
    ⟨fun same => absurd same address,fun same => absurd same index,fun same => absurd same transaction⟩
  have code : methodCode node method params = if method ∈ supported then none else some methodNotFound := by
    rw [not_or] at address
    simp only [methodCode,supported,List.mem_cons,List.not_mem_nil,address,index,transaction,if_false,
      false_or,or_false]
    by_cases height : method = str "getChainHeight"
    · simp only [height,if_true,true_or]
    · by_cases size : method = str "getMempoolSize"
      · simp only [size,if_true,true_or,or_true,ite_self]
      · simp only [height,size,if_false,false_or]
  rw [code]
  by_cases member : method ∈ supported
  · rw [if_pos member]
    exact ⟨iff_of_false (by decide) (not_not.mpr member),fun _ malformed => absurd formed malformed,by decide⟩
  · rw [if_neg member]
    exact ⟨iff_of_true rfl member,fun supports => absurd supports member,by decide⟩

theorem methodCode_classified : Classified node method params (methodCode node method params) ↔
    Legible method params := by
  by_cases address : method = str "getBalance" ∨ method = str "getNonce"
  · have code : methodCode node method params = addressCode params := by
      rcases address with rfl | rfl <;> rfl
    rw [code]
    exact classified_address address
  · by_cases index : method = str "getBlockByIndex"
    · subst index
      exact classified_index
    · by_cases transaction : method = str "submitTransaction"
      · subst transaction
        exact classified_transaction
      · exact iff_of_true (classified_other address index transaction)
          ⟨fun same => absurd same address,fun same => absurd same transaction⟩

end

/-- A request with a method gets the code of a client's mistake where there is one, and never the
code of an internal error, exactly when its parameters are legible. -/
theorem codes_classify_iff (ext : Externals) (utf8 : ext.ParsesUtf8) (peerCount : UInt64)
    {body method : Bytes} {req : Json} (parsed : ext.parse body = .ok req)
    (named : req.find? (str "method") = some (.string method)) (exec : Exec) :
    (∃ response after, handleRpc ext peerCount body exec = (.ok response,after) ∧
      Classified exec.now.node method ((req.find? (str "params")).getD (.object [])) response.code) ↔
    Legible method ((req.find? (str "params")).getD (.object [])) := by
  have answered : Program.Triple (fun start => start.now.node = exec.now.node) (handleRpc ext peerCount body)
    _ fun _ _ => False := handleRpc_parsed peerCount parsed (utf8 body req parsed)
  obtain ⟨response,after,ran,-,code⟩ := answered.returns (rfl : exec.now.node = exec.now.node)
  have asked : requestCode exec.now.node req =
      methodCode exec.now.node method ((req.find? (str "params")).getD (.object [])) := by
    rw [requestCode,named]
  have classifies : Classified exec.now.node method _ response.code ↔ _ :=
    code ▸ asked ▸ methodCode_classified
  rw [← classifies]
  constructor
  · rintro ⟨other,_,again,classified⟩
    rw [ran] at again
    cases again
    exact classified
  · intro classified
    exact ⟨response,after,ran,classified⟩

end TitanCore.Rpc

namespace TitanCore.Reference
open Rpc

def rpcRequest (method : Bytes) (params : Json) : Json :=
  .object [(str "id",.unsigned 7),(str "method",.string method),(str "params",params)]

/-- The text of such a request parses. -/
theorem strictLibraries_request {method : Bytes} {params : Json}
    (canonical : (rpcRequest method params).canonical = true) :
    strictLibraries.parse (libraries.dump (rpcRequest method params)) = .ok (rpcRequest method params) := by
  have read := libraries_parse _ canonical
  have clean := Json.dumpFault_canonical _ canonical
  have front : ∃ rest, libraries.dump (rpcRequest method params) = 123 :: rest := ⟨_,rfl⟩
  obtain ⟨rest,text⟩ := front
  rw [text] at read ⊢
  have narrow : ¬ (128 ≤ (123 : UInt8).toNat ∧ (123 : UInt8) ≠ 239) := by decide
  simp only [strictLibraries,if_neg narrow,read,clean,if_true]

def balanceRequest (address : Bytes) : Json :=
  rpcRequest (str "getBalance") (.object [(str "address",.string address)])

end TitanCore.Reference

namespace TitanCore.Rpc
open Reference

/-- The balance of an account, by its address. -/
theorem codes_classify_address :
    ∃ response after, handleRpc strictLibraries 0 (libraries.dump (balanceRequest (toHex validatorAddress.val)))
      rpcStart = (.ok response,after) ∧
      Classified rpcNode (str "getBalance") (.object [(str "address",.string (toHex validatorAddress.val))])
        response.code := by
  have parsed : strictLibraries.parse (libraries.dump (balanceRequest (toHex validatorAddress.val))) =
    .ok (balanceRequest (toHex validatorAddress.val)) := strictLibraries_request (by decide +kernel)
  refine (codes_classify_iff strictLibraries strictLibraries_utf8 0 parsed rfl rpcStart).mpr ⟨?_,?_⟩
  · rintro - s ⟨⟩
    exact ⟨by decide +kernel,by decide +kernel⟩
  · exact fun same => absurd same (by decide)

/-- An address that is not hexadecimal is called an internal error, and a negative amount none. -/
theorem codes_misclassify :
    ((handleRpc strictLibraries 0 (libraries.dump (balanceRequest (str "zz"))) rpcStart).1.toOption.map
      Response.code) = some (some internalError) ∧
    ((handleRpc strictLibraries 0 (libraries.dump (rpcRequest (str "submitTransaction")
      (.object [(str "transaction",negativeAmount)]))) rpcStart).1.toOption.map Response.code) = some none ∧
    ¬ ∃ response after, handleRpc strictLibraries 0 (libraries.dump (balanceRequest (str "zz"))) rpcStart =
      (.ok response,after) ∧ Classified rpcNode (str "getBalance")
        (.object [(str "address",.string (str "zz"))]) response.code := by
  have called : ((handleRpc strictLibraries 0 (libraries.dump (balanceRequest (str "zz"))) rpcStart).1.toOption.map
    Response.code) = some (some internalError) := by decide +kernel
  refine ⟨called,by decide +kernel,?_⟩
  rintro ⟨response,after,ran,classified⟩
  rw [ran] at called
  exact classified.internal (Option.some.inj called)

end TitanCore.Rpc
