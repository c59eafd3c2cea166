import TitanCore.Keys

/-! The peer protocol: message kinds, the JSON envelope and the length-prefixed frame. -/
namespace TitanCore

inductive MessageType where
  | ping
  | pong
  | newBlock
  | newTx
  | getBlocks
  | blocks
  deriving DecidableEq

def messageTypeToString : MessageType → Bytes
  | .ping => str "PING"
  | .pong => str "PONG"
  | .newBlock => str "NEW_BLOCK"
  | .newTx => str "NEW_TX"
  | .getBlocks => str "GET_BLOCKS"
  | .blocks => str "BLOCKS"

def messageTypeFromString (s : Bytes) : Except Exn MessageType :=
  if s = str "PING" then .ok .ping
  else if s = str "PONG" then .ok .pong
  else if s = str "NEW_BLOCK" then .ok .newBlock
  else if s = str "NEW_TX" then .ok .newTx
  else if s = str "GET_BLOCKS" then .ok .getBlocks
  else if s = str "BLOCKS" then .ok .blocks
  else .error (.invalidArgument (str "Unknown message type: " ++ s))

structure Message where
  type : MessageType
  payload : Json

/-- Four bytes, least significant first. -/
def encodeLength (length : UInt32) : Bytes :=
  [length.toUInt8,(length >>> 8).toUInt8,(length >>> 16).toUInt8,(length >>> 24).toUInt8]

def decodeLength (b0 b1 b2 b3 : UInt8) : UInt32 :=
  b0.toUInt32 ||| (b1.toUInt32 <<< 8) ||| (b2.toUInt32 <<< 16) ||| (b3.toUInt32 <<< 24)

/-- The limit of `readHeader`, above which the connection is dropped. -/
def maxBodyLen : Nat := 16 * 1024 * 1024

section
variable (ext : Externals)

/-- The envelope; a null payload is sent as an empty object. -/
def Message.toJson (msg : Message) : Json :=
  let j := Json.null
  let j := j.set (str "type") (.string (messageTypeToString msg.type))
  j.set (str "payload") (if msg.payload.isNull then .object [] else msg.payload)

def messageBody (msg : Message) : Bytes := ext.dump msg.toJson

/-- The frame `send` queues. Length and allocation are 32-bit; `none` is a body that does not
fit what was allocated, which the copy would overrun. -/
def serializeMessage (msg : Message) : Option Bytes :=
  let body := messageBody ext msg
  let length := UInt32.ofNat body.length
  let allocated := (4 + length).toNat
  if allocated < 4 + body.length then none else some (encodeLength length ++ body)

def deserializeMessage (jsonBody : Bytes) : Except Exn Message := do
  let j ← ext.parseJson jsonBody
  let type ← messageTypeFromString (← (← j.at? (str "type")).getString)
  let payload := match j.at? (str "payload") with
    | .ok payload => payload
    | .error _ => .object []
  return ⟨type,payload⟩

end

@[simp] theorem messageTypeFromString_toString (type : MessageType) :
    messageTypeFromString (messageTypeToString type) = .ok type := by
  cases type <;> rfl

theorem Message.toJson_fields (msg : Message) : msg.toJson = .object [
    (str "payload",if msg.payload.isNull then .object [] else msg.payload),
    (str "type",.string (messageTypeToString msg.type))] := rfl

theorem Message.canonical_toJson (msg : Message) (payload : msg.payload.canonical = true) :
    msg.toJson.canonical = true := by
  have type : Json.utf8Valid (messageTypeToString msg.type) = true := by
    cases msg.type <;> decide +kernel
  rw [Message.toJson_fields]
  split_ifs
  · simp only [Json.canonical,Json.canonicalFields,Json.keysSorted,type,Bool.and_true]
    decide +kernel
  · simp only [Json.canonical,Json.canonicalFields,Json.keysSorted,type,payload,Bool.and_true]
    decide +kernel

theorem bytes_or (x : BitVec 32) :
    (x.setWidth 8).setWidth 32 ||| (((x >>> 8).setWidth 8).setWidth 32) <<< 8 |||
      (((x >>> 16).setWidth 8).setWidth 32) <<< 16 ||| (((x >>> 24).setWidth 8).setWidth 32) <<< 24 =
      x := by
  apply BitVec.eq_of_getLsbD_eq
  intro i inside
  simp only [BitVec.getLsbD_or,BitVec.getLsbD_shiftLeft,BitVec.getLsbD_setWidth,
    BitVec.getLsbD_ushiftRight]
  grind

theorem decodeLength_encode (n : UInt32) :
    decodeLength n.toUInt8 (n >>> 8).toUInt8 (n >>> 16).toUInt8 (n >>> 24).toUInt8 = n := by
  apply UInt32.toBitVec_inj.mp
  exact bytes_or n.toBitVec

/-- What is allocated takes the body exactly when length and sum stay below `2 ^ 32`. -/
theorem serializeMessage_eq (ext : Externals) (msg : Message) : serializeMessage ext msg =
    if (messageBody ext msg).length + 4 < 2 ^ 32 then
      some (encodeLength (UInt32.ofNat (messageBody ext msg).length) ++ messageBody ext msg)
    else none := by
  have allocated : (4 + UInt32.ofNat (messageBody ext msg).length).toNat =
      (4 + (messageBody ext msg).length) % 2 ^ 32 := by
    rw [UInt32.toNat_add,UInt32.toNat_ofNat']
    change (4 + (messageBody ext msg).length % 2 ^ 32) % 2 ^ 32 = _
    omega
  simp only [serializeMessage,allocated]
  split_ifs
  case pos => omega
  case neg => rfl
  case pos => rfl
  case neg => omega

theorem serializeMessage_fits {ext : Externals} {msg : Message}
    (fits : (messageBody ext msg).length ≤ maxBodyLen) : serializeMessage ext msg =
      some (encodeLength (UInt32.ofNat (messageBody ext msg).length) ++ messageBody ext msg) := by
  have limit : maxBodyLen = 16777216 := rfl
  rw [serializeMessage_eq,if_pos (by omega)]

/-- A message that was sent reads back when the parser undoes its text. -/
theorem deserializeMessage_undone {ext : Externals} {msg : Message}
    (undone : ext.parse (messageBody ext msg) = .ok msg.toJson) :
    deserializeMessage ext (messageBody ext msg) =
      .ok { msg with payload := if msg.payload.isNull then .object [] else msg.payload } := by
  have parsed : ext.parseJson (messageBody ext msg) = .ok msg.toJson := by
    simp only [Externals.parseJson,undone]
  have type : msg.toJson.at? (str "type") = .ok (.string (messageTypeToString msg.type)) := rfl
  have body : msg.toJson.at? (str "payload") =
    .ok (if msg.payload.isNull then .object [] else msg.payload) := rfl
  simp only [deserializeMessage,parsed,type,body,ok_bind,Json.getString,
    messageTypeFromString_toString]
  rfl

theorem deserializeMessage_body (ext : Externals) (parses : ext.ParseUndoesDump) (msg : Message)
    (payload : msg.payload.canonical = true) :
    deserializeMessage ext (messageBody ext msg) =
      .ok { msg with payload := if msg.payload.isNull then .object [] else msg.payload } :=
  deserializeMessage_undone (parses _ (msg.canonical_toJson payload))

end TitanCore
