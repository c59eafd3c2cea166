import TitanCore.Message
import TitanCore.Reference

/-! What arrives over a connection. The read loop alternates between a four-byte header and a
body, byte for byte as the socket delivers them; blocks decode to what was encoded. -/
namespace TitanCore

/-- The read in progress, with what has arrived for it. -/
inductive Reading where
  | header (received : Bytes)
  | body (length : UInt32) (received : Bytes)
  | closed

/-- `dispatched` are the messages the callback was called with. -/
structure PeerSession where
  reading : Reading
  dispatched : List Message

namespace PeerSession

def start : PeerSession := ⟨.header [],[]⟩

section
variable (ext : Externals) (onMessage : List Message → Message → Except Exn Unit)

/-- The `try` block: parse a body and call the callback, which may depend on what came before
and may throw. -/
def handleBody (dispatched : List Message) (bodyBuf : Bytes) : List Message × Except Exn Unit :=
  match deserializeMessage ext bodyBuf with
  | .error e => (dispatched,.error e)
  | .ok msg => (dispatched ++ [msg],onMessage dispatched msg)

/-- The exception is logged, and the next header is read either way. -/
def readBody (bodyBuf : Bytes) (session : PeerSession) : PeerSession :=
  match handleBody ext onMessage session.dispatched bodyBuf with
  | (dispatched,.ok _) => ⟨.header [],dispatched⟩
  | (dispatched,.error _) => ⟨.header [],dispatched⟩

/-- A read of no bytes completes at once. -/
def readHeader (b0 b1 b2 b3 : UInt8) (session : PeerSession) : PeerSession :=
  let bodyLen := decodeLength b0 b1 b2 b3
  if maxBodyLen < bodyLen.toNat then { session with reading := .closed }
  else if bodyLen = 0 then readBody ext onMessage [] session
  else { session with reading := .body bodyLen [] }

def receive (session : PeerSession) (byte : UInt8) : PeerSession :=
  match session.reading with
  | .closed => session
  | .header [b0,b1,b2] => readHeader ext onMessage b0 b1 b2 byte session
  | .header received => { session with reading := .header (received ++ [byte]) }
  | .body length received =>
    if received.length + 1 = length.toNat then readBody ext onMessage (received ++ [byte]) session
    else { session with reading := .body length (received ++ [byte]) }

def feed (session : PeerSession) (stream : Bytes) : PeerSession :=
  stream.foldl (receive ext onMessage) session

theorem feed_append (session : PeerSession) (earlier later : Bytes) :
    feed ext onMessage session (earlier ++ later) =
      feed ext onMessage (feed ext onMessage session earlier) later := List.foldl_append

theorem feed_body (length : UInt32) (received missing : Bytes) (dispatched : List Message)
    (some_missing : missing ≠ []) (whole : received.length + missing.length = length.toNat) :
    feed ext onMessage ⟨.body length received,dispatched⟩ missing =
      readBody ext onMessage (received ++ missing) ⟨.body length received,dispatched⟩ := by
  induction missing generalizing received with
  | nil => exact absurd rfl some_missing
  | cons byte rest ih =>
    change feed ext onMessage (receive ext onMessage ⟨.body length received,dispatched⟩ byte) rest = _
    cases rest with
    | nil =>
      rw [List.length_singleton] at whole
      simp only [receive,whole,if_true]
      rfl
    | cons next rest =>
      have unfinished : received.length + 1 ≠ length.toNat := by
        rw [← whole]
        simp
      simp only [receive,if_neg unfinished]
      rw [ih (received ++ [byte]) (by simp) (by rw [← whole]; simp; omega),List.append_assoc]
      rfl

theorem feed_frame (dispatched : List Message) (body : Bytes) (fits : body.length ≤ maxBodyLen) :
    feed ext onMessage ⟨.header [],dispatched⟩ (encodeLength (UInt32.ofNat body.length) ++ body) =
      ⟨.header [],(handleBody ext onMessage dispatched body).1⟩ := by
  have limit : maxBodyLen = 16777216 := rfl
  have length : (UInt32.ofNat body.length).toNat = body.length := by
    rw [UInt32.toNat_ofNat']
    exact Nat.mod_eq_of_lt (by omega)
  have header : feed ext onMessage ⟨.header [],dispatched⟩ (encodeLength (UInt32.ofNat body.length)) =
      readHeader ext onMessage _ _ _ _ ⟨.header _,dispatched⟩ := rfl
  have ended : ∀ session : PeerSession, session.dispatched = dispatched →
      readBody ext onMessage body session = ⟨.header [],(handleBody ext onMessage dispatched body).1⟩ := by
    rintro session rfl
    unfold readBody
    rcases handleBody ext onMessage session.dispatched body with ⟨after,_ | _⟩ <;> rfl
  rw [feed_append,header]
  simp only [readHeader,decodeLength_encode,length,if_neg (Nat.not_lt.mpr fits)]
  split_ifs with empty
  · have none_left : body = [] := by
      rw [empty] at length
      exact List.length_eq_zero_iff.mp length.symm
    subst none_left
    exact ended _ rfl
  · rw [feed_body ext onMessage _ [] body _ (by rintro rfl; exact empty rfl)
      (by rw [length]; simp)]
    exact ended _ rfl

end
end PeerSession

/-- What a peer puts on the connection: a message, or a frame whose body is not one. -/
inductive Frame where
  | message (msg : Message)
  | malformed (body : Bytes)

namespace Frame

def bytes (ext : Externals) : Frame → Bytes
  | .message msg => (serializeMessage ext msg).getD []
  | .malformed body => encodeLength (UInt32.ofNat body.length) ++ body

def Admissible (ext : Externals) : Frame → Prop
  | .message msg => (messageBody ext msg).length ≤ maxBodyLen
  | .malformed body => body.length ≤ maxBodyLen ∧ ∃ e, deserializeMessage ext body = .error e

def received : Frame → Option Message
  | .message msg => some { msg with payload := if msg.payload.isNull then .object [] else msg.payload }
  | .malformed _ => none

end Frame

/-- Any stream of frames is read frame by frame: the messages are dispatched in order, whatever
the callback does, and the session ends at a frame boundary. -/
theorem feed_frames (ext : Externals) (onMessage : List Message → Message → Except Exn Unit)
    (frames : List Frame) (admissible : ∀ frame ∈ frames, frame.Admissible ext)
    (parses : ∀ msg, .message msg ∈ frames → ext.parse (messageBody ext msg) = .ok msg.toJson)
    (dispatched : List Message) :
    PeerSession.feed ext onMessage ⟨.header [],dispatched⟩ (frames.flatMap (Frame.bytes ext)) =
      ⟨.header [],dispatched ++ frames.filterMap Frame.received⟩ := by
  induction frames generalizing dispatched with
  | nil => simp [PeerSession.feed]
  | cons frame rest ih =>
    have later := ih (fun other member => admissible other (List.mem_cons_of_mem _ member))
      (fun msg member => parses msg (List.mem_cons_of_mem _ member))
    have head := admissible frame (by simp)
    rw [List.flatMap_cons,PeerSession.feed_append]
    cases frame with
    | message msg =>
      have fits : (messageBody ext msg).length ≤ maxBodyLen := head
      rw [Frame.bytes,serializeMessage_fits fits,Option.getD_some,PeerSession.feed_frame _ _ _ _ fits,
        later,PeerSession.handleBody,deserializeMessage_undone (parses msg (by simp))]
      simp [Frame.received]
    | malformed body =>
      obtain ⟨fits,e,failed⟩ := head
      rw [Frame.bytes,PeerSession.feed_frame _ _ _ _ fits,later,PeerSession.handleBody,failed]
      rfl

open Reference in
/-- Two messages around an empty frame, for a callback that always throws. -/
theorem feed_frames_reference :
    (PeerSession.feed libraries (fun _ _ => .error (.runtimeError (str "callback"))) .start
      ([.message ⟨.ping,.null⟩,.malformed [],.message ⟨.newBlock,first.toJson⟩].flatMap
        (Frame.bytes libraries))).dispatched =
      [⟨.ping,.object []⟩,⟨.newBlock,first.toJson⟩] := by
  rw [PeerSession.start,feed_frames libraries _ _ ?_ ?_]
  · rfl
  · intro frame member
    simp only [List.mem_cons,List.not_mem_nil,or_false] at member
    rcases member with rfl | rfl | rfl
    · change (messageBody libraries ⟨.ping,.null⟩).length ≤ maxBodyLen
      decide +kernel
    · refine ⟨Nat.zero_le _,?_⟩
      cases decoded : deserializeMessage libraries [] with
      | error e => exact ⟨e,rfl⟩
      | ok msg =>
        have ran : (deserializeMessage libraries []).toOption.isNone = true := by decide +kernel
        rw [decoded] at ran
        cases ran
    · change (messageBody libraries ⟨.newBlock,first.toJson⟩).length ≤ maxBodyLen
      decide +kernel
  · intro msg member
    simp only [List.mem_cons,List.not_mem_nil,or_false,Frame.message.injEq,reduceCtorEq,
      false_or] at member
    rcases member with rfl | rfl
    · exact libraries_parse _ (Message.canonical_toJson _ rfl)
    · exact libraries_parse _ (Message.canonical_toJson _ first.canonical_toJson)

/-- Encoded, printed, parsed and decoded, as for a peer or for the disk. -/
def transport (ext : Externals) (block : Block) : Except Exn Block := do
  let j ← ext.parseJson (ext.dump block.toJson)
  blockFromJson j

/-- Every block arrives as it was, so it gets the same verdicts. -/
theorem block_transport (ext : Externals) (parses : ext.ParseUndoesDump) (block : Block) :
    ∃ received, transport ext block = .ok received ∧ received = block ∧
      verifyBlock ext received = verifyBlock ext block ∧
      received.transactions.map (verifyTransaction ext) =
        block.transactions.map (verifyTransaction ext) := by
  refine ⟨block,?_,rfl,rfl,rfl⟩
  rw [transport,ext.parseJson_dump parses block.canonical_toJson,ok_bind,blockFromJson_toJson]

open Reference in
theorem block_transport_paying : ∃ received, transport libraries paying = .ok received ∧
    received.transactions.length = 1 ∧ verifyBlock libraries received = true := by
  obtain ⟨received,arrived,rfl,verdict,-⟩ := block_transport libraries libraries_parse paying
  exact ⟨paying,arrived,rfl,by decide +kernel⟩

end TitanCore
