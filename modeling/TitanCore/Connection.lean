import Mathlib.Data.List.Infix
import TitanCore.PeerSession
import TitanCore.WriteQueue

/-! One direction of a connection: the write queue of the one side, the bytes on their way and the
read loop of the other side. Together they are a channel of messages, first in, first out. -/
namespace TitanCore

/-- A message that the other side reads; above the limit it hangs up. -/
def Message.Readable (ext : Externals) (msg : Message) : Prop := (messageBody ext msg).length ≤ maxBodyLen

instance (ext : Externals) (msg : Message) : Decidable (msg.Readable ext) :=
  inferInstanceAs (Decidable ((messageBody ext msg).length ≤ maxBodyLen))

/-- What the other side is told when it is sent these messages and loses none: those before the
first one that it does not read. -/
def heard (ext : Externals) (sent : List Message) : List Message :=
  (sent.takeWhile fun msg => msg.Readable ext).filterMap fun msg => (Frame.message msg).received

namespace PeerSession
variable (ext : Externals) (onMessage : List Message → Message → Except Exn Unit)

theorem feed_closed (dispatched : List Message) (stream : Bytes) :
    feed ext onMessage ⟨.closed,dispatched⟩ stream = ⟨.closed,dispatched⟩ := by
  induction stream with
  | nil => rfl
  | cons byte rest ih => exact ih

theorem readBody_dispatched (bodyBuf : Bytes) (session : PeerSession) :
    session.dispatched <+: (readBody ext onMessage bodyBuf session).dispatched := by
  have grows : session.dispatched <+: (handleBody ext onMessage session.dispatched bodyBuf).1 := by
    unfold handleBody
    split
    · exact List.prefix_rfl
    · exact List.prefix_append _ _
  unfold readBody
  rcases handled : handleBody ext onMessage session.dispatched bodyBuf with ⟨dispatched,_ | _⟩
  · rwa [handled] at grows
  · rwa [handled] at grows

theorem receive_dispatched (session : PeerSession) (byte : UInt8) :
    session.dispatched <+: (receive ext onMessage session byte).dispatched := by
  unfold receive
  split
  · exact List.prefix_rfl
  · simp only [readHeader]
    split_ifs
    · exact List.prefix_rfl
    · exact readBody_dispatched ext onMessage _ session
    · exact List.prefix_rfl
  · exact List.prefix_rfl
  · split_ifs
    · exact readBody_dispatched ext onMessage _ session
    · exact List.prefix_rfl

/-- The callback is never taken back. -/
theorem feed_dispatched (session : PeerSession) (stream : Bytes) :
    session.dispatched <+: (feed ext onMessage session stream).dispatched := by
  induction stream generalizing session with
  | nil => exact List.prefix_rfl
  | cons byte rest ih => exact (receive_dispatched ext onMessage session byte).trans (ih _)

theorem feed_oversized (dispatched : List Message) {length : UInt32} (long : maxBodyLen < length.toNat)
    (rest : Bytes) :
    feed ext onMessage ⟨.header [],dispatched⟩ (encodeLength length ++ rest) = ⟨.closed,dispatched⟩ := by
  have header : feed ext onMessage ⟨.header [],dispatched⟩ (encodeLength length) =
      readHeader ext onMessage _ _ _ _ ⟨.header _,dispatched⟩ := rfl
  rw [feed_append,header]
  simp only [readHeader,decodeLength_encode,if_pos long]
  exact feed_closed ext onMessage dispatched rest

/-- Any messages, as their frames arrive one after the other. -/
theorem feed_messages (sent : List Message)
    (framed : ∀ msg ∈ sent, ∃ data, serializeMessage ext msg = some data)
    (parses : ∀ msg ∈ sent, ext.parse (messageBody ext msg) = .ok msg.toJson)
    (dispatched : List Message) :
    (feed ext onMessage ⟨.header [],dispatched⟩
      (sent.flatMap fun msg => (Frame.message msg).bytes ext)).dispatched = dispatched ++ heard ext sent := by
  induction sent generalizing dispatched with
  | nil => simp [feed,heard]
  | cons msg rest ih =>
    have later := ih (fun other member => framed other (List.mem_cons_of_mem _ member))
      fun other member => parses other (List.mem_cons_of_mem _ member)
    obtain ⟨data,frame⟩ := framed msg List.mem_cons_self
    rw [List.flatMap_cons,feed_append,Frame.bytes,frame,Option.getD_some]
    rw [serializeMessage_eq] at frame
    split_ifs at frame with bounded
    obtain rfl := Option.some.inj frame
    by_cases readable : msg.Readable ext
    · have fits : (messageBody ext msg).length ≤ maxBodyLen := readable
      rw [feed_frame _ _ _ _ fits,later,handleBody,deserializeMessage_undone (parses msg List.mem_cons_self)]
      simp [heard,readable,Frame.received]
    · have long : maxBodyLen < (UInt32.ofNat (messageBody ext msg).length).toNat := by
        rw [UInt32.toNat_ofNat',Nat.mod_eq_of_lt (by omega)]
        exact Nat.not_le.mp readable
      rw [feed_oversized ext onMessage dispatched long,feed_closed]
      simp [heard,readable]

end PeerSession

/-- `arrived` counts the bytes that have come out of the network. -/
structure Connection where
  writer : Writer
  reader : PeerSession
  arrived : Nat

namespace Connection

def start : Connection := ⟨.start,.start,0⟩

/-- Anything the sending side goes through; some more bytes come out of the network; or the
receiving side is closed or fails, after which no read succeeds. -/
inductive Event (ext : Externals) where
  | sender (event : Writer.Event ext)
  | arrive (count : Nat)
  | hangUp

section
variable {ext : Externals} (onMessage : List Message → Message → Except Exn Unit)

/-- What comes out of the network is what the socket took and has not come out yet. -/
def step (connection : Connection) : Event ext → Connection
  | .sender event => { connection with writer := connection.writer.step event }
  | .arrive count =>
    let bytes := (connection.writer.taken.drop connection.arrived).take count
    { connection with
      reader := PeerSession.feed ext onMessage connection.reader bytes
      arrived := connection.arrived + bytes.length }
  | .hangUp => { connection with reader := { connection.reader with reading := .closed } }

def run (connection : Connection) (events : List (Event ext)) : Connection :=
  events.foldl (step onMessage) connection

end

def Event.sender? {ext : Externals} : Event ext → Option (Writer.Event ext)
  | .sender event => some event
  | _ => none

def Event.sent? {ext : Externals} : Event ext → Option Message
  | .sender (.send msg _ _) => some msg
  | _ => none

def sent {ext : Externals} (events : List (Event ext)) : List Message := events.filterMap Event.sent?

/-- Nothing is under way any more and neither side was closed. -/
structure Drained {ext : Externals} (events : List (Event ext)) (connection : Connection) : Prop where
  opened : connection.writer.closed = false
  posted : connection.writer.waiting = []
  written : connection.writer.outstanding = 0
  arrived : connection.arrived = connection.writer.taken.length
  listening : Event.hangUp ∉ events

section runs
variable {ext : Externals} {onMessage : List Message → Message → Except Exn Unit}

theorem run_concat (connection : Connection) (events : List (Event ext)) (event : Event ext) :
    run onMessage connection (events ++ [event]) = (run onMessage connection events).step onMessage event := by
  rw [run,run,List.foldl_append,List.foldl_cons,List.foldl_nil]

theorem run_writer (onMessage : List Message → Message → Except Exn Unit) (events : List (Event ext)) :
    (run onMessage start events).writer = Writer.run .start (events.filterMap Event.sender?) := by
  induction events using List.reverseRecOn with
  | nil => rfl
  | append_singleton events event ih =>
    rw [run_concat,List.filterMap_append,Writer.run_append,← ih]
    cases event <;> rfl

/-- What is posted are the frames of what is sent. -/
theorem messages_flatten (events : List (Event ext)) :
    (Writer.messages (events.filterMap Event.sender?)).flatten =
      (sent events).flatMap fun msg => (Frame.message msg).bytes ext := by
  induction events with
  | nil => rfl
  | cons event rest ih =>
    cases event with
    | sender event =>
      cases event with
      | send msg data framed =>
        have frame : (Frame.message msg).bytes ext = data := by rw [Frame.bytes,framed,Option.getD_some]
        change data ++ (Writer.messages (rest.filterMap Event.sender?)).flatten = _
        rw [ih]
        exact congrArg (· ++ _) frame.symm
      | _ => exact ih
    | _ => exact ih

theorem sent_framed (events : List (Event ext)) {msg : Message} (member : msg ∈ sent events) :
    ∃ data, serializeMessage ext msg = some data := by
  obtain ⟨event,-,said⟩ := List.mem_filterMap.mp member
  cases event with
  | sender event =>
    cases event with
    | send other data framed =>
      obtain rfl := Option.some.inj said
      exact ⟨data,framed⟩
    | _ => cases said
  | _ => cases said

theorem handle_taken (handler : Handler) (writer : Writer) :
    (writer.handle handler).taken = writer.taken := by
  have writing : ∀ writer : Writer, writer.doWrite.taken = writer.taken := by
    intro writer
    unfold Writer.doWrite
    split
    · rfl
    · split <;> rfl
  have closing : writer.disconnect.taken = writer.taken := by
    unfold Writer.disconnect
    split <;> rfl
  cases handler with
  | send data =>
    simp only [Writer.handle]
    split_ifs
    · rfl
    · rfl
    · exact writing _
  | close => exact closing
  | headerRead ec bodyLen =>
    simp only [Writer.handle]
    split_ifs
    · exact closing
    · exact closing
    · rfl
  | bodyRead ec =>
    simp only [Writer.handle]
    split_ifs
    · exact closing
    · rfl
  | written ec =>
    cases ec
    · exact writing _
    · exact closing

theorem taken_step (writer : Writer) (event : Writer.Event ext) :
    writer.taken <+: (writer.step event).taken := by
  cases event with
  | transfer i count =>
    simp only [Writer.step]
    split
    · exact List.prefix_rfl
    · exact List.prefix_append _ _
  | complete i ec =>
    simp only [Writer.step]
    split
    · exact List.prefix_rfl
    · split_ifs <;> exact List.prefix_rfl
  | runNext =>
    simp only [Writer.step]
    split
    · exact List.prefix_rfl
    · next handler rest posted =>
      rw [handle_taken]
  | _ => exact List.prefix_rfl

/-- Where the reader stands: it read the bytes that arrived, or had hung up before. -/
structure Kept (ext : Externals) (onMessage : List Message → Message → Except Exn Unit)
    (events : List (Event ext)) (connection : Connection) : Prop where
  arrived : connection.arrived ≤ connection.writer.taken.length
  told : connection.reader.dispatched <+: (PeerSession.feed ext onMessage .start
    (connection.writer.taken.take connection.arrived)).dispatched
  listening : Event.hangUp ∉ events → connection.reader = PeerSession.feed ext onMessage .start
    (connection.writer.taken.take connection.arrived)
  silent : Event.hangUp ∈ events → connection.reader.reading = .closed

theorem run_kept (events : List (Event ext)) : Kept ext onMessage events (run onMessage start events) := by
  induction events using List.reverseRecOn with
  | nil => exact ⟨Nat.le_refl _,List.prefix_rfl,fun _ => rfl,fun absurd => by cases absurd⟩
  | append_singleton events event ih =>
    rw [run_concat]
    generalize run onMessage start events = connection at ih ⊢
    cases event with
    | sender event =>
      have more := taken_step connection.writer event
      have same : (connection.writer.step event).taken.take connection.arrived =
          connection.writer.taken.take connection.arrived := by
        obtain ⟨rest,longer⟩ := more
        rw [← longer,List.take_append_of_le_length ih.arrived]
      constructor
      case arrived => exact ih.arrived.trans more.length_le
      case told => exact same ▸ ih.told
      case listening => exact fun quiet => same ▸ ih.listening fun member => quiet (List.mem_append_left _ member)
      case silent => exact fun member => ih.silent (by simpa using member)
    | arrive count =>
      have cut : connection.writer.taken.take (connection.arrived +
          ((connection.writer.taken.drop connection.arrived).take count).length) =
          connection.writer.taken.take connection.arrived ++
            (connection.writer.taken.drop connection.arrived).take count := by
        rw [List.take_add]
        congr 1
        rw [List.length_take,List.take_eq_take_iff]
        omega
      constructor
      case arrived =>
        simp only [step,List.length_take,List.length_drop]
        have := ih.arrived
        omega
      case told =>
        simp only [step]
        rw [cut,PeerSession.feed_append]
        by_cases hung : Event.hangUp ∈ events
        · have closed : connection.reader = ⟨.closed,connection.reader.dispatched⟩ := by
            rw [← ih.silent hung]
          rw [closed,PeerSession.feed_closed]
          exact ih.told.trans (PeerSession.feed_dispatched ext onMessage _ _)
        · rw [← ih.listening hung]
      case listening =>
        intro quiet
        simp only [step]
        rw [cut,PeerSession.feed_append,← ih.listening fun member => quiet (List.mem_append_left _ member)]
      case silent =>
        intro member
        have closed : connection.reader = ⟨.closed,connection.reader.dispatched⟩ := by
          rw [← ih.silent (by simpa using member)]
        simp only [step]
        rw [closed,PeerSession.feed_closed]
    | hangUp =>
      exact ⟨ih.arrived,ih.told,fun quiet => absurd (by simp) quiet,fun _ => rfl⟩

/-- Once all is written an open session has given the socket every message. -/
theorem taken_drained (events : List (Event ext)) (drained : Drained events (run onMessage start events)) :
    (run onMessage start events).writer.taken =
      (sent events).flatMap fun msg => (Frame.message msg).bytes ext := by
  obtain ⟨through,sound,posted⟩ := Writer.run_sound (events.filterMap Event.sender?)
  rw [← run_writer onMessage] at sound posted
  obtain ⟨opened,nothing,written,-,-⟩ := drained
  generalize (run onMessage start events).writer = writer at *
  rw [nothing,List.append_nil] at posted
  have writes : writer.writes = [] := by
    rw [Writer.outstanding] at written
    exact List.eq_nil_of_length_eq_zero (by omega)
  have completions : writer.completions = [] := by
    rw [Writer.outstanding] at written
    exact List.eq_nil_of_length_eq_zero (by omega)
  have idle : writer.isWriting = false := by
    rw [Bool.eq_false_iff]
    intro busy
    rw [(sound.busy opened).mpr busy] at written
    cases written
  have whole := sound.whole opened (by simp [completions])
  rw [writes,List.flatten_nil,List.append_nil] at whole
  rw [whole,(sound.idle opened idle).2,posted,messages_flatten]

end runs

section delivery
variable {ext : Externals} {onMessage : List Message → Message → Except Exn Unit} {events : List (Event ext)}

/-- The bytes that arrived begin the frames of all that was sent. -/
theorem dispatched_start (parses : ∀ msg ∈ sent events, ext.parse (messageBody ext msg) = .ok msg.toJson) :
    (run onMessage start events).reader.dispatched <+: heard ext (sent events) := by
  have all := PeerSession.feed_messages ext onMessage (sent events)
    (fun _ member => sent_framed events member) parses []
  rw [List.nil_append] at all
  obtain ⟨through,sound,posted⟩ := Writer.run_sound (events.filterMap Event.sender?)
  rw [← run_writer onMessage] at sound posted
  have arrived : (run onMessage start events).writer.taken.take (run onMessage start events).arrived <+:
      (sent events).flatMap fun msg => (Frame.message msg).bytes ext := by
    refine (List.take_prefix _ _).trans (((List.prefix_append _ _).trans sound.taken).trans ?_)
    rw [← messages_flatten,← posted,List.flatten_append]
    obtain ⟨rest,longer⟩ := sound.order
    rw [← longer,List.flatten_append,List.append_assoc]
    exact List.prefix_append _ _
  obtain ⟨rest,stream⟩ := arrived
  rw [← all,← stream,PeerSession.feed_append]
  exact (run_kept events).told.trans (PeerSession.feed_dispatched ext onMessage _ rest)

theorem dispatched_drained (parses : ∀ msg ∈ sent events, ext.parse (messageBody ext msg) = .ok msg.toJson)
    (drained : Drained events (run onMessage start events)) :
    (run onMessage start events).reader.dispatched = heard ext (sent events) := by
  have all := PeerSession.feed_messages ext onMessage (sent events)
    (fun _ member => sent_framed events member) parses []
  have kept : Kept ext onMessage events (run onMessage start events) := run_kept events
  rw [kept.listening drained.listening,drained.arrived,List.take_length,taken_drained events drained]
  exact all

end delivery

/-- Whatever happens to a connection, the callback at its far end is called with the messages that
were sent, in order, none twice and none left out up to the last; and when nothing is under way any
more and neither side was closed, with all of them, up to the first one above the limit. -/
theorem delivers {ext : Externals} (onMessage : List Message → Message → Except Exn Unit)
    (events : List (Event ext))
    (parses : ∀ msg ∈ sent events, ext.parse (messageBody ext msg) = .ok msg.toJson) :
    (run onMessage start events).reader.dispatched <+: heard ext (sent events) ∧
    (Drained events (run onMessage start events) →
      (run onMessage start events).reader.dispatched = heard ext (sent events)) :=
  ⟨dispatched_start parses,dispatched_drained parses⟩

section greeting
open Reference

theorem ping_readable : (⟨.ping,.null⟩ : Message).Readable libraries := by
  change (messageBody libraries ⟨.ping,.null⟩).length ≤ maxBodyLen
  decide +kernel

/-- A ping, written in two parts and read in two others. -/
def greeting : List (Event libraries) := [.sender (.send ⟨.ping,.null⟩ _ (serializeMessage_fits ping_readable)),
  .sender .runNext,.sender (.transfer 0 6),.arrive 3,.sender (.transfer 0 100),.sender (.complete 0 false),
  .sender .runNext,.arrive 100]

theorem delivers_ping : (run (fun _ _ => .ok ()) start greeting).reader.dispatched = [⟨.ping,.object []⟩] := by
  have drained : Drained greeting (run (fun _ _ => .ok ()) start greeting) := by
    constructor
    case opened => decide +kernel
    case posted => decide +kernel
    case written => decide +kernel
    case arrived => decide +kernel
    case listening => simp [greeting]
  refine ((delivers _ greeting ?_).2 drained).trans ?_
  · intro msg member
    obtain rfl := List.mem_singleton.mp member
    exact libraries_parse _ (Message.canonical_toJson _ rfl)
  · have all : [(⟨.ping,.null⟩ : Message)].takeWhile (fun msg => msg.Readable libraries) = [⟨.ping,.null⟩] :=
      List.takeWhile_cons_of_pos (by simpa using ping_readable)
    exact congrArg (List.filterMap fun msg => (Frame.message msg).received) all

end greeting

end Connection
end TitanCore
