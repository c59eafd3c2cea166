import TitanCore.Connection
import TitanCore.Node

/-! The network manager: its list of peers and their sessions. A broadcast goes to the peers that
are listed when it is made; a session leaves the list when it disconnects. -/
namespace TitanCore

/-- Sessions by number, in the order in which they were opened. `since` counts those opened before
`stop` was last called; no function reads it. -/
structure NetworkManager where
  peers : List Nat
  sessions : Nat → Connection
  opened : Nat
  since : Nat

namespace NetworkManager

def start : NetworkManager := ⟨[],fun _ => .start,0,0⟩

/-- A connection was accepted or made; the node hands over what it sends; something else happens to
a session; or `stop` is called, after which the executor may run on for a while or not at all. -/
inductive Event (ext : Externals) where
  | connected
  | hand (send : Send) (data : Bytes) (framed : serializeMessage ext send.message = some data)
  | session (id : Nat) (event : Connection.Event ext) (other : event.sent? = none)
  | stop

def addPeer (manager : NetworkManager) : NetworkManager :=
  { manager with peers := manager.peers ++ [manager.opened],opened := manager.opened + 1 }

/-- `std::remove` and `erase`. -/
def removePeer (manager : NetworkManager) (id : Nat) : NetworkManager :=
  { manager with peers := manager.peers.filter (· ≠ id) }

def peerCount (manager : NetworkManager) : Nat := manager.peers.length

section
variable {ext : Externals} (onMessage : Nat → List Message → Message → Except Exn Unit)

def onSession (manager : NetworkManager) (event : Connection.Event ext) (id : Nat) : NetworkManager :=
  let before := manager.sessions id
  let after := before.step (onMessage id) event
  let manager := { manager with sessions := Function.update manager.sessions id after }
  if before.writer.disconnects < after.writer.disconnects then manager.removePeer id else manager

def onPeers (manager : NetworkManager) (event : Connection.Event ext) (peers : List Nat) : NetworkManager :=
  peers.foldl (fun manager => manager.onSession onMessage event) manager

def broadcast (manager : NetworkManager) (event : Connection.Event ext) (exclude : Option Nat) : NetworkManager :=
  manager.onPeers onMessage event (manager.peers.filter fun peer => some peer ≠ exclude)

/-- Every peer is told to close, and the list is cleared. -/
def stop (ext : Externals) (manager : NetworkManager) : NetworkManager :=
  { manager.onPeers onMessage (.sender .close : Connection.Event ext) manager.peers with
    peers := []
    since := manager.opened }

def step (manager : NetworkManager) : Event ext → NetworkManager
  | .connected => manager.addPeer
  | .hand ⟨.peer id,message⟩ data framed =>
    if id < manager.opened then manager.onSession onMessage (.sender (.send message data framed)) id else manager
  | .hand ⟨.others exclude,message⟩ data framed =>
    manager.broadcast onMessage (.sender (.send message data framed)) exclude
  | .session id event _ => if id < manager.opened then manager.onSession onMessage event id else manager
  | .stop => manager.stop onMessage ext

def run (manager : NetworkManager) (events : List (Event ext)) : NetworkManager :=
  events.foldl (step onMessage) manager

end

/-- A session that nothing has ended. -/
def Connected (manager : NetworkManager) (id : Nat) : Prop :=
  manager.since ≤ id ∧ id < manager.opened ∧ (manager.sessions id).writer.closed = false

instance (manager : NetworkManager) (id : Nat) : Decidable (manager.Connected id) :=
  inferInstanceAs (Decidable (_ ∧ _ ∧ _))

def Covers (manager : NetworkManager) : Recipient → Nat → Prop
  | .peer peer,id => id = peer ∧ id < manager.opened
  | .others exclude,id => some id ≠ exclude ∧ manager.Connected id

instance (manager : NetworkManager) (recipient : Recipient) (id : Nat) : Decidable (manager.Covers recipient id) :=
  match recipient with
  | .peer _ => inferInstanceAs (Decidable (_ ∧ _))
  | .others _ => inferInstanceAs (Decidable (_ ∧ _))

def Event.addressed {ext : Externals} (manager : NetworkManager) (id : Nat) : Event ext → List Message
  | .hand send _ _ => if manager.Covers send.recipient id then [send.message] else []
  | _ => []

/-- What a session is to carry in a run: the messages for it and the broadcasts made while it is
connected, less those that exclude it. -/
def addressed {ext : Externals} (onMessage : Nat → List Message → Message → Except Exn Unit) (id : Nat) :
    NetworkManager → List (Event ext) → List Message
  | _,[] => []
  | manager,event :: rest => event.addressed manager id ++ addressed onMessage id (manager.step onMessage event) rest

/-- The list holds the connected sessions in the order in which they were opened. -/
structure Listed (manager : NetworkManager) : Prop where
  peers : manager.peers = (List.range manager.opened).filter manager.Connected
  fresh : ∀ id, manager.opened ≤ id → manager.sessions id = .start
  since : manager.since ≤ manager.opened

end NetworkManager

namespace Writer
variable {ext : Externals}

/-- A handler closes the session and calls `onDisconnect_`, or does neither. -/
theorem handle_disconnects (handler : Handler) (writer : Writer) :
    ((writer.handle handler).disconnects = writer.disconnects ∧ (writer.handle handler).closed = writer.closed) ∨
    (writer.disconnects < (writer.handle handler).disconnects ∧ (writer.handle handler).closed = true) := by
  have writing : ∀ writer : Writer, writer.doWrite.disconnects = writer.disconnects ∧
      writer.doWrite.closed = writer.closed := by
    intro writer
    unfold doWrite
    split
    · exact ⟨rfl,rfl⟩
    · split <;> exact ⟨rfl,rfl⟩
  have closing : (writer.disconnect.disconnects = writer.disconnects ∧ writer.disconnect.closed = writer.closed) ∨
      (writer.disconnects < writer.disconnect.disconnects ∧ writer.disconnect.closed = true) := by
    unfold disconnect
    split
    · exact .inl ⟨rfl,rfl⟩
    · exact .inr ⟨Nat.lt_succ_self _,rfl⟩
  cases handler with
  | send data =>
    left
    simp only [handle]
    split_ifs
    · exact ⟨rfl,rfl⟩
    · exact ⟨rfl,rfl⟩
    · exact writing _
  | close => exact closing
  | headerRead ec bodyLen =>
    simp only [handle]
    split_ifs
    · exact closing
    · exact closing
    · exact .inl ⟨rfl,rfl⟩
  | bodyRead ec =>
    simp only [handle]
    split_ifs
    · exact closing
    · exact .inl ⟨rfl,rfl⟩
  | written ec =>
    cases ec
    · exact .inl (writing _)
    · exact closing

theorem step_disconnects (writer : Writer) (event : Writer.Event ext) :
    ((writer.step event).disconnects = writer.disconnects ∧ (writer.step event).closed = writer.closed) ∨
    (writer.disconnects < (writer.step event).disconnects ∧ (writer.step event).closed = true) := by
  cases event with
  | transfer i count =>
    simp only [step]
    split <;> exact .inl ⟨rfl,rfl⟩
  | complete i ec =>
    simp only [step]
    split
    · exact .inl ⟨rfl,rfl⟩
    · split_ifs <;> exact .inl ⟨rfl,rfl⟩
  | runNext =>
    simp only [step]
    split
    · exact .inl ⟨rfl,rfl⟩
    · exact handle_disconnects _ _
  | _ => exact .inl ⟨rfl,rfl⟩

end Writer

theorem Connection.step_disconnects {ext : Externals} (onMessage : List Message → Message → Except Exn Unit)
    (connection : Connection) (event : Connection.Event ext) :
    ((connection.step onMessage event).writer.disconnects = connection.writer.disconnects ∧
      (connection.step onMessage event).writer.closed = connection.writer.closed) ∨
    (connection.writer.disconnects < (connection.step onMessage event).writer.disconnects ∧
      (connection.step onMessage event).writer.closed = true) := by
  cases event with
  | sender event => exact Writer.step_disconnects connection.writer event
  | _ => exact .inl ⟨rfl,rfl⟩

namespace NetworkManager
variable {ext : Externals} {onMessage : Nat → List Message → Message → Except Exn Unit} {manager : NetworkManager}

section loop
variable (event : Connection.Event ext)

@[simp] theorem onSession_opened (id : Nat) : (manager.onSession onMessage event id).opened = manager.opened := by
  unfold onSession
  dsimp only
  split <;> rfl

@[simp] theorem onSession_since (id : Nat) : (manager.onSession onMessage event id).since = manager.since := by
  unfold onSession
  dsimp only
  split <;> rfl

@[simp] theorem onSession_sessions (id : Nat) : (manager.onSession onMessage event id).sessions =
    Function.update manager.sessions id ((manager.sessions id).step (onMessage id) event) := by
  unfold onSession
  dsimp only
  split <;> rfl

theorem Listed.mem (listed : Listed manager) {id : Nat} : id ∈ manager.peers ↔ manager.Connected id := by
  rw [listed.peers,List.mem_filter,List.mem_range,decide_eq_true_eq]
  exact and_iff_right_of_imp fun connected => connected.2.1

theorem Listed.nodup (listed : Listed manager) : manager.peers.Nodup :=
  listed.peers ▸ List.nodup_range.filter _

/-- Of the others nothing changes; the session itself leaves the list as it closes. -/
theorem Listed.onSession (listed : Listed manager) {id : Nat} (opened : id < manager.opened) :
    Listed (manager.onSession onMessage event id) := by
  have others : ∀ other, other ≠ id →
      ((manager.onSession onMessage event id).Connected other ↔ manager.Connected other) := by
    intro other differs
    simp [Connected,differs]
  constructor
  case peers =>
    rw [onSession_opened]
    rcases (manager.sessions id).step_disconnects (onMessage id) event with ⟨quiet,same⟩ | ⟨called,closed⟩
    · have kept : (manager.onSession onMessage event id).peers = manager.peers := by
        simp [NetworkManager.onSession,quiet]
      rw [kept,listed.peers]
      refine List.filter_congr fun other _ => decide_eq_decide.mpr ?_
      by_cases itself : other = id
      · subst itself
        simp [Connected,same]
      · exact (others other itself).symm
    · have removed : (manager.onSession onMessage event id).peers = manager.peers.filter (· ≠ id) := by
        simp [NetworkManager.onSession,called,removePeer]
      rw [removed,listed.peers,List.filter_filter]
      refine List.filter_congr fun other _ => ?_
      by_cases itself : other = id
      · subst itself
        simp [Connected,closed]
      · simp [others other itself,itself]
  case fresh =>
    intro other later
    rw [onSession_opened] at later
    rw [onSession_sessions,Function.update_of_ne (by omega)]
    exact listed.fresh other later
  case since => simpa using listed.since

theorem Listed.onPeers (listed : Listed manager) {peers : List Nat} (opened : ∀ id ∈ peers, id < manager.opened) :
    Listed (manager.onPeers onMessage event peers) := by
  induction peers generalizing manager with
  | nil => exact listed
  | cons peer rest ih =>
    have first : Listed (manager.onSession onMessage event peer) :=
      listed.onSession event (opened peer List.mem_cons_self)
    refine ih first fun id member => ?_
    rw [onSession_opened]
    exact opened id (List.mem_cons_of_mem _ member)

@[simp] theorem onPeers_opened (peers : List Nat) :
    (manager.onPeers onMessage event peers).opened = manager.opened := by
  induction peers generalizing manager with
  | nil => rfl
  | cons peer rest ih => exact ih.trans (onSession_opened event peer)

@[simp] theorem onPeers_since (peers : List Nat) :
    (manager.onPeers onMessage event peers).since = manager.since := by
  induction peers generalizing manager with
  | nil => rfl
  | cons peer rest ih => exact ih.trans (onSession_since event peer)

theorem onPeers_sessions {peers : List Nat} (once : peers.Nodup) (id : Nat) :
    (manager.onPeers onMessage event peers).sessions id =
      if id ∈ peers then (manager.sessions id).step (onMessage id) event else manager.sessions id := by
  induction peers generalizing manager with
  | nil => rfl
  | cons peer rest ih =>
    obtain ⟨absent,once⟩ := List.nodup_cons.mp once
    refine (ih once).trans ?_
    rw [onSession_sessions]
    by_cases itself : id = peer
    · subst itself
      simp [absent]
    · simp [itself]

end loop

theorem start_listed : Listed start := ⟨rfl,fun _ _ => rfl,Nat.le_refl _⟩

theorem Listed.addPeer (listed : Listed manager) : Listed manager.addPeer := by
  have others : ∀ other, other ≠ manager.opened → (manager.addPeer.Connected other ↔ manager.Connected other) := by
    intro other differs
    have place : other < manager.opened + 1 ↔ other < manager.opened := by omega
    simp only [Connected,NetworkManager.addPeer,place]
  have itself : manager.addPeer.Connected manager.opened :=
    ⟨listed.since,Nat.lt_succ_self _,congrArg (·.writer.closed) (listed.fresh _ (Nat.le_refl _))⟩
  constructor
  case peers =>
    have before : (List.range manager.opened).filter manager.addPeer.Connected =
        (List.range manager.opened).filter manager.Connected :=
      List.filter_congr fun other member =>
        decide_eq_decide.mpr (others other (Nat.ne_of_lt (List.mem_range.mp member)))
    change manager.peers ++ [manager.opened] = (List.range (manager.opened + 1)).filter manager.addPeer.Connected
    rw [List.range_succ,List.filter_append,before,listed.peers]
    simp [itself]
  case fresh => exact fun id later => listed.fresh id (Nat.le_of_succ_le later)
  case since => exact Nat.le_succ_of_le listed.since

theorem Listed.stop (listed : Listed manager) : Listed (manager.stop onMessage ext) := by
  have looped : Listed (manager.onPeers onMessage (.sender .close : Connection.Event ext) manager.peers) :=
    listed.onPeers _ fun id member => (listed.mem.mp member).2.1
  constructor
  case peers =>
    refine (List.filter_eq_nil_iff.mpr fun id member => ?_).symm
    simp only [Connected,NetworkManager.stop,onPeers_opened,List.mem_range] at member ⊢
    simp [member]
  case fresh => exact looped.fresh
  case since => simp [NetworkManager.stop]

theorem Listed.step (listed : Listed manager) (event : Event ext) : Listed (manager.step onMessage event) := by
  cases event with
  | connected => exact listed.addPeer
  | hand send data framed =>
    obtain ⟨recipient,message⟩ := send
    cases recipient with
    | peer id =>
      simp only [NetworkManager.step]
      split_ifs with opened
      · exact listed.onSession _ opened
      · exact listed
    | others exclude =>
      exact listed.onPeers _ fun id member => (listed.mem.mp (List.mem_filter.mp member).1).2.1
  | session id event other =>
    simp only [NetworkManager.step]
    split_ifs with opened
    · exact listed.onSession _ opened
    · exact listed
  | stop => exact listed.stop

theorem Listed.run (listed : Listed manager) (events : List (Event ext)) : Listed (manager.run onMessage events) := by
  induction events generalizing manager with
  | nil => exact listed
  | cons event rest ih => exact ih (listed.step event)


/-- `peers_` lists the sessions that were opened since `stop` and have not closed, each once and in
the order in which they were opened, whatever happened. -/
theorem run_peers (onMessage : Nat → List Message → Message → Except Exn Unit) (events : List (Event ext)) :
    (start.run onMessage events).peers =
      (List.range (start.run onMessage events).opened).filter (start.run onMessage events).Connected :=
  (start_listed.run events).peers

structure Seen (onMessage : Nat → List Message → Message → Except Exn Unit) (manager : NetworkManager)
    (id : Nat) (event : Event ext) (trace : List (Connection.Event ext)) : Prop where
  session : (manager.step onMessage event).sessions id = (manager.sessions id).run (onMessage id) trace
  sent : Connection.sent trace = event.addressed manager id
  hangUp : .hangUp ∈ trace → event = .session id .hangUp rfl

theorem Listed.seen (listed : Listed manager) (id : Nat) (event : Event ext) :
    ∃ trace, Seen onMessage manager id event trace := by
  cases event with
  | connected => exact ⟨[],rfl,rfl,fun absurd => by cases absurd⟩
  | hand send data framed =>
    obtain ⟨recipient,message⟩ := send
    by_cases covers : manager.Covers recipient id
    · refine ⟨[.sender (.send message data framed)],?_,?_,by simp⟩
      · cases recipient with
        | peer peer =>
          obtain ⟨rfl,opened⟩ := covers
          simp [NetworkManager.step,opened,Connection.run]
        | others exclude =>
          obtain ⟨other,connected⟩ := covers
          have member : id ∈ manager.peers.filter fun peer => some peer ≠ exclude :=
            List.mem_filter.mpr ⟨listed.mem.mpr connected,by simpa using other⟩
          rw [NetworkManager.step,broadcast,onPeers_sessions _ (listed.nodup.filter _),if_pos member]
          rfl
      · simp [Event.addressed,covers,Connection.sent,Connection.Event.sent?]
    · refine ⟨[],?_,by simp [Event.addressed,covers,Connection.sent],fun absurd => by cases absurd⟩
      cases recipient with
      | peer peer =>
        simp only [NetworkManager.step]
        split_ifs with opened
        · have differs : id ≠ peer := fun same => covers ⟨same,same ▸ opened⟩
          rw [onSession_sessions,Function.update_of_ne differs]
          rfl
        · rfl
      | others exclude =>
        have absent : id ∉ manager.peers.filter fun peer => some peer ≠ exclude := fun member =>
          covers ⟨by simpa using (List.mem_filter.mp member).2,listed.mem.mp (List.mem_filter.mp member).1⟩
        rw [NetworkManager.step,broadcast,onPeers_sessions _ (listed.nodup.filter _),if_neg absent]
        rfl
  | session peer event other =>
    by_cases happens : id = peer ∧ peer < manager.opened
    · obtain ⟨rfl,opened⟩ := happens
      refine ⟨[event],?_,?_,?_⟩
      · simp [NetworkManager.step,opened,Connection.run]
      · simp [Event.addressed,Connection.sent,other]
      · intro member
        obtain rfl := List.mem_singleton.mp member
        rfl
    · refine ⟨[],?_,rfl,fun absurd => by cases absurd⟩
      simp only [NetworkManager.step]
      split_ifs with opened
      · have differs : id ≠ peer := fun same => happens ⟨same,opened⟩
        rw [onSession_sessions,Function.update_of_ne differs]
        rfl
      · rfl
  | stop =>
    have looped : (manager.onPeers onMessage (.sender .close : Connection.Event ext) manager.peers).sessions id = _ :=
      onPeers_sessions _ listed.nodup id
    by_cases member : id ∈ manager.peers
    · exact ⟨[.sender .close],looped.trans (if_pos member),rfl,by simp⟩
    · exact ⟨[],looped.trans (if_neg member),rfl,fun absurd => by cases absurd⟩

theorem Listed.run_seen (listed : Listed manager) (id : Nat) (events : List (Event ext)) :
    ∃ trace : List (Connection.Event ext),
      (manager.run onMessage events).sessions id = (manager.sessions id).run (onMessage id) trace ∧
      Connection.sent trace = addressed onMessage id manager events ∧
      (.hangUp ∈ trace → Event.session id .hangUp rfl ∈ events) := by
  induction events generalizing manager with
  | nil => exact ⟨[],rfl,rfl,fun absurd => by cases absurd⟩
  | cons event rest ih =>
    have ⟨trace,seen⟩ : ∃ trace, Seen onMessage manager id event trace := listed.seen id event
    have next : Listed (manager.step onMessage event) := listed.step event
    obtain ⟨later,session,sent,hangUp⟩ := ih next
    refine ⟨trace ++ later,?_,?_,?_⟩
    · refine session.trans ?_
      rw [seen.session,Connection.run,Connection.run,Connection.run,List.foldl_append]
    · rw [Connection.sent,List.filterMap_append]
      exact congrArg₂ (· ++ ·) seen.sent sent
    · intro member
      rcases List.mem_append.mp member with member | member
      · exact seen.hangUp member ▸ List.mem_cons_self
      · exact List.mem_cons_of_mem _ (hangUp member)

/-- Nothing is under way to a session any more and neither side of it was closed. -/
structure Quiet (events : List (Event ext)) (id : Nat) (connection : Connection) : Prop where
  opened : connection.writer.closed = false
  posted : connection.writer.waiting = []
  written : connection.writer.outstanding = 0
  arrived : connection.arrived = connection.writer.taken.length
  listening : .session id .hangUp rfl ∉ events

/-- Each peer is told what was sent to it and what was broadcast while it was connected, in order,
none twice and none left out up to the last, whatever happens to it or to the others; and all of it
once nothing is under way any more, up to the first message above the limit. -/
theorem broadcasts (onMessage : Nat → List Message → Message → Except Exn Unit) (events : List (Event ext))
    (id : Nat) (parses : ∀ msg ∈ addressed onMessage id start events,
      ext.parse (messageBody ext msg) = .ok msg.toJson) :
    ((start.run onMessage events).sessions id).reader.dispatched <+: heard ext (addressed onMessage id start events) ∧
    (Quiet events id ((start.run onMessage events).sessions id) →
      ((start.run onMessage events).sessions id).reader.dispatched =
        heard ext (addressed onMessage id start events)) := by
  have ⟨trace,session,sent,hangUp⟩ : ∃ trace, (start.run onMessage events).sessions id =
      (start.sessions id).run (onMessage id) trace ∧ Connection.sent trace = addressed onMessage id start events ∧
      (.hangUp ∈ trace → Event.session id .hangUp rfl ∈ events) := start_listed.run_seen id events
  rw [← sent] at parses
  rw [session,← sent]
  refine ⟨Connection.dispatched_start parses,fun quiet => Connection.dispatched_drained parses ?_⟩
  exact ⟨quiet.opened,quiet.posted,quiet.written,quiet.arrived,fun member => quiet.listening (hangUp member)⟩

section meeting
open Reference Connection

/-- Two peers connect, and a ping goes to all but the first. -/
def meeting : List (Event libraries) := [.connected,.connected,
  .hand ⟨.others (some 0),⟨.ping,.null⟩⟩ _ (serializeMessage_fits ping_readable),
  .session 1 (.sender .runNext) rfl,.session 1 (.sender (.transfer 0 100)) rfl,
  .session 1 (.sender (.complete 0 false)) rfl,.session 1 (.sender .runNext) rfl,.session 1 (.arrive 100) rfl]

theorem broadcasts_meeting :
    ((start.run (fun _ _ _ => .ok ()) meeting).sessions 1).reader.dispatched = [⟨.ping,.object []⟩] := by
  have one : addressed (fun _ _ _ => .ok ()) 1 start meeting = [⟨.ping,.null⟩] := rfl
  have quiet : Quiet meeting 1 ((start.run (fun _ _ _ => .ok ()) meeting).sessions 1) := by
    constructor
    case opened => decide +kernel
    case posted => decide +kernel
    case written => decide +kernel
    case arrived => decide +kernel
    case listening =>
      intro member
      have none_hangs : meeting.all (fun | .session _ .hangUp _ => false | _ => true) = true := rfl
      cases List.all_eq_true.mp none_hangs _ member
  refine ((broadcasts _ meeting 1 ?_).2 quiet).trans ?_
  · intro msg member
    rw [one] at member
    obtain rfl := List.mem_singleton.mp member
    exact libraries_parse _ (Message.canonical_toJson _ rfl)
  · have all : [(⟨.ping,.null⟩ : Message)].takeWhile (fun msg => msg.Readable libraries) = [⟨.ping,.null⟩] :=
      List.takeWhile_cons_of_pos (by simpa using ping_readable)
    rw [one]
    exact congrArg (List.filterMap fun msg => (Frame.message msg).received) all

end meeting

end NetworkManager
end TitanCore
