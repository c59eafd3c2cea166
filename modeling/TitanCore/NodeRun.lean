import TitanCore.NodeHandlers
import TitanCore.Reference

/-! A process that runs a node: it is started on a disk, runs sections, makes the broadcasts
they prepared, dies and is started again. -/
namespace TitanCore

/-- A running node, or what is left of one: `held` is the node the dead process had in memory,
kept to speak about it, and `disk` is what the next start finds. -/
inductive Process where
  | up (now : Snapshot)
  | down (held : Option Node) (disk : Storage) (sent : List Send) (log : List Event)

/-- A section comes with the fates its steps meet; when they are used up the rest proceeds. -/
inductive Action where
  | boot (fates : List Fate)
  | kill
  | submitTransaction (tx : Transaction)
  | produceBlock (clock : UInt64) (orders : Nat → IterationOrder) (fates : List Fate)
  | receive (body : Bytes) (fromPeer : Nat) (orders : Nat → IterationOrder) (fates : List Fate)
  | peerConnected (peer : Nat)
  | broadcast (position : Nat)

def Action.fates : Action → List Fate
  | .boot fates => fates
  | .produceBlock _ _ fates => fates
  | .receive _ _ _ fates => fates
  | _ => []

def Action.Brings (ext : Externals) (action : Action) (msg : Message) : Prop :=
  match action with
  | .receive body _ _ _ => body.length ≤ maxBodyLen ∧ deserializeMessage ext body = .ok msg
  | _ => False

namespace Snapshot

def queue (now : Snapshot) (deferred : Option Send) : Snapshot :=
  { now with outbox := now.outbox ++ deferred.toList }

def broadcast (now : Snapshot) (position : Nat) : Snapshot :=
  match now.outbox[position]? with
  | none => now
  | some send => { now with outbox := now.outbox.eraseIdx position, sent := now.sent ++ [send] }

end Snapshot

namespace Process

def initial : Process := .down none Storage.empty [] []

def die (now : Snapshot) : Process := .down (some now.node) now.node.disk now.sent now.log

/-- An exception reaches the caller and leaves the node running; a crash ends the process. -/
def finish : Except Interrupt (Option Send) × Exec → Process
  | (.ok deferred,exec) => .up (exec.now.queue deferred)
  | (.error (.exception _),exec) => .up exec.now
  | (.error .crash,exec) => die exec.now

def runSection (program : NodeM (Option Send)) (fates : List Fate) : Process → Process
  | .down held disk sent log => .down held disk sent log
  | .up now => finish (program ⟨now,fates⟩)

section
variable (ext : Externals) (config : Config)

/-- The constructor. When it fails or the process dies in it, nothing was written. -/
def boot (fates : List Fate) : Process → Process
  | .up now => .up now
  | .down held disk sent log =>
    match construct ext config disk with
    | .error _ => .down held disk sent log
    | .ok node =>
      match recoverFromStorage ext ⟨⟨node,[],sent,log⟩,fates⟩ with
      | (.ok _,exec) => .up exec.now
      | (.error _,exec) => .down held disk exec.now.sent exec.now.log

def kill : Process → Process
  | .up now => die now
  | .down held disk sent log => .down held disk sent log

def broadcast (position : Nat) : Process → Process
  | .up now => .up (now.broadcast position)
  | .down held disk sent log => .down held disk sent log

/-- A body above the limit is not read; one that is not a message is dropped. -/
def step (process : Process) : Action → Process
  | .boot fates => process.boot ext config fates
  | .kill => process.kill
  | .submitTransaction tx => process.runSection (submitTransaction ext tx) []
  | .produceBlock clock orders fates => process.runSection (produceBlock ext orders clock) fates
  | .receive body fromPeer orders fates =>
    if maxBodyLen < body.length then process
    else match deserializeMessage ext body with
      | .error _ => process
      | .ok msg => process.runSection (handleMessage ext orders msg fromPeer) fates
  | .peerConnected peer => process.runSection (onPeerConnected peer) []
  | .broadcast position => process.broadcast position

def run (actions : List Action) : Process := actions.foldl (step ext config) initial

theorem run_concat (actions : List Action) (action : Action) :
    run ext config (actions ++ [action]) = step ext config (run ext config actions) action := by
  simp [run,List.foldl_append]

/-- A start either returns or leaves things as they were, but for the history. -/
theorem boot_outcome {allowed : Fate → Prop} {done : Snapshot → Prop}
    {halt : Interrupt → Snapshot → Prop} (held : Option Node) {disk : Storage} {sent : List Send}
    {log : List Event} {node : Node} (built : construct ext config disk = .ok node)
    (spec : Spec allowed (fun now => now = ⟨node,[],sent,log⟩) (recoverFromStorage ext)
      (fun _ => done) halt) {fates : List Fate} (calm : ∀ fate ∈ fates, allowed fate) :
    (∃ now, boot ext config fates (.down held disk sent log) = .up now ∧ done now) ∨
    ∃ reason now, boot ext config fates (.down held disk sent log) =
      .down held disk now.sent now.log ∧ halt reason now := by
  have outcome := spec ⟨_,fates⟩ ⟨calm,rfl⟩
  cases result : recoverFromStorage ext ⟨⟨node,[],sent,log⟩,fates⟩ with
  | mk answer exec =>
    rw [result] at outcome
    simp only [boot,built,result]
    cases answer with
    | ok _ => exact .inl ⟨_,rfl,outcome.2⟩
    | error reason => exact .inr ⟨reason,_,rfl,outcome⟩

theorem step_receive (parses : ext.ParseUndoesDump) (process : Process) (msg : Message)
    (canonical : msg.payload.canonical = true) (payload : msg.payload.isNull = false)
    (fits : (messageBody ext msg).length ≤ maxBodyLen) (fromPeer : Nat)
    (orders : Nat → IterationOrder) (fates : List Fate) :
    process.step ext config (.receive (messageBody ext msg) fromPeer orders fates) =
      process.runSection (handleMessage ext orders msg fromPeer) fates := by
  simp only [step,if_neg (Nat.not_lt.mpr fits),deserializeMessage_body ext parses msg canonical,
    payload]
  rfl

end

def node? : Process → Option Node
  | .up now => some now.node
  | .down _ _ _ _ => none

theorem up_of_node {process : Process} {holds : Node → Bool}
    (running : process.node?.any holds = true) : ∃ now, process = .up now ∧ holds now.node = true := by
  cases process with
  | up now => exact ⟨now,rfl,running⟩
  | down => cases running

def log : Process → List Event
  | .up now => now.log
  | .down _ _ _ log => log

def sent : Process → List Send
  | .up now => now.sent
  | .down _ _ sent _ => sent

def held? : Process → Option Node
  | .up _ => none
  | .down held _ _ _ => held

theorem down_of_held {process : Process} {held : Node}
    (dead : process.held? = some held) :
    ∃ disk sent, process = .down (some held) disk sent process.log := by
  cases process with
  | up now => cases dead
  | down _ disk sent log => exact ⟨disk,sent,by rw [← dead]; rfl⟩

/-- `rest` of a running node, `dead` of what is left of one. -/
def Holds (rest : Snapshot → Prop)
    (dead : Option Node → Storage → List Send → List Event → Prop) : Process → Prop
  | .up now => rest now
  | .down held disk sent log => dead held disk sent log

theorem Holds.node {rest : Snapshot → Prop}
    {dead : Option Node → Storage → List Send → List Event → Prop} {process : Process} {node : Node}
    (holds : Holds rest dead process) (running : process.node? = some node) :
    ∃ now, process = .up now ∧ now.node = node ∧ rest now := by
  cases process with
  | up now => exact ⟨now,rfl,Option.some.inj running,holds⟩
  | down => cases running

def afterwards (rest : Snapshot → Prop)
    (dead : Option Node → Storage → List Send → List Event → Prop) : Interrupt → Snapshot → Prop
  | .exception _,now => rest now
  | .crash,now => dead (some now.node) now.node.disk now.sent now.log

/-- An invariant of a process over all its lives, as long as it comes across offered blocks
and sends messages that may be said. -/
structure Lasting (ext : Externals) (config : Config) (allowed : Fate → Prop)
    (offered : Block → Prop) (said : Message → Prop) (rest : Snapshot → Prop)
    (dead : Option Node → Storage → List Send → List Event → Prop) : Prop where
  stable : Stable ext allowed offered said rest (afterwards rest dead)
  boot : ∀ held disk sent log node, dead held disk sent log → construct ext config disk = .ok node →
    Spec allowed (fun now => now = ⟨node,[],sent,log⟩) (recoverFromStorage ext) (fun _ => rest)
      fun _ now => dead held disk now.sent now.log
  kill : ∀ now, rest now → dead (some now.node) now.node.disk now.sent now.log
  queue : ∀ now send, rest now → Sendable ext now.node send.message → said send.message →
    rest (now.queue (some send))
  broadcast : ∀ now position send, rest now → now.outbox[position]? = some send →
    rest { now with outbox := now.outbox.eraseIdx position, sent := now.sent ++ [send] }

namespace Lasting
variable {ext : Externals} {config : Config} {allowed : Fate → Prop} {offered : Block → Prop}
  {said : Message → Prop} {rest : Snapshot → Prop} {dead : Option Node → Storage → List Send → List Event → Prop}

theorem section_holds (lasting : Lasting ext config allowed offered said rest dead)
    {program : NodeM (Option Send)} {process : Process}
    (spec : ∀ now, process = .up now → Spec allowed (fun later => rest later ∧ later.node = now.node)
      program (Stable.Returns ext said rest) (afterwards rest dead))
    {fates : List Fate} (calm : ∀ fate ∈ fates, allowed fate)
    (holds : Holds rest dead process) : Holds rest dead (process.runSection program fates) := by
  cases process with
  | down held disk sent log => exact holds
  | up now =>
    have outcome := spec now rfl ⟨now,fates⟩ ⟨calm,holds,rfl⟩
    change Holds rest dead (finish (program ⟨now,fates⟩))
    cases result : program ⟨now,fates⟩ with
    | mk answer exec =>
      rw [result] at outcome
      cases answer with
      | ok deferred =>
        cases deferred with
        | none =>
          have unchanged : exec.now.queue none = exec.now := by simp [Snapshot.queue]
          change rest (exec.now.queue none)
          rw [unchanged]
          exact outcome.2.1
        | some send =>
          have sendable := outcome.2.2 send rfl
          exact lasting.queue _ send outcome.2.1 sendable.1 sendable.2
      | error reason =>
        cases reason with
        | exception e => exact outcome
        | crash => exact outcome

/-- A section whose specification needs nothing about the node. -/
theorem plain_holds (lasting : Lasting ext config allowed offered said rest dead)
    {program : NodeM (Option Send)}
    (spec : Spec allowed rest program (Stable.Returns ext said rest) (afterwards rest dead))
    {fates : List Fate} (calm : ∀ fate ∈ fates, allowed fate) {process : Process}
    (holds : Holds rest dead process) : Holds rest dead (process.runSection program fates) :=
  lasting.section_holds (fun _ _ => Spec.weaken _ spec fun _ start => start.1) calm holds

/-- What a step needs to know: the blocks it brings in, and the answers they call for. -/
theorem step_holds (lasting : Lasting ext config allowed offered said rest dead) (action : Action)
    (calm : ∀ fate ∈ action.fates, allowed fate) {process : Process}
    (heard : ∀ msg, action.Brings ext msg → ∀ block, msg.Carries block → offered block)
    (answers : ∀ msg, action.Brings ext msg → ∀ now, process = .up now →
      ∀ message, msg.Answer ext now.node message → said message)
    (holds : Holds rest dead process) : Holds rest dead (process.step ext config action) := by
  cases action with
  | boot fates =>
    cases process with
    | up now => exact holds
    | down held disk sent log =>
      cases built : construct ext config disk with
      | error e => simpa only [step,Process.boot,built] using holds
      | ok node =>
        rcases boot_outcome ext config held built
          (lasting.boot held disk sent log node holds built) calm with
          ⟨now,up,holds⟩ | ⟨reason,now,down,holds⟩
        · simp only [Action.fates] at up
          rw [step,up]
          exact holds
        · simp only [Action.fates] at down
          rw [step,down]
          exact holds
  | kill =>
    cases process with
    | up now => exact lasting.kill now holds
    | down held disk sent log => exact holds
  | submitTransaction tx =>
    exact lasting.plain_holds (lasting.stable.submitTransaction_spec tx) calm holds
  | produceBlock clock orders fates =>
    exact lasting.plain_holds (lasting.stable.produceBlock_spec orders clock) calm holds
  | receive body fromPeer orders fates =>
    by_cases long : maxBodyLen < body.length
    · simpa only [step,if_pos long] using holds
    · cases decoded : deserializeMessage ext body with
      | error e => simpa only [step,if_neg long,decoded] using holds
      | ok msg =>
        have brings : Action.Brings ext (.receive body fromPeer orders fates) msg :=
          ⟨Nat.not_lt.mp long,decoded⟩
        simp only [step,if_neg long,decoded]
        exact lasting.section_holds (fun now up => lasting.stable.handleMessage_spec orders msg
          (heard msg brings) now.node (answers msg brings now up) fromPeer) calm holds
  | peerConnected peer =>
    exact lasting.plain_holds (lasting.stable.onPeerConnected_spec peer) calm holds
  | broadcast position =>
    cases process with
    | down held disk sent log => exact holds
    | up now =>
      simp only [step,Process.broadcast,Snapshot.broadcast]
      cases found : now.outbox[position]? with
      | none => exact holds
      | some send => exact lasting.broadcast now position send holds found

/-- Any sequence of actions, with any number of restarts. -/
theorem run_holds
    (lasting : Lasting ext config allowed (fun _ => True) (fun _ => True) rest dead)
    (start : dead none Storage.empty [] []) (actions : List Action)
    (calm : ∀ action ∈ actions, ∀ fate ∈ action.fates, allowed fate) :
    Holds rest dead (run ext config actions) := by
  induction actions using List.reverseRecOn with
  | nil => exact start
  | append_singleton actions action ih =>
    rw [run_concat]
    exact lasting.step_holds action (calm action (by simp)) (fun _ _ _ _ => trivial)
      (fun _ _ _ _ _ _ => trivial) (ih fun earlier member => calm earlier (List.mem_append_left _ member))

end Lasting
end Process

/-! Concrete runs: nodes whose only authority is the reference validator. -/
namespace Reference

def config (nodeKeys : KeyPair) (genesisAllocations : AddressMap UInt64) (persistent : Bool) :
    Config :=
  { nodeKeys,genesisAllocations,persistent
    genesisValidatorKeys := validatorKeys
    authorities := [validatorAddress] }

def funded : AddressMap UInt64 := Finmap.singleton validatorAddress 10

def arrival : Nat → IterationOrder := fun _ => ⟨id,fun _ => .refl _⟩

def deliver (block : Block) (fates : List Fate) : Action :=
  .receive (messageBody libraries ⟨.newBlock,block.toJson⟩) 0 arrival fates

def hand (block : Block) (fates : List Fate) : Action :=
  .receive (messageBody moreLibraries ⟨.newBlock,block.toJson⟩) 0 arrival fates

theorem step_deliver {block : Block}
    (fits : (messageBody libraries ⟨.newBlock,block.toJson⟩).length ≤ maxBodyLen)
    (config : Config) (process : Process) (fates : List Fate) :
    process.step libraries config (deliver block fates) =
      process.runSection (onNewBlock libraries arrival block.toJson 0) fates :=
  Process.step_receive libraries config libraries_parse process ⟨.newBlock,block.toJson⟩
    block.canonical_toJson rfl fits 0 arrival fates

theorem run_deliver {block : Block}
    (fits : (messageBody libraries ⟨.newBlock,block.toJson⟩).length ≤ maxBodyLen)
    (config : Config) (actions : List Action) (fates : List Fate) :
    Process.run libraries config (actions ++ [deliver block fates]) =
      (Process.run libraries config actions).runSection
        (onNewBlock libraries arrival block.toJson 0) fates := by
  rw [Process.run_concat,step_deliver fits]

theorem first_fits : (messageBody libraries ⟨.newBlock,first.toJson⟩).length ≤ maxBodyLen := by
  decide +kernel

theorem second_fits : (messageBody libraries ⟨.newBlock,second.toJson⟩).length ≤ maxBodyLen := by
  decide +kernel

theorem paying_fits : (messageBody libraries ⟨.newBlock,paying.toJson⟩).length ≤ maxBodyLen := by
  decide +kernel

def payingRun : List Action := [.boot []] ++ [deliver paying []]

end Reference
end TitanCore
