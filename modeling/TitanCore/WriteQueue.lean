import Mathlib.Data.List.Induction
import TitanCore.Message

/-! The write side of a peer session. Handlers and completions run one at a time, in the order
in which they were posted; writes end, the peer fails and `close` is called at any time. -/
namespace TitanCore

/-- What runs on the executor of the socket. `ec` says that the operation ended with an error. -/
inductive Handler where
  | send (data : Bytes)
  | close
  | headerRead (ec : Bool) (bodyLen : UInt32)
  | bodyRead (ec : Bool)
  | written (ec : Bool)

/-- The members of the session, and what the executor and the socket hold for it. `writes` are
the operations the socket still works on, with what it has not taken of their buffers. -/
structure Writer where
  writeQueue : List Bytes
  isWriting : Bool
  closed : Bool
  posted : List Handler
  writes : List Bytes
  handed : List Bytes
  taken : Bytes
  disconnects : Nat

/-- A call of `close`, a read error, a header above the limit and a failed write close the session. -/
def Handler.closes : Handler → Bool
  | .send _ => false
  | .close => true
  | .headerRead ec bodyLen => ec || maxBodyLen < bodyLen.toNat
  | .bodyRead ec => ec
  | .written ec => ec

namespace Writer

def start : Writer := ⟨[],false,false,[],[],[],[],0⟩

def post (handler : Handler) (writer : Writer) : Writer :=
  { writer with posted := writer.posted ++ [handler] }

/-- `asio::async_write` is handed the front of the queue. -/
def doWrite (writer : Writer) : Writer :=
  match writer.writeQueue with
  | [] => { writer with isWriting := false }
  | data :: _ =>
    if writer.closed then { writer with isWriting := false }
    else { writer with
      isWriting := true
      writes := writer.writes ++ [data]
      handed := writer.handed ++ [data] }

def disconnect (writer : Writer) : Writer :=
  if writer.closed then writer
  else { writer with closed := true,disconnects := writer.disconnects + 1 }

/-- The bodies of the lambdas. The read loop goes on in `PeerSession`. -/
def handle (handler : Handler) (writer : Writer) : Writer :=
  match handler with
  | .send data =>
    if writer.closed then writer
    else
      let queued := { writer with writeQueue := writer.writeQueue ++ [data] }
      if queued.isWriting then queued else queued.doWrite
  | .close => writer.disconnect
  | .headerRead ec bodyLen =>
    if ec then writer.disconnect
    else if maxBodyLen < bodyLen.toNat then writer.disconnect
    else writer
  | .bodyRead ec => if ec then writer.disconnect else writer
  | .written ec =>
    if ec then writer.disconnect
    else doWrite { writer with writeQueue := writer.writeQueue.tail }

/-- What happens to a session: the calls of its methods, its reads as they end, the progress and
the end of its writes, and the executor running the next handler. -/
inductive Event (ext : Externals) where
  | send (msg : Message) (data : Bytes) (framed : serializeMessage ext msg = some data)
  | close
  | headerRead (ec : Bool) (bodyLen : UInt32)
  | bodyRead (ec : Bool)
  | transfer (i count : Nat)
  | complete (i : Nat) (ec : Bool)
  | runNext

section
variable {ext : Externals}

/-- A write succeeds when the socket took its whole buffer; it may fail at any time. -/
def step (writer : Writer) : Event ext → Writer
  | .send _ data _ => writer.post (.send data)
  | .close => writer.post .close
  | .headerRead ec bodyLen => writer.post (.headerRead ec bodyLen)
  | .bodyRead ec => writer.post (.bodyRead ec)
  | .transfer i count =>
    match writer.writes[i]? with
    | none => writer
    | some left => { writer with
        writes := writer.writes.set i (left.drop count)
        taken := writer.taken ++ left.take count }
  | .complete i ec =>
    match writer.writes[i]? with
    | none => writer
    | some left =>
      if ec ∨ left = [] then
        { writer with writes := writer.writes.eraseIdx i }.post (.written ec)
      else writer
  | .runNext =>
    match writer.posted with
    | [] => writer
    | handler :: rest => { writer with posted := rest }.handle handler

def run (writer : Writer) (events : List (Event ext)) : Writer := events.foldl step writer

def next? (writer : Writer) : Event ext → Option Handler
  | .runNext => writer.posted.head?
  | _ => none

def handled (writer : Writer) : List (Event ext) → List Handler
  | [] => []
  | event :: events => (writer.next? event).toList ++ (writer.step event).handled events

end

def Event.message? {ext : Externals} : Event ext → Option Bytes
  | .send _ data _ => some data
  | _ => none

def messages {ext : Externals} (events : List (Event ext)) : List Bytes := events.filterMap Event.message?

def data? : Handler → Option Bytes
  | .send data => some data
  | _ => none

def completion? : Handler → Option Bool
  | .written ec => some ec
  | _ => none

def completions (writer : Writer) : List Bool := writer.posted.filterMap completion?

/-- The writes whose handler has not run. -/
def outstanding (writer : Writer) : Nat := writer.writes.length + writer.completions.length

/-- What holds between two handlers, when `through` are the messages whose handlers have run. An
open session writes as long as its queue holds something, and the front of it is being written. -/
structure Sound (writer : Writer) (through : List Bytes) : Prop where
  single : writer.outstanding ≤ 1
  busy : writer.closed = false → (writer.outstanding = 1 ↔ writer.isWriting = true)
  front : writer.closed = false → writer.isWriting = true →
    ∃ earlier data, writer.handed = earlier ++ [data] ∧ earlier ++ writer.writeQueue = through ∧
      writer.writeQueue.head? = some data
  idle : writer.closed = false → writer.isWriting = false →
    writer.writeQueue = [] ∧ writer.handed = through
  order : writer.handed <+: through
  taken : writer.taken ++ writer.writes.flatten <+: writer.handed.flatten
  whole : writer.closed = false → true ∉ writer.completions →
    writer.taken ++ writer.writes.flatten = writer.handed.flatten
  once : writer.disconnects = if writer.closed then 1 else 0

section sound
variable {writer : Writer} {through : List Bytes}

theorem start_sound : Sound start [] := by
  constructor <;> simp [start,outstanding,completions]

/-- Posting anything but the end of a write changes nothing yet. -/
theorem Sound.post (sound : Sound writer through) {handler : Handler}
    (other : completion? handler = none) : Sound (writer.post handler) through := by
  have same : (writer.post handler).completions = writer.completions := by
    simp [Writer.post,completions,other]
  have count : (writer.post handler).outstanding = writer.outstanding := by
    rw [outstanding,same]
    rfl
  exact {
    single := count ▸ sound.single
    busy := count ▸ sound.busy
    front := sound.front
    idle := sound.idle
    order := sound.order
    taken := sound.taken
    whole := by
      rw [same]
      exact sound.whole
    once := sound.once }

/-- Of one write, the socket works on it or its handler waits. -/
theorem Sound.inFlight (sound : Sound writer through) {i : Nat} {left : Bytes}
    (held : writer.writes[i]? = some left) : i = 0 ∧ writer.writes = [left] ∧ writer.completions = [] := by
  have single := sound.single
  rw [outstanding] at single
  match writes : writer.writes with
  | [] =>
    rw [writes] at held
    simp at held
  | only :: rest =>
    rw [writes,List.length_cons] at single
    have none_else : rest = [] := List.eq_nil_of_length_eq_zero (by omega)
    have none_ended : writer.completions = [] := List.eq_nil_of_length_eq_zero (by omega)
    subst none_else
    rw [writes] at held
    cases i with
    | zero =>
      simp only [List.getElem?_cons_zero,Option.some.injEq] at held
      exact ⟨rfl,by rw [held],none_ended⟩
    | succ i => simp at held

theorem Sound.transfer (sound : Sound writer through) {i : Nat} {left : Bytes}
    (held : writer.writes[i]? = some left) (count : Nat) :
    Sound { writer with
      writes := writer.writes.set i (left.drop count)
      taken := writer.taken ++ left.take count } through := by
  obtain ⟨rfl,writes,-⟩ := sound.inFlight held
  have moved : writer.taken ++ left.take count ++ (writer.writes.set 0 (left.drop count)).flatten =
      writer.taken ++ writer.writes.flatten := by
    rw [writes]
    simp
  have number : (writer.writes.set 0 (left.drop count)).length = writer.writes.length := List.length_set
  exact {
    single := by
      rw [outstanding,number]
      exact sound.single
    busy := by
      rw [outstanding,number]
      exact sound.busy
    front := sound.front
    idle := sound.idle
    order := sound.order
    taken := moved ▸ sound.taken
    whole := fun alive none_failed => moved.trans (sound.whole alive none_failed)
    once := sound.once }

/-- A write ends: its handler waits. -/
theorem Sound.complete (sound : Sound writer through) {i : Nat} {left : Bytes} {ec : Bool}
    (held : writer.writes[i]? = some left) (ended : ec = true ∨ left = []) :
    Sound ({ writer with writes := writer.writes.eraseIdx i }.post (.written ec)) through := by
  obtain ⟨rfl,writes,none_ended⟩ := sound.inFlight held
  have completed : ({ writer with writes := writer.writes.eraseIdx 0 }.post (.written ec)).completions = [ec] := by
    rw [completions] at none_ended ⊢
    simp [Writer.post,completion?,none_ended]
  have count : ({ writer with writes := writer.writes.eraseIdx 0 }.post (.written ec)).outstanding =
      writer.outstanding := by
    rw [outstanding,outstanding,completed,none_ended]
    simp [Writer.post,writes]
  exact {
    single := count ▸ sound.single
    busy := count ▸ sound.busy
    front := sound.front
    idle := sound.idle
    order := sound.order
    taken := by
      have taken := sound.taken
      rw [writes] at taken
      simp only [Writer.post,writes,List.eraseIdx_cons_zero,List.flatten_nil,List.append_nil]
      exact (List.prefix_append _ _).trans taken
    whole := by
      intro alive
      rw [completed]
      intro succeeded
      have empty : left = [] := by
        rcases ended with failed | empty
        · exact absurd (by simp [failed]) succeeded
        · exact empty
      have whole := sound.whole alive (by simp [none_ended])
      rw [writes,empty] at whole
      simpa [Writer.post,writes] using whole
    once := sound.once }

theorem disconnect_sound (single : writer.outstanding ≤ 1) (order : writer.handed <+: through)
    (taken : writer.taken ++ writer.writes.flatten <+: writer.handed.flatten)
    (once : writer.disconnects = if writer.closed then 1 else 0) : Sound writer.disconnect through := by
  unfold disconnect
  split
  · next closed =>
    constructor <;> simp_all
  · next alive =>
    rw [if_neg alive] at once
    constructor <;> simp_all [outstanding,completions]

theorem doWrite_idle (nothing : writer.closed = false → writer.writeQueue = []) :
    writer.doWrite = { writer with isWriting := false } := by
  unfold doWrite
  split
  · rfl
  · next queue =>
    split
    · rfl
    · next alive =>
      rw [nothing (by simpa using alive)] at queue
      cases queue

theorem doWrite_next {data : Bytes} {rest : List Bytes} (opened : writer.closed = false)
    (queue : writer.writeQueue = data :: rest) : writer.doWrite = { writer with
      isWriting := true,writes := writer.writes ++ [data],handed := writer.handed ++ [data] } := by
  simp [doWrite,queue,opened]

/-- With no write in progress the next one starts, if there is one and the session is open. -/
theorem doWrite_sound (none_writing : writer.writes = []) (none_ended : writer.completions = [])
    (order : writer.handed <+: through) (taken : writer.taken <+: writer.handed.flatten)
    (waiting : writer.closed = false → writer.handed ++ writer.writeQueue = through ∧
      writer.taken = writer.handed.flatten)
    (once : writer.disconnects = if writer.closed then 1 else 0) : Sound writer.doWrite through := by
  by_cases nothing : writer.closed = false → writer.writeQueue = []
  · rw [doWrite_idle nothing]
    constructor <;> simp_all [outstanding,completions]
  · obtain ⟨opened,some_queued⟩ := Classical.not_imp.mp nothing
    obtain ⟨data,rest,queue⟩ := List.exists_cons_of_ne_nil some_queued
    obtain ⟨ordered,all_taken⟩ := waiting opened
    rw [doWrite_next opened queue]
    have ended : completions { writer with
        isWriting := true,writes := writer.writes ++ [data],handed := writer.handed ++ [data] } = [] :=
      none_ended
    have bytes : writer.taken ++ (writer.writes ++ [data]).flatten = (writer.handed ++ [data]).flatten := by
      simp [none_writing,all_taken]
    exact {
      single := by rw [outstanding,ended,none_writing]; exact Nat.le_refl _
      busy := fun _ => by rw [outstanding,ended,none_writing]; simp
      front := fun _ _ => ⟨writer.handed,data,rfl,ordered,by rw [queue]; rfl⟩
      idle := fun _ waiting => by cases waiting
      order := by
        rw [← ordered,queue]
        exact (List.prefix_append_right_inj _).mpr (List.prefix_append [data] rest)
      taken := bytes ▸ List.prefix_refl _
      whole := fun _ _ => bytes
      once := once }

/-- A handler that is no end of a write leaves the executor. -/
theorem Sound.popped (sound : Sound writer through) {handler : Handler} {rest : List Handler}
    (posted : writer.posted = handler :: rest) (other : completion? handler = none) :
    Sound { writer with posted := rest } through := by
  have same : ({ writer with posted := rest } : Writer).completions = writer.completions := by
    rw [completions,completions,posted,List.filterMap_cons_none other]
  have count : ({ writer with posted := rest } : Writer).outstanding = writer.outstanding := by
    rw [outstanding,same]
    rfl
  exact {
    single := count ▸ sound.single
    busy := count ▸ sound.busy
    front := sound.front
    idle := sound.idle
    order := sound.order
    taken := sound.taken
    whole := by
      rw [same]
      exact sound.whole
    once := sound.once }

/-- When the end of a write is next, there is no other write. -/
theorem Sound.ended (sound : Sound writer through) {ec : Bool} {rest : List Handler}
    (posted : writer.posted = .written ec :: rest) :
    writer.outstanding = 1 ∧ writer.writes = [] ∧ writer.completions = [ec] ∧
      rest.filterMap completion? = [] := by
  have completed : writer.completions = ec :: rest.filterMap completion? := by
    rw [completions,posted]
    rfl
  have single := sound.single
  rw [outstanding,completed,List.length_cons] at single
  have none_else : rest.filterMap completion? = [] := List.eq_nil_of_length_eq_zero (by omega)
  have none_writing : writer.writes = [] := List.eq_nil_of_length_eq_zero (by omega)
  refine ⟨?_,none_writing,by rw [completed,none_else],none_else⟩
  rw [outstanding,completed,none_else,none_writing]
  rfl

theorem Sound.send (sound : Sound writer through) (data : Bytes) :
    Sound (writer.handle (.send data)) (through ++ [data]) := by
  have order := sound.order.trans (List.prefix_append through [data])
  simp only [handle]
  split
  · next closed =>
    constructor <;> simp_all [sound.single,sound.taken,sound.once]
  · next alive =>
    have opened : writer.closed = false := by simpa using alive
    split
    · next busy =>
      obtain ⟨earlier,current,handed,queued,front⟩ := sound.front opened busy
      exact {
        single := sound.single
        busy := sound.busy
        front := fun _ _ => ⟨earlier,current,handed,by rw [← queued,List.append_assoc],by
          simp only [List.head?_append,front,Option.some_or]⟩
        idle := fun _ waiting => by simp [busy] at waiting
        order := order
        taken := sound.taken
        whole := sound.whole
        once := sound.once }
    · next waiting =>
      have waiting : writer.isWriting = false := by simpa using waiting
      obtain ⟨empty,handed⟩ := sound.idle opened waiting
      have none_left : writer.outstanding = 0 := by
        have single := sound.single
        have busy := (sound.busy opened).not.mpr (by simp [waiting])
        omega
      rw [outstanding] at none_left
      have none_writing : writer.writes = [] := List.eq_nil_of_length_eq_zero (by omega)
      have none_ended : writer.completions = [] := List.eq_nil_of_length_eq_zero (by omega)
      have all_taken : writer.taken = writer.handed.flatten := by
        simpa [none_writing] using sound.whole opened (by simp [none_ended])
      apply doWrite_sound
      case none_writing => exact none_writing
      case none_ended => exact none_ended
      case order => exact order
      case taken => exact all_taken ▸ List.prefix_refl _
      case waiting => exact fun _ => ⟨by rw [empty,handed,List.nil_append],all_taken⟩
      case once => exact sound.once

/-- A write ended well: the front of the queue was sent, and the next write starts. -/
theorem Sound.written (sound : Sound writer through) {rest : List Handler}
    (posted : writer.posted = .written false :: rest) :
    Sound ({ writer with posted := rest }.handle (.written false)) through := by
  obtain ⟨busy,none_writing,succeeded,none_ended⟩ := sound.ended posted
  have taken := sound.taken
  rw [none_writing,List.flatten_nil,List.append_nil] at taken
  simp only [handle,Bool.false_eq_true,if_false]
  refine doWrite_sound none_writing none_ended sound.order taken (fun opened => ?_) sound.once
  obtain ⟨earlier,data,handed,queued,front⟩ := sound.front opened ((sound.busy opened).mp busy)
  constructor
  · match queue : writer.writeQueue with
    | [] => simp [queue] at front
    | first :: later =>
      simp only [queue,List.head?_cons,Option.some.injEq] at front
      rw [← queued,queue,front]
      simp [handed]
  · simpa [none_writing] using sound.whole opened (by simp [succeeded])

theorem Sound.run_next (sound : Sound writer through) {handler : Handler} {rest : List Handler}
    (posted : writer.posted = handler :: rest) :
    Sound ({ writer with posted := rest }.handle handler) (through ++ (data? handler).toList) := by
  have closing : ∀ {writer : Writer}, Sound writer through → Sound writer.disconnect through :=
    fun sound => disconnect_sound sound.single sound.order sound.taken sound.once
  by_cases message : ∃ data, handler = .send data
  · obtain ⟨data,rfl⟩ := message
    exact (sound.popped posted rfl).send data
  · have none_more : data? handler = none := by
      cases handler <;> simp_all [data?]
    rw [none_more,Option.toList_none,List.append_nil]
    cases handler with
    | send data => exact absurd ⟨data,rfl⟩ message
    | close => exact closing (sound.popped posted rfl)
    | headerRead ec bodyLen =>
      have popped := sound.popped posted rfl
      simp only [handle]
      split_ifs
      · exact closing popped
      · exact closing popped
      · exact popped
    | bodyRead ec =>
      have popped := sound.popped posted rfl
      simp only [handle]
      split_ifs
      · exact closing popped
      · exact popped
    | written ec =>
      cases ec with
      | false => exact sound.written posted
      | true =>
        obtain ⟨-,none_writing,-,none_ended⟩ := sound.ended posted
        refine disconnect_sound ?_ sound.order sound.taken sound.once
        simp [outstanding,completions,none_writing,none_ended]

end sound

section runs
variable {ext : Externals} {writer : Writer} {through : List Bytes}

theorem run_append (earlier later : List (Event ext)) :
    run writer (earlier ++ later) = run (run writer earlier) later := List.foldl_append

theorem messages_append (earlier later : List (Event ext)) :
    messages (earlier ++ later) = messages earlier ++ messages later := List.filterMap_append

@[simp] theorem doWrite_posted (writer : Writer) : writer.doWrite.posted = writer.posted := by
  unfold doWrite
  split
  · rfl
  · split <;> rfl

@[simp] theorem disconnect_posted (writer : Writer) : writer.disconnect.posted = writer.posted := by
  unfold disconnect
  split <;> rfl

/-- Handlers post nothing themselves. -/
theorem handle_posted (handler : Handler) (writer : Writer) :
    (writer.handle handler).posted = writer.posted := by
  cases handler with
  | send data =>
    simp only [handle]
    split_ifs <;> simp
  | close => exact disconnect_posted writer
  | headerRead ec bodyLen =>
    simp only [handle]
    split_ifs <;> simp
  | bodyRead ec =>
    simp only [handle]
    split_ifs <;> simp
  | written ec =>
    cases ec
    · exact doWrite_posted _
    · exact disconnect_posted writer

def waiting (writer : Writer) : List Bytes := writer.posted.filterMap data?

/-- One event: either a handler runs, or what is posted grows by what the event posts. -/
theorem Sound.step (sound : Sound writer through) (event : Event ext) :
    ∃ through', Sound (step writer event) through' ∧
      through' ++ (Writer.step writer event).waiting = through ++ writer.waiting ++ messages [event] := by
  have posting : ∀ handler, completion? handler = none → messages [event] = (data? handler).toList →
      ∃ through', Sound (writer.post handler) through' ∧
        through' ++ (writer.post handler).waiting = through ++ writer.waiting ++ messages [event] := by
    intro handler other posted
    refine ⟨through,sound.post other,?_⟩
    rw [posted,waiting,waiting,Writer.post,List.filterMap_append,List.append_assoc]
    cases data : data? handler <;> simp [data]
  have still : ∀ {after : Writer}, messages [event] = [] → Sound after through →
      after.waiting = writer.waiting → ∃ through', Sound after through' ∧
        through' ++ after.waiting = through ++ writer.waiting ++ messages [event] := by
    intro after nothing same waits
    exact ⟨through,same,by rw [nothing,waits,List.append_nil]⟩
  cases event with
  | send msg data framed => exact posting (.send data) rfl rfl
  | close => exact posting .close rfl rfl
  | headerRead ec bodyLen => exact posting (.headerRead ec bodyLen) rfl rfl
  | bodyRead ec => exact posting (.bodyRead ec) rfl rfl
  | transfer i count =>
    simp only [Writer.step]
    split
    · exact still rfl sound rfl
    · next left held => exact still rfl (sound.transfer held count) rfl
  | complete i ec =>
    simp only [Writer.step]
    split
    · exact still rfl sound rfl
    · next left held =>
      split_ifs with ended
      · refine still rfl (sound.complete held ended) ?_
        simp [waiting,Writer.post,data?]
      · exact still rfl sound rfl
  | runNext =>
    simp only [Writer.step]
    split
    · exact still rfl sound rfl
    · next handler rest posted =>
      refine ⟨_,sound.run_next posted,?_⟩
      rw [waiting,handle_posted,waiting,posted]
      cases data : data? handler <;> simp [data,messages,Event.message?]

theorem run_sound (events : List (Event ext)) :
    ∃ through, Sound (run start events) through ∧ through ++ (run start events).waiting = messages events := by
  induction events using List.reverseRecOn with
  | nil => exact ⟨[],start_sound,rfl⟩
  | append_singleton events event ih =>
    obtain ⟨through,sound,posted⟩ := ih
    obtain ⟨through',sound',posted'⟩ := sound.step event
    rw [run_append,messages_append,← posted]
    exact ⟨through',sound',posted'⟩

theorem doWrite_closed (closed : writer.closed = true) :
    writer.doWrite = { writer with isWriting := false } :=
  doWrite_idle fun opened => by simp [opened] at closed

/-- A closed session hands nothing to the socket. -/
theorem handle_closed (closed : writer.closed = true) (handler : Handler) :
    (writer.handle handler).closed = true ∧ (writer.handle handler).handed = writer.handed := by
  have stays : writer.disconnect = writer := if_pos closed
  cases handler with
  | send data => simp [handle,closed]
  | close => simp [handle,stays,closed]
  | headerRead ec bodyLen => simp [handle,stays,closed]
  | bodyRead ec => simp [handle,stays,closed]
  | written ec =>
    cases ec with
    | true => simp [handle,stays,closed]
    | false =>
      have nothing : ({ writer with writeQueue := writer.writeQueue.tail } : Writer).doWrite =
          { writer with writeQueue := writer.writeQueue.tail,isWriting := false } :=
        doWrite_closed closed
      simp only [handle,nothing]
      exact ⟨closed,rfl⟩

theorem step_closed (closed : writer.closed = true) (event : Event ext) :
    (step writer event).closed = true ∧ (step writer event).handed = writer.handed := by
  cases event <;> simp only [step]
  case runNext =>
    split
    · exact ⟨closed,rfl⟩
    · next handler rest posted =>
      have popped : ({ writer with posted := rest } : Writer).closed = true := closed
      exact handle_closed popped handler
  all_goals repeat' split
  all_goals exact ⟨closed,rfl⟩

theorem run_closed (closed : writer.closed = true) (events : List (Event ext)) :
    (run writer events).closed = true ∧ (run writer events).handed = writer.handed := by
  induction events using List.reverseRecOn with
  | nil => exact ⟨closed,rfl⟩
  | append_singleton events event ih =>
    obtain ⟨still,same⟩ := ih
    obtain ⟨still',same'⟩ := step_closed still event
    rw [run_append]
    exact ⟨still',same'.trans same⟩

theorem doWrite_remains (writer : Writer) : writer.doWrite.closed = writer.closed := by
  unfold doWrite
  split
  · rfl
  · split_ifs <;> rfl

theorem disconnect_closes (writer : Writer) : writer.disconnect.closed = true := by
  unfold disconnect
  split_ifs with closed
  · exact closed
  · rfl

theorem handle_closes (writer : Writer) (handler : Handler) :
    (writer.handle handler).closed = (writer.closed || handler.closes) := by
  cases handler with
  | send data =>
    unfold handle
    dsimp only
    split_ifs
    · rw [Handler.closes,Bool.or_false]
    · rw [Handler.closes,Bool.or_false]
    · rw [doWrite_remains,Handler.closes,Bool.or_false]
  | close => rw [handle,disconnect_closes,Handler.closes,Bool.or_true]
  | headerRead ec bodyLen =>
    cases ec with
    | true => simp [handle,Handler.closes,disconnect_closes]
    | false => by_cases long : maxBodyLen < bodyLen.toNat <;> simp [handle,Handler.closes,disconnect_closes,long]
  | bodyRead ec => cases ec <;> simp [handle,Handler.closes,disconnect_closes]
  | written ec => cases ec <;> simp [handle,Handler.closes,disconnect_closes,doWrite_remains]

theorem step_closes (writer : Writer) (event : Event ext) :
    (step writer event).closed = (writer.closed || (writer.next? event).any Handler.closes) := by
  cases event <;> simp only [step,next?,Option.any_none,Bool.or_false]
  case runNext =>
    cases posted : writer.posted with
    | nil => simp
    | cons handler rest => exact handle_closes { writer with posted := rest } handler
  all_goals repeat' split
  all_goals rfl

/-- A session stays open until a handler that closes it has run. -/
theorem run_closes (writer : Writer) (events : List (Event ext)) :
    (run writer events).closed = (writer.closed || (writer.handled events).any Handler.closes) := by
  induction events generalizing writer with
  | nil => exact (Bool.or_false _).symm
  | cons event events ih =>
    change (run (writer.step event) events).closed = _
    rw [ih,step_closes,handled,List.any_append,Bool.or_assoc]
    cases writer.next? event <;> simp

/-- Before a session is closed every message is handed over or waits for its turn. -/
theorem Sound.nothing_lost (sound : Sound writer through) (opened : writer.closed = false) :
    writer.handed ++ writer.writeQueue.drop writer.outstanding = through := by
  by_cases busy : writer.isWriting = true
  · obtain ⟨earlier,data,handed,queued,front⟩ := sound.front opened busy
    rw [(sound.busy opened).mpr busy,handed,← queued]
    match queue : writer.writeQueue with
    | [] => simp [queue] at front
    | first :: rest =>
      simp only [queue,List.head?_cons,Option.some.injEq] at front
      simp [front]
  · obtain ⟨empty,handed⟩ := sound.idle opened (by simpa using busy)
    rw [empty,handed,List.drop_nil,List.append_nil]

end runs

/-- At every time at most one write is outstanding, and one is as long as the session is open and
its queue holds something. What the socket is handed, and what it took, begins what was posted; as
long as the session is open the rest waits. Nothing is handed over after the disconnect, which is
reported once, and comes only from a call of `close`, a read error, a header above the limit or a
failed write. -/
theorem write_queue {ext : Externals} (events : List (Event ext)) :
    let writer := run start events
    writer.outstanding ≤ 1 ∧
    (writer.closed = false → writer.writeQueue ≠ [] → writer.outstanding = 1) ∧
    (writer.handed.flatten <+: (messages events).flatten ∧ writer.taken <+: (messages events).flatten) ∧
    (writer.closed = false →
      writer.handed ++ (writer.writeQueue.drop writer.outstanding ++ writer.waiting) = messages events) ∧
    (writer.closed = true → ∀ later : List (Event ext), (run writer later).handed = writer.handed) ∧
    writer.disconnects ≤ 1 ∧
    (writer.closed = true ↔ ∃ handler ∈ start.handled events, handler.closes = true) := by
  intro writer
  obtain ⟨through,sound,posted⟩ := run_sound events
  have order : writer.handed.flatten <+: (messages events).flatten := by
    obtain ⟨rest,through_eq⟩ := sound.order
    rw [← posted,← through_eq,List.append_assoc,List.flatten_append]
    exact List.prefix_append _ _
  refine ⟨sound.single,fun opened some_queued => ?_,⟨order,?_⟩,fun opened => ?_,?_,?_,?_⟩
  · refine (sound.busy opened).mpr ?_
    by_contra waiting
    exact some_queued (sound.idle opened (by simpa using waiting)).1
  · exact ((List.prefix_append _ _).trans sound.taken).trans order
  · rw [← List.append_assoc,sound.nothing_lost opened,posted]
  · exact fun closed later => (run_closed closed later).2
  · rw [sound.once]
    split_ifs
    · exact Nat.le_refl 1
    · exact Nat.zero_le 1
  · rw [show writer = run start events from rfl,run_closes,← List.any_eq_true]
    exact Iff.rfl

/-- Two messages are posted at once; the second write begins when the first one has ended. -/
example (ext : Externals) (a b : Message) (first second : Bytes) (framedA : serializeMessage ext a = some first)
    (framedB : serializeMessage ext b = some second) :
    let writer := run start [Event.send a first framedA,.send b second framedB,.runNext,.runNext,
      .transfer 0 first.length,.complete 0 false,.runNext]
    writer.handed = [first,second] ∧ writer.taken = first ∧ writer.closed = false := by
  simp [run,step,post,start,handle,doWrite]

end Writer
end TitanCore
