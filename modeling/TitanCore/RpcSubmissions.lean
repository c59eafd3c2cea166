import TitanCore.RpcErrors

/-! Several `submitTransaction` requests at once. Each asks the node twice, for the verdict and,
after a rejection, for the reason; in between the other worker threads ask it too. -/
namespace TitanCore.Rpc

/-- Where a request stands. Its own reason is what the mempool said of its transaction, which no
code keeps. -/
inductive Phase where
  | waiting
  | accepted
  | rejected (own : Bytes)
  | answered (own told : Bytes)
  deriving DecidableEq

structure Serving where
  exec : Exec
  phase : Nat → Phase

inductive Turn where
  | submit (request : Nat) (tx : Transaction)
  | getLastError (request : Nat)

namespace Serving

def start (node : Node) : Serving := ⟨⟨⟨node,[],[],[]⟩,[]⟩,fun _ => .waiting⟩

def lastError (serving : Serving) : Bytes := serving.exec.now.node.lastError

def enter (serving : Serving) (request : Nat) (phase : Phase) (exec : Exec) : Serving :=
  ⟨exec,fun other => if other = request then phase else serving.phase other⟩

section
variable (ext : Externals)

/-- A section whose request is not at that point does nothing. -/
def turn (serving : Serving) : Turn → Serving
  | .submit request tx =>
    match serving.phase request with
    | .waiting =>
      match submitTransaction ext tx serving.exec with
      | (.ok (some _),exec) => serving.enter request .accepted exec
      | (.ok none,exec) => serving.enter request (.rejected exec.now.node.mempool.lastError) exec
      | (.error _,exec) => serving.enter request .waiting exec
    | _ => serving
  | .getLastError request =>
    match serving.phase request with
    | .rejected own =>
      match getLastError serving.exec with
      | (.ok told,exec) => serving.enter request (.answered own told) exec
      | (.error _,exec) => serving.enter request (.rejected own) exec
    | _ => serving

def run (serving : Serving) (turns : List Turn) : Serving := turns.foldl (turn ext) serving

def rejection (serving : Serving) : Turn → Option Bytes
  | .submit request tx =>
    if serving.phase request = .waiting then
      match serving.exec.now.node.mempool.checkTransaction ext serving.exec.now.node.state tx with
      | .error reason => some reason
      | .ok () => none
    else none
  | .getLastError _ => none

def rejections (serving : Serving) : List Turn → List Bytes
  | [] => []
  | next :: turns => (rejection ext serving next).toList ++ rejections (turn ext serving next) turns

end

/-- Every rejected transaction is reported with its own reason. -/
def OwnReasons (serving : Serving) : Prop :=
  ∀ request own told, serving.phase request = .answered own told → told = own

/-- Whenever a request fetches the reason, the last rejection was for the reason it was itself
rejected for. -/
def Undisturbed (ext : Externals) (node : Node) (turns : List Turn) : Prop :=
  ∀ before request after own, turns = before ++ .getLastError request :: after →
    ((start node).run ext before).phase request = .rejected own →
    (rejections ext (start node) before).getLast? = some own

/-- A rejected request fetches its reason before another one is rejected. -/
def Uninterrupted (ext : Externals) (node : Node) (turns : List Turn) : Prop :=
  ∀ before request tx own between after,
    turns = before ++ .submit request tx :: between ++ .getLastError request :: after →
    rejection ext ((start node).run ext before) (.submit request tx) = some own →
    rejections ext ((start node).run ext (before ++ [.submit request tx])) between = []

/-- What a turn can do: nothing, or move one request on. -/
inductive Effect (ext : Externals) (serving : Serving) : Turn → Serving → Prop where
  | nothing (next : Turn) (quiet : rejection ext serving next = none) : Effect ext serving next serving
  | accepted (request : Nat) (tx : Transaction) (exec : Exec) (waiting : serving.phase request = .waiting)
    (quiet : rejection ext serving (.submit request tx) = none)
    (kept : exec.now.node.lastError = serving.lastError) :
    Effect ext serving (.submit request tx) (serving.enter request .accepted exec)
  | rejected (request : Nat) (tx : Transaction) (reason : Bytes) (exec : Exec)
    (waiting : serving.phase request = .waiting)
    (recorded : rejection ext serving (.submit request tx) = some reason)
    (kept : exec.now.node.lastError = reason) :
    Effect ext serving (.submit request tx) (serving.enter request (.rejected reason) exec)
  | answered (request : Nat) (own : Bytes) (rejected : serving.phase request = .rejected own) :
    Effect ext serving (.getLastError request)
      (serving.enter request (.answered own serving.lastError) serving.exec)

section
variable {ext : Externals} {serving after : Serving} {next : Turn}

theorem run_concat (serving : Serving) (turns : List Turn) (next : Turn) :
    serving.run ext (turns ++ [next]) = (serving.run ext turns).turn ext next := by
  rw [run,run,List.foldl_append,List.foldl_cons,List.foldl_nil]

theorem rejections_concat (turns : List Turn) (next : Turn) : ∀ serving : Serving,
    rejections ext serving (turns ++ [next]) =
      rejections ext serving turns ++ (rejection ext (serving.run ext turns) next).toList := by
  induction turns with
  | nil => intro serving; simp [rejections,run]
  | cons first turns ih =>
    intro serving
    rw [List.cons_append,rejections,ih,rejections,List.append_assoc]
    rfl

theorem submit_effect (request : Nat) (tx : Transaction) (waiting : serving.phase request = .waiting) :
    Effect ext serving (.submit request tx) (serving.turn ext (.submit request tx)) := by
  obtain ⟨⟨now,fates⟩,phase⟩ := serving
  dsimp only at waiting
  have ran : submitTransaction ext tx ⟨now,fates⟩ = _ := submitTransaction_run fates
  cases check : now.node.mempool.checkTransaction ext now.node.state tx with
  | ok _ =>
    have accepted : (now.node.mempool.addTransaction ext now.node.state tx).1 = true := by
      rw [Mempool.addTransaction,check]
    rw [if_pos accepted] at ran
    simp only [turn,waiting,ran]
    exact .accepted request tx _ waiting (by simp only [rejection,waiting,if_true,check]) rfl
  | error reason =>
    have refused : (now.node.mempool.addTransaction ext now.node.state tx).1 = false ∧
        (now.node.mempool.addTransaction ext now.node.state tx).2.lastError = reason := by
      rw [Mempool.addTransaction,check]
      exact ⟨rfl,rfl⟩
    have own : (Node.addTransaction ext tx now.node).mempool.lastError = reason := refused.2
    rw [if_neg (by simp [refused.1])] at ran
    simp only [turn,waiting,ran,Snapshot.onNode,own]
    exact .rejected request tx reason _ waiting (by simp only [rejection,waiting,if_true,check]) rfl

/-- A turn has one of these effects; which one depends on where its request stands. -/
theorem turn_effect (next : Turn) : Effect ext serving next (serving.turn ext next) := by
  cases next with
  | submit request tx =>
    cases at_request : serving.phase request with
    | waiting => exact submit_effect request tx at_request
    | _ =>
      simp only [turn,at_request]
      exact .nothing _ (by simp [rejection,at_request])
  | getLastError request =>
    cases at_request : serving.phase request with
    | rejected own =>
      simp only [turn,at_request]
      exact .answered request own at_request
    | _ =>
      simp only [turn,at_request]
      exact .nothing _ rfl

theorem enter_phase {request other : Nat} {phase found : Phase} {exec : Exec}
    (held : (serving.enter request phase exec).phase other = found) :
    other = request ∧ phase = found ∨ serving.phase other = found := by
  unfold enter at held
  dsimp only at held
  split_ifs at held with same
  · exact .inl ⟨same,held⟩
  · exact .inr held

theorem enter_other {request other : Nat} (apart : other ≠ request) (phase : Phase) (exec : Exec) :
    (serving.enter request phase exec).phase other = serving.phase other := if_neg apart

/-- A turn either rejects a transaction, and the node keeps the reason, or leaves it as it was. -/
theorem Effect.lastError (effect : Effect ext serving next after) :
    after.lastError = (rejection ext serving next).getD serving.lastError := by
  cases effect with
  | nothing _ quiet =>
    rw [quiet]
    rfl
  | accepted request tx exec waiting quiet kept =>
    rw [quiet]
    exact kept
  | rejected request tx reason exec waiting recorded kept =>
    rw [recorded]
    exact kept
  | answered request own rejected => rfl

theorem Effect.answered_remains (effect : Effect ext serving next after) {request : Nat} {own told : Bytes}
    (answered : serving.phase request = .answered own told) : after.phase request = .answered own told := by
  -- the request that moves stood elsewhere
  have apart : ∀ {other phase}, serving.phase other = phase → phase ≠ .answered own told →
      request ≠ other := by
    rintro _ _ rfl different rfl
    exact different answered
  cases effect with
  | nothing => exact answered
  | accepted other tx exec waiting => rwa [enter_other (apart waiting nofun)]
  | rejected other tx reason exec waiting => rwa [enter_other (apart waiting nofun)]
  | answered other reason rejected => rwa [enter_other (apart rejected nofun)]

/-- A request that stands rejected was rejected in this turn, which is its own, or before it. -/
theorem Effect.of_rejected (effect : Effect ext serving next after) {request : Nat} {own : Bytes}
    (rejected : after.phase request = .rejected own) :
    serving.phase request = .rejected own ∨
      ∃ tx, next = .submit request tx ∧ rejection ext serving next = some own := by
  cases effect with
  | nothing => exact .inl rejected
  | accepted other tx exec waiting quiet =>
    rcases enter_phase rejected with ⟨-,⟨⟩⟩ | before
    exact .inl before
  | rejected other tx reason exec waiting recorded =>
    rcases enter_phase rejected with ⟨rfl,⟨⟩⟩ | before
    · exact .inr ⟨tx,rfl,recorded⟩
    · exact .inl before
  | answered other reason =>
    rcases enter_phase rejected with ⟨-,⟨⟩⟩ | before
    exact .inl before

/-- A request that stands answered was answered before this turn, or in it with the text the node
had kept. -/
theorem Effect.of_answered (effect : Effect ext serving next after) {request : Nat} {own told : Bytes}
    (answered : after.phase request = .answered own told) :
    serving.phase request = .answered own told ∨
      next = .getLastError request ∧ serving.phase request = .rejected own ∧ told = serving.lastError := by
  cases effect with
  | nothing => exact .inl answered
  | accepted other tx exec =>
    rcases enter_phase answered with ⟨-,⟨⟩⟩ | before
    exact .inl before
  | rejected other tx reason exec =>
    rcases enter_phase answered with ⟨-,⟨⟩⟩ | before
    exact .inl before
  | answered other reason rejected =>
    rcases enter_phase answered with ⟨rfl,⟨⟩⟩ | before
    · exact .inr ⟨rfl,rejected,rfl⟩
    · exact .inl before

theorem run_answered {request : Nat} {own told : Bytes} (turns : List Turn)
    (answered : serving.phase request = .answered own told) :
    (serving.run ext turns).phase request = .answered own told := by
  induction turns generalizing serving with
  | nil => exact answered
  | cons next turns ih => exact ih ((turn_effect next).answered_remains answered)

theorem run_lastError (node : Node) (turns : List Turn) : ((start node).run ext turns).lastError =
    ((rejections ext (start node) turns).getLast?).getD node.lastError := by
  induction turns using List.reverseRecOn with
  | nil => rfl
  | append_singleton turns next ih =>
    rw [run_concat,(turn_effect next).lastError,ih,rejections_concat]
    cases rejection ext ((start node).run ext turns) next with
    | none => simp
    | some reason => simp

theorem run_rejected (node : Node) (turns : List Turn) {request : Nat} {own : Bytes}
    (rejected : ((start node).run ext turns).phase request = .rejected own) :
    rejections ext (start node) turns ≠ [] := by
  induction turns using List.reverseRecOn with
  | nil => cases rejected
  | append_singleton turns next ih =>
    rw [run_concat] at rejected
    rw [rejections_concat]
    rcases (turn_effect next).of_rejected rejected with before | ⟨tx,-,now⟩
    · exact List.append_ne_nil_of_left_ne_nil (ih before) _
    · rw [now]
      exact List.append_ne_nil_of_right_ne_nil _ (List.cons_ne_nil _ _)

/-- While a request waits for its reason, the node's text is the last reason of the run. -/
theorem run_kept (node : Node) (turns : List Turn) {request : Nat} {own : Bytes}
    (rejected : ((start node).run ext turns).phase request = .rejected own) :
    (rejections ext (start node) turns).getLast? = some ((start node).run ext turns).lastError := by
  have some_reason := List.getLast?_eq_some_getLast (run_rejected node turns rejected)
  rw [run_lastError,some_reason]
  rfl

theorem own_reasons_of_undisturbed (node : Node) (turns : List Turn) (undisturbed : Undisturbed ext node turns) :
    OwnReasons ((start node).run ext turns) := by
  induction turns using List.reverseRecOn with
  | nil =>
    intro request own told answered
    cases answered
  | append_singleton turns next ih =>
    intro request own told answered
    rw [run_concat] at answered
    have earlier : OwnReasons ((start node).run ext turns) :=
      ih fun before request after own split => undisturbed before request (after ++ [next]) own
        (by rw [split,List.append_assoc,List.cons_append])
    rcases (turn_effect next).of_answered answered with before | ⟨rfl,rejected,rfl⟩
    · exact earlier request own told before
    · have last := undisturbed turns request [] own rfl rejected
      rw [run_kept node turns rejected] at last
      exact Option.some.inj last

theorem rejections_append (before after : List Turn) (serving : Serving) :
    rejections ext serving (before ++ after) = rejections ext serving before ++
      rejections ext (serving.run ext before) after := by
  induction before generalizing serving with
  | nil => rfl
  | cons next rest ih => rw [List.cons_append,rejections,ih,rejections,List.append_assoc]; rfl

theorem run_rejected_at (node : Node) (turns : List Turn) {request : Nat} {own : Bytes}
    (rejected : ((start node).run ext turns).phase request = .rejected own) :
    ∃ before tx between, turns = before ++ .submit request tx :: between ∧
      rejection ext ((start node).run ext before) (.submit request tx) = some own := by
  induction turns using List.reverseRecOn with
  | nil => cases rejected
  | append_singleton turns next ih =>
    rw [run_concat] at rejected
    rcases (turn_effect next).of_rejected rejected with before | ⟨tx,rfl,now⟩
    · obtain ⟨earlier,tx,between,rfl,recorded⟩ := ih before
      exact ⟨earlier,tx,between ++ [next],by rw [List.append_assoc,List.cons_append],recorded⟩
    · exact ⟨turns,tx,[],rfl,now⟩

/-- In particular the reasons are the right ones when no transaction is rejected between the two
sections of a rejected request. -/
theorem own_reasons_of_uninterrupted (node : Node) (turns : List Turn) (alone : Uninterrupted ext node turns) :
    OwnReasons ((start node).run ext turns) := by
  refine own_reasons_of_undisturbed node turns fun before request after own parts rejected => ?_
  obtain ⟨earlier,tx,between,rfl,recorded⟩ := run_rejected_at node before rejected
  have quiet := alone earlier request tx own between after parts recorded
  have joined : earlier ++ .submit request tx :: between = (earlier ++ [.submit request tx]) ++ between := by
    rw [List.append_assoc,List.singleton_append]
  rw [joined,rejections_append,quiet,List.append_nil,rejections_concat,recorded]
  exact List.getLast?_concat

end

/-- In every run of requests, in any order of their sections, the reasons told are the right ones
exactly when no reason is fetched after a rejection for another one. -/
theorem own_reasons_iff (ext : Externals) (node : Node) (turns : List Turn) :
    OwnReasons ((start node).run ext turns) ↔ Undisturbed ext node turns := by
  constructor
  · rintro owns before request after own rfl rejected
    rw [run_kept node before rejected]
    have answered : (((start node).run ext before).turn ext (.getLastError request)).phase request =
        .answered own ((start node).run ext before).lastError := by
      simp only [turn,rejected]
      exact if_pos rfl
    have whole : (start node).run ext (before ++ .getLastError request :: after) =
        (((start node).run ext before).turn ext (.getLastError request)).run ext after := by
      rw [run,List.foldl_append,List.foldl_cons]
      rfl
    have told := owns request own _ (by rw [whole]; exact run_answered after answered)
    rw [told]
  · exact own_reasons_of_undisturbed node turns

open Reference in
/-- The first request's transaction has no signature, the second one's comes too early; the first
is told the reason of the second. -/
theorem own_reasons_swapped :
    let turns := [Turn.submit 0 { payment with signature := [] },.submit 1 secondPayment,
      .getLastError 0,.getLastError 1]
    ((start rpcNode).run strictLibraries turns).phase 0 =
      .answered (str "Invalid transaction signature") (str "Wrong nonce: expected 0, got 1") ∧
    ¬ OwnReasons ((start rpcNode).run strictLibraries turns) := by
  intro turns
  have told : ((start rpcNode).run strictLibraries turns).phase 0 =
      .answered (str "Invalid transaction signature") (str "Wrong nonce: expected 0, got 1") := by
    decide +kernel
  refine ⟨told,fun owns => ?_⟩
  exact absurd (owns 0 _ _ told) (by decide)

end Serving
end TitanCore.Rpc
