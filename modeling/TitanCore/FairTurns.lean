import TitanCore.TwoNodes

/-! There are fair runs: two nodes connect, then each in turn produces and announces, and the other
takes what it is told of. Nothing is spoiled on the way if digests tell heights apart. -/
namespace TitanCore

section pair
variable {ext : Externals} {config : Bool → Config} {base : List Transaction} {now : Bool → Snapshot}
  {mover : Bool} {block : Block} {orders : Nat → IterationOrder}

def moverAt (t : Nat) : Bool := t / 4 % 2 = 0

/-- Who acts and how. The two connect and answer each other's requests; then each in turn produces and
announces, the other takes what is announced and passes it on. -/
def duoTurn (ext : Externals) (orders : Nat → IterationOrder) (t : Nat) (now : Bool → Snapshot) : Bool × Action :=
  match t with
  | 0 => (true,.peerConnected 0)
  | 1 => (false,.peerConnected 0)
  | 2 => (false,hear ext orders ⟨.getBlocks,fromPayload (now true).node.blockchain.getHeight⟩)
  | 3 => (true,hear ext orders ⟨.getBlocks,fromPayload (now false).node.blockchain.getHeight⟩)
  | 4 => (true,hear ext orders ⟨.blocks,blocksPayload []⟩)
  | 5 => (false,hear ext orders ⟨.blocks,blocksPayload []⟩)
  | t + 6 =>
    let mover := moverAt t
    match t % 4 with
    | 0 => (mover,.produceBlock 1 orders [])
    | 1 => (mover,.broadcast 0)
    | 2 =>
      let latest := (now mover).node.blockchain.getLatestBlock
      (!mover,if (now mover).node.blockchain.chain.length = (now !mover).node.blockchain.chain.length then .broadcast 0
        else hear ext orders ⟨.newBlock,latest.toJson⟩)
    | _ => (!mover,.broadcast 0)

/-- How far the mover's block has got. -/
def DuoPhase (config : Bool → Config) (mover : Bool) (now : Bool → Snapshot) : Nat → Prop
  | 1 => Level now ∨ ∃ block, Leads config mover block now ∧ (now mover).outbox = [blockAnnouncement block]
  | 2 => Level now ∨ ∃ block, Leads config mover block now ∧ (now mover).outbox = [] ∧
    blockAnnouncement block ∈ (now mover).sent
  | 3 => Passed mover now
  | _ => Level now

theorem Level.unmoved (level : Level now) (i : Bool) : Function.update now i ((now i).broadcast 0) = now := by
  have same : (now i).broadcast 0 = now i := by
    rw [Snapshot.broadcast_first,level.silent i,List.take_nil,List.append_nil,List.tail_nil,← level.silent i]
  rw [same,Function.update_eq_self]

section rounds
variable (kept : Paired ext config base now) (parses : ext.ParseUndoesDump) (federation : Federation ext config)
  (distinct : Function.Injective (signer ext config)) (keys : ∀ i, (config i).nodeKeys.WellFormed ext)
include kept

theorem DuoPhase.announces (phase : DuoPhase config mover now 1) : ∃ sends later,
    Stepped ext config base now mover (.broadcast 0) sends later ∧ DuoPhase config mover (Function.update now mover later) 2 ∧
    (sends = [] ∨ ∃ block, sends = [blockAnnouncement block] ∧
      Leads config mover block (Function.update now mover later)) := by
  refine ⟨_,_,kept.step_broadcast mover,?_⟩
  rcases phase with level | ⟨block,leads,waits⟩
  · rw [level.unmoved,level.silent]
    exact ⟨.inl level,.inl rfl⟩
  · rw [waits,Snapshot.broadcast_first,waits]
    have told : Leads config mover block (Function.update now mover
        { now mover with outbox := [blockAnnouncement block].tail, sent := (now mover).sent ++ [blockAnnouncement block].take 1 }) := by
      refine ⟨?_,leads.key,?_⟩
      · rw [Function.update_self,update_other]
        exact leads.chain
      · rw [update_other]
        exact leads.silent
    refine ⟨.inr ⟨block,told,?_,?_⟩,.inr ⟨block,rfl,told⟩⟩
    · rw [Function.update_self]
      rfl
    · rw [Function.update_self]
      exact List.mem_append_right _ (List.mem_singleton_self _)

theorem DuoPhase.passes (phase : DuoPhase config mover now 3) : ∃ sends later,
    Stepped ext config base now (!mover) (.broadcast 0) sends later ∧ Level (Function.update now (!mover) later) ∧
    ∀ send ∈ sends, send.recipient = .others (some 0) := by
  refine ⟨_,_,kept.step_broadcast !mover,.of_mover mover ?_ ?_ ?_,?_⟩
  · rw [update_mover,Function.update_self,Snapshot.broadcast_first]
    exact phase.chain
  · rw [update_mover]
    exact phase.silent
  · rw [Function.update_self,Snapshot.broadcast_first]
    rcases phase.relay with silent | ⟨message,waits⟩
    · rw [silent]
      rfl
    · rw [waits]
      rfl
  · rcases phase.relay with silent | ⟨message,waits⟩
    · rw [silent]
      exact List.forall_mem_nil _
    · rw [waits]
      exact List.forall_mem_singleton.mpr rfl

include parses federation distinct in
theorem DuoPhase.hears (phase : DuoPhase config mover now 2) (orders : Nat → IterationOrder) : ∃ later,
    Stepped ext config base now (!mover) (if (now mover).node.blockchain.chain.length =
        (now !mover).node.blockchain.chain.length then .broadcast 0
      else hear ext orders ⟨.newBlock,(now mover).node.blockchain.getLatestBlock.toJson⟩) [] later ∧
    DuoPhase config mover (Function.update now (!mover) later) 3 := by
  rcases phase with level | ⟨block,leads,silent,said⟩
  · refine ⟨(now !mover).broadcast 0,?_,?_⟩
    · rw [if_pos (congrArg List.length (level.chain mover))]
      have stepped := kept.step_broadcast !mover
      rwa [level.silent] at stepped
    · rw [level.unmoved]
      exact ⟨level.chain mover,level.silent _,.inl (level.silent _)⟩
  · rw [if_neg leads.longer,leads.latest]
    exact leads.takes kept parses federation distinct silent said orders

end rounds

def DuoStage (config : Bool → Config) (now : Bool → Snapshot) : Nat → Prop
  | t + 6 => DuoPhase config (moverAt t) now (t % 4)
  | _ => Level now

theorem DuoStage.comparable {t : Nat} (stage : DuoStage config now t) :
    ∃ longest, ∀ i, (now i).node.blockchain.chain <+: (now longest).node.blockchain.chain := by
  have leveled (mover : Bool) (same : (now mover).node.blockchain.chain = (now !mover).node.blockchain.chain) :
      ∃ longest, ∀ i, (now i).node.blockchain.chain <+: (now longest).node.blockchain.chain := by
    refine ⟨mover,fun i => ?_⟩
    rcases Bool.eq_or_eq_not i mover with rfl | rfl
    · exact List.prefix_rfl
    · exact same ▸ List.prefix_rfl
  have led {mover : Bool} {block : Block} (leads : Leads config mover block now) :
      ∃ longest, ∀ i, (now i).node.blockchain.chain <+: (now longest).node.blockchain.chain := by
    refine ⟨mover,fun i => ?_⟩
    rcases Bool.eq_or_eq_not i mover with rfl | rfl
    · exact List.prefix_rfl
    · exact leads.chain ▸ List.prefix_append _ _
  unfold DuoStage at stage
  split at stage
  · unfold DuoPhase at stage
    split at stage
    · rcases stage with level | ⟨block,leads,-⟩
      · exact leveled true level.chains
      · exact led leads
    · rcases stage with level | ⟨block,leads,-⟩
      · exact leveled true level.chains
      · exact led leads
    · exact leveled _ stage.chain
    · exact leveled true stage.chains
  · exact leveled true stage.chains

/-- What is handed out in the step at a time, which leads to `next`. -/
def DuoHanded (config : Bool → Config) (now next : Bool → Snapshot) (sends : List Send) : Nat → Prop
  | 0 => sends = [⟨.peer 0,.getBlocks,fromPayload (now true).node.blockchain.getHeight⟩] ∧ ∀ i, (next i).node = (now i).node
  | 1 => sends = [⟨.peer 0,.getBlocks,fromPayload (now false).node.blockchain.getHeight⟩] ∧ ∀ i, (next i).node = (now i).node
  | 2 => sends = [⟨.peer 0,.blocks,blocksPayload []⟩] ∧ ∀ i, (next i).node = (now i).node
  | 3 => sends = [⟨.peer 0,.blocks,blocksPayload []⟩]
  | 4 => sends = []
  | 5 => sends = []
  | t + 6 => if t % 4 = 1 then sends = [] ∨ ∃ block, sends = [blockAnnouncement block] ∧ Leads config (moverAt t) block next
    else ∀ send ∈ sends, send.recipient = .others (some 0)

theorem duo_step (parses : ext.ParseUndoesDump) (federation : Federation ext config)
    (distinct : Function.Injective (signer ext config)) (keys : ∀ i, (config i).nodeKeys.WellFormed ext)
    (orders : Nat → IterationOrder) (t : Nat) (kept : Paired ext config base now) (stage : DuoStage config now t) :
    ∃ sends later, Stepped ext config base now (duoTurn ext orders t now).1 (duoTurn ext orders t now).2 sends later ∧
      DuoStage config (Function.update now (duoTurn ext orders t now).1 later) (t + 1) ∧
      DuoHanded config now (Function.update now (duoTurn ext orders t now).1 later) sends t := by
  match t, stage with
  | 0, level => exact ⟨_,_,kept.greets true,level.tells _ _ _,rfl,tells_node _ _ _⟩
  | 1, level => exact ⟨_,_,kept.greets false,level.tells _ _ _,rfl,tells_node _ _ _⟩
  | 2, level => exact ⟨_,_,level.answers kept parses orders false,level.tells _ _ _,rfl,tells_node _ _ _⟩
  | 3, level => exact ⟨_,_,level.answers kept parses orders true,level.tells _ _ _,rfl⟩
  | 4, level =>
    refine ⟨_,_,kept.ignores parses orders true,?_,rfl⟩
    rw [duoTurn,Function.update_eq_self]
    exact level
  | 5, level =>
    refine ⟨_,_,kept.ignores parses orders false,?_,rfl⟩
    rw [duoTurn,Function.update_eq_self]
    exact level
  | t + 6, phase =>
    change ∃ sends later, _ ∧ DuoPhase config (moverAt (t + 1)) _ ((t + 1) % 4) ∧ _
    change DuoPhase config (moverAt t) now (t % 4) at phase
    have inside : t % 4 < 4 := Nat.mod_lt _ (by decide)
    have same (before : t % 4 ≠ 3) : moverAt (t + 1) = moverAt t ∧ (t + 1) % 4 = t % 4 + 1 := by
      have quotient : (t + 1) / 4 = t / 4 := by omega
      exact ⟨by rw [moverAt,moverAt,quotient],by omega⟩
    have wraps (last : t % 4 = 3) : (t + 1) % 4 = 0 := by omega
    simp only [duoTurn,DuoHanded]
    generalize t % 4 = phase_at at *
    match phase_at, inside with
    | 0, _ =>
      obtain ⟨later,stepped,next⟩ := Level.produces phase kept keys orders (moverAt t)
      refine ⟨[],later,stepped,?_,List.forall_mem_nil _⟩
      rw [(same (by decide)).1,(same (by decide)).2]
      rcases next with level | ⟨block,leads,waits⟩
      · exact .inl level
      · refine .inr ⟨block,leads,?_⟩
        rw [← waits]
        exact congrArg Snapshot.outbox (Function.update_self _ _ _)
    | 1, _ =>
      obtain ⟨sends,later,stepped,next,handed⟩ := phase.announces kept
      refine ⟨sends,later,stepped,?_,handed⟩
      rw [(same (by decide)).1,(same (by decide)).2]
      exact next
    | 2, _ =>
      obtain ⟨later,stepped,next⟩ := phase.hears kept parses federation distinct orders
      refine ⟨[],later,stepped,?_,List.forall_mem_nil _⟩
      rw [(same (by decide)).1,(same (by decide)).2]
      exact next
    | 3, _ =>
      obtain ⟨sends,later,stepped,next,handed⟩ := phase.passes kept
      refine ⟨sends,later,stepped,?_,handed⟩
      rw [wraps rfl]
      exact next

def advance (ext : Externals) (config : Config) (now : Snapshot) (action : Action) : Snapshot :=
  match (Process.up now).step ext config action with
  | .up later => later
  | .down _ _ _ _ => now

def duoNow (ext : Externals) (config : Bool → Config) (orders : Nat → IterationOrder) (first : Bool → Snapshot) :
    Nat → Bool → Snapshot
  | 0 => first
  | t + 1 =>
    let now := duoNow ext config orders first t
    let turn := duoTurn ext orders t now
    Function.update now turn.1 (advance ext (config turn.1) (now turn.1) turn.2)

theorem duoTurn_calm (t : Nat) : (duoTurn ext orders t now).2.fates = [] := by
  unfold duoTurn
  split
  all_goals try rfl
  split
  all_goals try rfl
  dsimp only
  split <;> rfl

theorem duoTurn_at (n : Nat) : (n % 4 = 0 → duoTurn ext orders (n + 6) now = (moverAt n,.produceBlock 1 orders [])) ∧
    (n % 4 = 1 → duoTurn ext orders (n + 6) now = (moverAt n,.broadcast 0)) ∧
    (n % 4 = 2 → (duoTurn ext orders (n + 6) now).1 = !moverAt n) ∧
    (n % 4 = 3 → duoTurn ext orders (n + 6) now = (!moverAt n,.broadcast 0)) := by
  refine ⟨fun at_n => ?_,fun at_n => ?_,fun at_n => ?_,fun at_n => ?_⟩ <;> simp only [duoTurn,at_n]

theorem duoTurn_hears {n : Nat} (at_n : n % 4 = 2) (leads : Leads config (moverAt n) block now) :
    duoTurn ext orders (n + 6) now = (!moverAt n,hear ext orders ⟨.newBlock,block.toJson⟩) := by
  simp only [duoTurn,at_n]
  rw [if_neg leads.longer,leads.latest]

section duo
variable {first : Bool → Snapshot} (parses : ext.ParseUndoesDump) (federation : Federation ext config)
  (distinct : Function.Injective (signer ext config)) (keys : ∀ i, (config i).nodeKeys.WellFormed ext)
  (orders : Nat → IterationOrder) (kept : Paired ext config base first) (level : Level first)
include parses federation distinct keys kept level

theorem duo_at (t : Nat) : Paired ext config base (duoNow ext config orders first t) ∧
    DuoStage config (duoNow ext config orders first t) t := by
  induction t with
  | zero => exact ⟨kept,level⟩
  | succ t ih =>
    obtain ⟨sends,later,stepped,stage,-⟩ := duo_step parses federation distinct keys orders t ih.1 ih.2
    rw [duoNow,advance,stepped.acts]
    exact ⟨stepped.kept,stage⟩

theorem duo_next (t : Nat) :
    let now := duoNow ext config orders first t
    let next := duoNow ext config orders first (t + 1)
    let turn := duoTurn ext orders t now
    ∃ sends, Stepped ext config base now turn.1 turn.2 sends (next turn.1) ∧ DuoHanded config now next sends t := by
  intro now next turn
  have here := duo_at parses federation distinct keys orders kept level t
  obtain ⟨sends,later,stepped,-,handed⟩ := duo_step parses federation distinct keys orders t here.1 here.2
  have same : next = Function.update now turn.1 later := by
    change Function.update now turn.1 (advance ext (config turn.1) (now turn.1) turn.2) = _
    rw [advance,stepped.acts]
  rw [same,Function.update_self]
  exact ⟨sends,stepped,handed⟩

def duoRun : Run ext config where
  now := duoNow ext config orders first
  actor t := (duoTurn ext orders t (duoNow ext config orders first t)).1
  action t := (duoTurn ext orders t (duoNow ext config orders first t)).2
  start := kept.reachable
  possible t := by
    obtain ⟨sends,stepped,-⟩ := duo_next parses federation distinct keys orders kept level t
    exact stepped.possible
  undisturbed t := by
    rw [duoTurn_calm]
    exact List.forall_mem_nil _
  acts t := by
    obtain ⟨sends,stepped,-⟩ := duo_next parses federation distinct keys orders kept level t
    exact stepped.acts
  others t i other := Function.update_of_ne other _ _

theorem duo_connected (i j : Bool) {t : Nat} (later : 1 ≤ t) :
    (duoRun parses federation distinct keys orders kept level).Connected (fun _ _ => 0) t i j := by
  cases i
  · exact ⟨1,later,rfl,rfl⟩
  · exact ⟨0,Nat.zero_le t,rfl,rfl⟩

theorem duo_broadcasts {t : Nat} {i : Bool} {send : Send} (waits : send ∈ (duoNow ext config orders first t i).outbox) :
    (duoTurn ext orders t (duoNow ext config orders first t)) = (i,.broadcast 0) ∧
      (duoNow ext config orders first t i).outbox[0]? = some send := by
  have stage := (duo_at parses federation distinct keys orders kept level t).2
  have nothing (silent : (duoNow ext config orders first t i).outbox = []) :
      (duoTurn ext orders t (duoNow ext config orders first t)) = (i,.broadcast 0) ∧
        (duoNow ext config orders first t i).outbox[0]? = some send := by
    rw [silent] at waits
    cases waits
  have single {other : Send} (only : (duoNow ext config orders first t i).outbox = [other]) :
      (duoNow ext config orders first t i).outbox[0]? = some send := by
    rw [only] at waits ⊢
    rw [List.mem_singleton.mp waits]
    rfl
  unfold DuoStage at stage
  split at stage
  · next n =>
    unfold DuoPhase at stage
    split at stage
    · next at_n =>
      rcases stage with level' | ⟨block,leads,only⟩
      · exact nothing (level'.silent i)
      · rcases Bool.eq_or_eq_not i (moverAt n) with rfl | rfl
        · exact ⟨(duoTurn_at n).2.1 at_n,single only⟩
        · exact nothing leads.silent
    · rcases stage with level' | ⟨block,leads,silent,-⟩
      · exact nothing (level'.silent i)
      · rcases Bool.eq_or_eq_not i (moverAt n) with rfl | rfl
        · exact nothing silent
        · exact nothing leads.silent
    · next at_n =>
      rcases Bool.eq_or_eq_not i (moverAt n) with rfl | rfl
      · exact nothing stage.silent
      · rcases stage.relay with silent | ⟨message,only⟩
        · exact nothing silent
        · exact ⟨(duoTurn_at n).2.2.2 at_n,single only⟩
    · exact nothing (stage.silent i)
  · exact nothing (stage.silent i)

theorem duo_delivers {t : Nat} {j : Bool}
    (other : j ≠ (duoRun parses federation distinct keys orders kept level).actor t) {send : Send}
    (said : send ∈ (duoRun parses federation distinct keys orders kept level).handed t)
    (includes : send.recipient.Includes 0) : ∃ t' > t, 1 ≤ t' ∧
      duoTurn ext orders t' (duoNow ext config orders first t') = (j,hear ext orders send.message) := by
  have next (t : Nat) := duo_next parses federation distinct keys orders kept level t
  obtain ⟨sends,stepped,handed⟩ := next t
  have same : (duoRun parses federation distinct keys orders kept level).handed t = sends := by
    exact (congrArg (List.drop _) stepped.said).trans List.drop_left
  rw [same] at said
  match t, other, handed with
  | 0, other, handed =>
    obtain rfl : j = false := eq_false_of_ne_true other
    obtain ⟨_,-,handed'⟩ := next 1
    have node : (duoNow ext config orders first 2 true).node = (duoNow ext config orders first 0 true).node :=
      (handed'.2 true).trans (handed.2 true)
    rw [handed.1] at said
    obtain rfl := List.mem_singleton.mp said
    refine ⟨2,by decide,by decide,?_⟩
    rw [duoTurn,node]
  | 1, other, handed =>
    obtain rfl : j = true := eq_true_of_ne_false other
    obtain ⟨_,-,handed'⟩ := next 2
    have node : (duoNow ext config orders first 3 false).node = (duoNow ext config orders first 1 false).node :=
      (handed'.2 false).trans (handed.2 false)
    rw [handed.1] at said
    obtain rfl := List.mem_singleton.mp said
    refine ⟨3,by decide,by decide,?_⟩
    rw [duoTurn,node]
  | 2, other, handed =>
    obtain rfl : j = true := eq_true_of_ne_false other
    rw [handed.1] at said
    obtain rfl := List.mem_singleton.mp said
    exact ⟨4,by decide,by decide,rfl⟩
  | 3, other, handed =>
    obtain rfl : j = false := eq_false_of_ne_true other
    rw [show sends = _ from handed] at said
    obtain rfl := List.mem_singleton.mp said
    exact ⟨5,by decide,by decide,rfl⟩
  | 4, other, handed =>
    rw [show sends = [] from handed] at said
    cases said
  | 5, other, handed =>
    rw [show sends = [] from handed] at said
    cases said
  | n + 6, other, handed =>
    rw [DuoHanded] at handed
    split at handed
    · next at_n =>
      rcases handed with silent | ⟨block,only,leads⟩
      · rw [silent] at said
        cases said
      · rw [only] at said
        obtain rfl := List.mem_singleton.mp said
        have mover : moverAt (n + 1) = moverAt n := by
          have quotient : (n + 1) / 4 = n / 4 := by omega
          rw [moverAt,moverAt,quotient]
        have acting : (duoRun parses federation distinct keys orders kept level).actor (n + 6) = moverAt n :=
          congrArg Prod.fst ((duoTurn_at n).2.1 at_n)
        rw [acting] at other
        obtain rfl := Bool.eq_not_of_ne other
        refine ⟨(n + 1) + 6,Nat.lt_succ_self _,Nat.le_add_left _ _,?_⟩
        rw [← mover] at leads ⊢
        exact duoTurn_hears (by omega) leads
    · rw [handed send said] at includes
      exact absurd rfl includes

theorem duo_fair : (duoRun parses federation distinct keys orders kept level).Fair fun _ _ => 0 where
  producing t i := by
    have turn (n : Nat) (at_n : n % 4 = 0) (mover : moverAt n = i) :
        duoTurn ext orders (n + 6) (duoNow ext config orders first (n + 6)) = (i,.produceBlock 1 orders []) :=
      mover ▸ (duoTurn_at n).1 at_n
    have found : ∃ n ≥ t, n % 4 = 0 ∧ moverAt n = i := by
      cases i
      · refine ⟨8 * t + 4,by omega,by omega,?_⟩
        rw [moverAt,decide_eq_false_iff_not]
        omega
      · refine ⟨8 * t,by omega,by omega,?_⟩
        rw [moverAt,decide_eq_true_iff]
        omega
    obtain ⟨n,later,at_n,mover⟩ := found
    exact ⟨n + 6,by omega,congrArg Prod.fst (turn n at_n mover),1,orders,[],congrArg Prod.snd (turn n at_n mover)⟩
  connecting i j _ := by
    cases i
    · exact ⟨1,rfl,rfl⟩
    · exact ⟨0,rfl,rfl⟩
  broadcasting t i send waits := by
    obtain ⟨turn,place⟩ := duo_broadcasts parses federation distinct keys orders kept level waits
    exact ⟨t,Nat.le_refl t,congrArg Prod.fst turn,0,congrArg Prod.snd turn,place⟩
  delivering t j other _ send said includes _ := by
    obtain ⟨t',later,greeted,turn⟩ := duo_delivers parses federation distinct keys orders kept level other said includes
    exact ⟨t',later,congrArg Prod.fst turn,duo_connected parses federation distinct keys orders kept level j _ greeted,
      orders,[],congrArg Prod.snd turn⟩

theorem duo_unspoiled (separates : ∀ a b, ext.sha256 (headerPreimage ext a) = ext.sha256 (headerPreimage ext b) →
    a.index = b.index) (t : Nat) : ¬ (duoRun parses federation distinct keys orders kept level).Spoiled t := by
  obtain ⟨kept',stage⟩ := duo_at parses federation distinct keys orders kept level t
  rintro (collision | ⟨i,send,said,long⟩)
  · obtain ⟨longest,comparable⟩ := stage.comparable
    exact collision (kept'.free parses federation separates comparable)
  · exact long ((kept'.framed i).2.1 send said)

/-- Two nodes on one chain can run fairly for ever, and nothing is spoiled. -/
theorem exists_fair (orders : Nat → IterationOrder)
    (separates : ∀ a b, ext.sha256 (headerPreimage ext a) = ext.sha256 (headerPreimage ext b) → a.index = b.index) :
    ∃ run : Run ext config, run.now 0 = first ∧ run.Fair (fun _ _ => 0) ∧
      ∀ t, ¬ run.Spoiled t ∧ Paired ext config base (run.now t) :=
  ⟨duoRun parses federation distinct keys orders kept level,rfl,
    duo_fair parses federation distinct keys orders kept level,fun t =>
      ⟨duo_unspoiled parses federation distinct keys orders kept level separates t,
        (duo_at parses federation distinct keys orders kept level t).1⟩⟩

end duo

end pair

/-- Steps of one node by itself. -/
theorem Reachable.alone {ι : Type} [DecidableEq ι] {ext : Externals} {config : ι → Config} {world : ι → Process}
    (reached : Reachable ext config world) (i : ι) (actions : List Action)
    (calm : ∀ action ∈ actions, action.fates = []) (brings_none : ∀ action ∈ actions, ∀ msg, ¬ action.Brings ext msg) :
    Reachable ext config (Function.update world i (actions.foldl (Process.step ext (config i)) (world i))) := by
  induction actions generalizing world with
  | nil =>
    rw [List.foldl_nil,Function.update_eq_self]
    exact reached
  | cons action rest ih =>
    have quiet := brings_none action (List.mem_cons_self ..)
    have stepped := Reachable.step reached i action ⟨by rw [calm action (List.mem_cons_self ..)]; exact List.forall_mem_nil _,
      fun msg brings => (quiet msg brings).elim,fun msg brings => (quiet msg brings).elim⟩
    have later := ih stepped (fun other member => calm other (List.mem_cons_of_mem _ member))
      fun other member => brings_none other (List.mem_cons_of_mem _ member)
    rwa [Function.update_self,Function.update_idem] at later

namespace Reference

def duo (validator : Bool) : Config := { pair validator with authorities := [validatorAddress,observerAddress] }

theorem duo_signer (i : Bool) : signer libraries duo i = if i then validatorAddress else observerAddress := by
  cases i <;> decide +kernel

theorem duo_distinct : Function.Injective (signer libraries duo) := by
  have apart : validatorAddress ≠ observerAddress := by decide +kernel
  intro i j same
  rw [duo_signer,duo_signer] at same
  cases i <;> cases j
  · rfl
  · exact absurd same.symm apart
  · exact absurd same apart
  · rfl

theorem duo_federation : Federation libraries duo := by
  refine ⟨fun _ _ => rfl,fun _ _ => rfl,fun _ => rfl,fun i authority member => ?_⟩
  have found : ∃ owner, signer libraries duo owner = authority := by
    change authority ∈ [validatorAddress,observerAddress] at member
    rcases List.mem_pair.mp member with rfl | rfl
    · exact ⟨true,duo_signer true⟩
    · exact ⟨false,duo_signer false⟩
  obtain ⟨owner,signs⟩ := found
  exact ⟨owner,signs,fun other same => duo_distinct (same.trans signs.symm)⟩

theorem duo_keys (i : Bool) : (duo i).nodeKeys.WellFormed libraries := by
  cases i
  · exact observerKeys_wellFormed
  · exact validatorKeys_wellFormed

/-- Two payments are submitted to the validator and announced to nobody. -/
def duoActions (validator : Bool) : List Action :=
  if validator then [.boot [],.submitTransaction payment,.submitTransaction secondPayment,.broadcast 0,.broadcast 0]
  else [.boot []]

theorem duo_opened : ∃ first, Paired libraries duo [secondPayment,payment] first ∧ Level first ∧
    (first true).node.mempool.transactions = [secondPayment,payment] ∧
    (first true).node.blockchain.chain = [genesis] := by
  have ran (i : Bool) : (match Process.run libraries (duo i) (duoActions i) with
      | .up now => now.outbox.isEmpty && decide (now.node.blockchain.chain = [genesis]) &&
        decide (now.node.mempool.transactions = if i then [secondPayment,payment] else [])
      | .down _ _ _ _ => false) = true := by
    cases i <;> decide +kernel
  have opened (i : Bool) : ∃ now, Process.run libraries (duo i) (duoActions i) = .up now ∧ now.outbox = [] ∧
      now.node.blockchain.chain = [genesis] ∧
      now.node.mempool.transactions = if i then [secondPayment,payment] else [] := by
    have facts := ran i
    split at facts
    · next now up =>
      rw [Bool.and_eq_true,Bool.and_eq_true,List.isEmpty_iff,decide_eq_true_iff,decide_eq_true_iff] at facts
      exact ⟨now,up,facts.1.1,facts.1.2,facts.2⟩
    · cases facts
  choose first up silent chain pool using opened
  have calm (i : Bool) : ∀ action ∈ duoActions i, action.fates = [] := by
    cases i <;> simp [duoActions,Action.fates]
  have brings_none (i : Bool) : ∀ action ∈ duoActions i, ∀ msg, ¬ action.Brings libraries msg := by
    cases i <;> simp [duoActions,Action.Brings]
  refine ⟨first,⟨?_,fun i => ?_,fun i => ?_,fun i => ?_⟩,⟨?_,silent⟩,pool true,chain true⟩
  · have begun : Reachable libraries duo fun _ => Process.initial := .start
    have reached := (begun.alone true (duoActions true) (calm true)
      (brings_none true)).alone false (duoActions false) (calm false) (brings_none false)
    have same : (fun i => Process.up (first i)) = _ := funext fun i => (up i).symm
    rw [same]
    refine cast (congrArg _ ?_) reached
    funext i
    cases i <;> rfl
  · have framed := run_framed libraries (duo i) (duoActions i) fun earlier action later parts msg brings =>
      (brings_none i action (by rw [parts]; simp) msg brings).elim
    rw [up i] at framed
    exact framed
  · rw [pool i]
    cases i
    · exact List.nil_subset _
    · exact List.Subset.refl _
  · rw [chain i]
    exact List.forall_mem_singleton.mpr (List.nil_subset _)
  · rw [chain true,chain false]

end Reference
end TitanCore
