import FluxSync.Core.History
import FluxSync.Foundation.Runs
import FluxSync.Mesh.Frames
import FluxSync.Pipeline.Outbox

namespace FluxSync.Pipeline

open Std Mesh

/-- Code that the model leaves open. -/
structure Env where
  blake3 : ByteArray → ContentHash
  /-- `image_rgba_hash` of what `decode_png_to_rgba` makes of a payload. -/
  imageHash : List UInt8 → Option ContentHash
  previewLabel : Kind → ByteArray → String

def EVENT_CHANNEL_CAP : ℕ := 1024

def verifyContentHash (env : Env) (kind : Kind) (payload : List UInt8) (claimed : ContentHash) :
    Bool :=
  match kind with
  | .image => env.imageHash payload == some claimed
  | kind => App.contentDigest env.blake3 kind ⟨payload.toArray⟩ == claimed

/-- A complete item past the gate, numbered among all of them. -/
structure Arrival extends CompleteItem where
  no : ℕ
  /-- How many security wipes had been made when its first bytes came. -/
  wipes : ℕ
  deriving DecidableEq

namespace Arrival

def eventId (a : Arrival) : EventId := ⟨a.origin, a.eventSeq⟩

def entry (a : Arrival) (now : ℕ) : OutboxEntry where
  payload := a.payload
  kind := a.kind
  origin := a.origin
  seq := a.eventSeq
  created := now
  capture := { arrival := some (a.no, a.source), sensitive := a.sensitive, wipes := a.wipes }

def bytes (a : Arrival) : ByteArray := ⟨a.payload.toArray⟩

def event (env : Env) (a : Arrival) (resync : Bool) : Event :=
  .frameReceivedClipboard a.hash a.kind a.bytes (env.previewLabel a.kind a.bytes) a.sensitive
    a.lamport resync a.source

def decide (a : Arrival) (policy : FirewallPolicy) : Decision :=
  policy.decide a.kind a.sensitive .inbound

end Arrival

/-- What the receive loop has in hand between two of its awaits. -/
inductive Hand
  | gated (a : Arrival)
  | acked (a : Arrival)
  | sighted (a : Arrival)
  | judged (a : Arrival) (decision : Decision)
  /-- A sensitive item is not judged. -/
  | cached (a : Arrival) (decision : Option Decision)
  | relayed (a : Arrival) (decision : Option Decision)
  | serving (hash : ContentHash) (entry : OutboxEntry)

def Hand.arrival : Hand → Option Arrival
  | .gated a | .acked a | .sighted a | .judged a _ | .cached a _ | .relayed a _ => some a
  | .serving .. => none

/-- The arrival in hand, once it was seen for the first time. -/
def Hand.pastSight : Hand → Option Arrival
  | .sighted a | .judged a _ | .cached a _ | .relayed a _ => some a
  | _ => none

/-- An event in the channel, with the arrival it was made of and how that was judged. -/
structure Queued where
  event : Event
  arrival : Option (Arrival × Option Decision) := none

structure Inflight where
  pendingPeers : List PeerId
  capture : Capture

/-- What the main loop has still to do before it selects again. -/
inductive Chore
  | handle (e : Event) (wall : WallClock)
  /-- The part of `CmdOp::Revoke` and of a rejecting `CmdOp::PairConfirm` that follows the save. -/
  | expel (p : PeerId) (wall : WallClock) (lost : Bool) (next : Option String)
  | purgeStage (hashes : List ContentHash)
  | clearOutbox
  | clearStage
  | clearInflight
  | purgeInflight (p : PeerId)
  | promote (hash : ContentHash) (admittedInbound : Bool)
  | removeFromOutbox (hashes : List ContentHash)
  | act (a : Action)
  /-- The baseline of the wipe counter after a command. -/
  | rebase

/-- A firewall decision of the App, and what it let happen. -/
structure Verdict where
  arrival : Arrival
  judged : Option Decision
  live : Decision

/-- What has happened. Nothing of the daemon reads it. -/
structure Log where
  arrivals : ℕ := 0
  /-- Acked and seen for the first time. -/
  sighted : List Arrival := []
  relayed : List Arrival := []
  handled : List Verdict := []
  /-- Staged arrivals that an approval has moved into the outbox. -/
  approved : List ℕ := []
  wipes : ℕ := 0
  /-- No `EmitState` has been dispatched since the last security wipe. -/
  unpublished : Bool := false

/-- The receive loop, the main loop, and what they share. -/
structure Node where
  app : App
  /-- The policy that the state watch shows. -/
  published : FirewallPolicy
  queue : List Queued := []
  hand : Option Hand := none
  meshSeen : SeenSet := {}
  outbox : Outbox := {}
  outboxStage : Stage := ∅
  inflight : ExtTreeMap ContentHash Inflight := ∅
  todo : List Chore := []
  lastWipeGenSync : UInt64
  /-- The peers taken out of `TrustedSet` and not put in again. -/
  gone : Finset PeerId := ∅
  log : Log := {}

def Node.start (policy : FirewallPolicy) : Node where
  app := .new policy
  published := policy
  lastWipeGenSync := 0

/-- What the two `select!` arms leave to the moment they run in. -/
structure Oracle where
  now : ℕ
  /-- The linked peers. -/
  targets : List PeerId
  /-- The linked peers an item goes to. -/
  sends : List PeerId
  /-- What `next_local_event_id` gives. -/
  id : EventId

inductive Cmd
  /-- A command that is one event for the App. -/
  | plain (e : Event) (wall : WallClock)
  | setHistoryRetention (secs nowMs : UInt64)
  /-- The expiry tick. -/
  | expireHistory (nowMs : UInt64)
  | delivered (hash : ContentHash) (device : String)
  | setFirewall (policy : FirewallPolicy)
  | resolvePending (hash : String) (allow : Bool) (wall : WallClock)
  | clearHistory (includeFavorites : Bool) (wall : WallClock)
  /-- `live` is the primary that already has a session, as `resume_live_primary` finds it. -/
  | toggleOn (wall : WallClock) (live : Option (PeerId × String))
  /-- `CmdOp::Revoke`, or `CmdOp::PairConfirm` with `accept` false, up to the end of the save. -/
  | expel (p : PeerId) (wall : WallClock) (lost : Bool) (next : Option String)
  /-- `CmdOp::Unpair` while these peers are trusted. -/
  | unpair (trusted : Finset PeerId) (linked : List PeerId) (wall : WallClock)

inductive Act
  /-- A complete item of a peer has passed the gate. -/
  | arrive (item : CompleteItem) (wipes : ℕ)
  /-- The receive loop goes on with what it has in hand. -/
  | inbound (o : Oracle) (resync : Bool)
  /-- A `ResyncPull` names this hash. -/
  | pull (hash : ContentHash) (now : ℕ)
  /-- An `Ack`, or a spent retry budget. -/
  | release (hash : ContentHash) (p : PeerId)
  /-- Any other producer of events. -/
  | raise (e : Event)
  /-- A peer's own `Revoke` or `PairConfirm` reject, or the reaper, takes the peer out. -/
  | leave (p : PeerId)
  | join (p : PeerId)
  | pop (wall : WallClock) (others : List PeerId)
  | command (c : Cmd)
  | chore (o : Oracle)

/-- What a call of the App does to the model's own record. -/
def Log.after (l : Log) (app : App) (e : Event) : Log :=
  if app.wipes e then { l with wipes := l.wipes + 1, unpublished := true } else l

namespace Node

variable (env : Env)

/-- The events that come through the channel from elsewhere than the receive loop's items. -/
def raised : Event → Bool
  | .frameReceivedClipboard .. | .resolvePending .. | .clearHistory _ | .manualUnpair
  | .setFavorite .. => false
  | _ => true

/-- The events that commands hand to the App as they are. -/
def commanded : Event → Bool
  | .localClipboardChange .. | .toggleOff | .setFavorite .. | .batteryChangedSelf ..
  | .sasPeerConfirmed _ | .sasLocalConfirmed _ => true
  | _ => false

def send (s : Node) (q : Queued) : Node :=
  if s.queue.length < EVENT_CHANNEL_CAP then { s with queue := s.queue ++ [q] } else s

/-- An entry in flight for the same hash keeps its pending peers. -/
def trackInflight (s : Node) (hash : ContentHash) (capture : Capture) (peers : List PeerId) : Node :=
  let pendingPeers := (s.inflight[hash]?.elim [] (·.pendingPeers)) ++ peers
  { s with inflight := s.inflight.insert hash { pendingPeers, capture } }

/-- `complete_reassembled_item` and the inline arm, from one await to the next. -/
def resume (s : Node) (o : Oracle) (resync : Bool) : Hand → Node
  | .gated a =>
    if verifyContentHash env a.kind a.payload a.hash then { s with hand := some (.acked a) }
    else { s with hand := none }
  | .acked a =>
    let (meshSeen, firstSight) := s.meshSeen.observe a.eventId
    if firstSight then
      { s with
        meshSeen, hand := some (.sighted a)
        log := { s.log with sighted := s.log.sighted ++ [a] } }
    else { s with meshSeen, hand := none }
  | .sighted a =>
    if a.sensitive then { s with hand := some (.cached a none) }
    else { s with hand := some (.judged a (a.decide s.published)) }
  | .judged a decision =>
    let s := { s with hand := some (.cached a (some decision)) }
    match decision with
    | .pass => { s with outbox := s.outbox.insert o.now a.hash (a.entry o.now) }
    | .defer =>
      { s with outboxStage := (s.outboxStage.insertIfNew a.hash (a.entry o.now)) }
    | .block => s
  | .cached a decision =>
    let s := { s with hand := some (.relayed a decision) }
    if decision = some .block ∨ o.sends = [] then s
    else
      { s.trackInflight a.hash (a.entry o.now).capture o.sends with
        log := { s.log with relayed := s.log.relayed ++ [a] } }
  | .relayed a decision =>
    ({ s with hand := none } : Node).send
      { event := a.event env resync, arrival := some (a, decision) }
  | .serving hash entry =>
    let s := { s with hand := none }
    if o.sends = [] then s else s.trackInflight hash entry.capture o.sends

/-- The content hashes of the parked items that went with a peer. -/
def dropped (actions : List Action) : List ContentHash :=
  actions.flatMap fun
    | .pendingDropped hashes => hashes
    | _ => []

/-- Only these events look at the other linked peers. -/
def refreshed (app : App) (others : List PeerId) : Event → App
  | .ghostTimeout | .peerSeen .. => app.setOtherLinkedPeers others
  | _ => app

/-- The event arm of the main loop, up to its first await after `App::handle`. -/
def eventArm (s : Node) (q : Queued) (wall : WallClock) (others : List PeerId) : Node :=
  let app := refreshed s.app others q.event
  let (app', actions) := app.handle env.blake3 q.event wall
  let wiped := app'.state.vaultWipeGen ≠ s.lastWipeGenSync
  let log := s.log.after app q.event
  { s with
    app := app'
    lastWipeGenSync := app'.state.vaultWipeGen
    todo := .purgeStage (dropped actions) ::
      (if wiped then [.clearOutbox, .clearStage, .clearInflight] else []) ++
      (match q.event with
        | .peerRevoked p => [.purgeInflight p]
        | _ => []) ++
      actions.map .act
    log := { log with
      handled := log.handled ++
        match q.arrival with
        | some (arrival, judged) => [{ arrival, judged, live := arrival.decide app.firewall }]
        | none => [] } }

/-- What follows the revocation of the primary where no secondary takes its place. -/
def rebind (app : App) (p : PeerId) (wall : WallClock) (next : Option String) :
    App × List Action :=
  let (app, actions) := app.handle env.blake3 (.peerLost p) wall
  match next with
  | some name =>
    let (app, more) := app.handle env.blake3 (.setTrustedPeer name) wall
    (app, actions ++ more)
  | none => (app, actions)

def command (s : Node) : Cmd → Node
  | .plain e wall => { s with todo := [.handle e wall, .rebase] }
  | .setHistoryRetention secs nowMs =>
    { s with
      app := (s.app.setHistoryRetention secs nowMs).getD s.app
      todo := [.act .emitState, .rebase] }
  | .expireHistory nowMs =>
    { s with app := (s.app.expireHistory nowMs).1, todo := [.act .emitState, .rebase] }
  | .delivered hash device =>
    { s with app := (s.app.markDelivered hash device).1, todo := [.act .emitState, .rebase] }
  | .setFirewall policy =>
    { s with app := s.app.setFirewall policy, todo := [.act .emitState, .rebase] }
  | .resolvePending hash allow wall =>
    let (app, actions) := s.app.handle env.blake3 (.resolvePending hash allow) wall
    let admittedInbound := allow && actions.any fun
      | .writeClipboard .. => true
      | _ => false
    { s with
      app
      todo := (hex32Decode hash).toList.map (.promote · admittedInbound) ++ actions.map .act ++
        [.rebase] }
  | .clearHistory includeFavorites wall =>
    let cleared := (s.app.state.history.filter fun h ↦ includeFavorites || !h.favorite).filterMap
      (hex32Decode ·.hash)
    { s with
      todo := [.removeFromOutbox cleared, .handle (.clearHistory includeFavorites) wall, .rebase] }
  | .toggleOn wall live =>
    { s with
      todo := .handle .toggleOn wall ::
        (match live with
          | some (p, name) => [.handle (.peerSeen p name) wall, .handle .handshakeOk wall]
          | none => []) ++ [.rebase] }
  | .expel p wall lost next =>
    { s with gone := insert p s.gone, todo := [.expel p wall lost next, .rebase] }
  | .unpair trusted linked wall =>
    { s with
      gone := s.gone ∪ trusted
      todo := linked.map .purgeInflight ++ [.handle .manualUnpair wall, .rebase] }

/-- A dispatched action. The other ones touch nothing of the model. -/
def dispatch (s : Node) (o : Oracle) : Action → Node
  | .emitState =>
    { s with published := s.app.state.firewall, log := { s.log with unpublished := false } }
  | .sendItem hash kind payload sensitive =>
    -- A local item counts as captured before every wipe.
    let capture : Capture := { arrival := none, sensitive, wipes := 0 }
    let entry : OutboxEntry :=
      { payload := payload.toList, kind, origin := o.id.origin, seq := o.id.seq, created := o.now
        capture }
    if o.targets = [] then s
    else
      let s := if sensitive then s else { s with outbox := s.outbox.insert o.now hash entry }
      if o.sends = [] then s else s.trackInflight hash capture o.sends
  | _ => s

/-- The first chore of the list, with the others left in `todo`. -/
def perform (s : Node) (o : Oracle) : Chore → Node
  | .handle e wall =>
    let (app, actions) := s.app.handle env.blake3 e wall
    { s with app, todo := actions.map .act ++ s.todo, log := s.log.after s.app e }
  | .expel p wall lost next =>
    let (app, actions) := s.app.handle env.blake3 (.peerRevoked p) wall
    let (app', more) := if s.app.state.peerId = p ∧ lost then rebind env app p wall next else (app, [])
    { s with
      app := app'
      todo := .purgeStage (dropped actions) :: .purgeInflight p ::
        (actions ++ more).map .act ++ s.todo }
  | .purgeStage hashes =>
    { s with outboxStage := hashes.foldl (fun m h ↦ m.erase h) s.outboxStage }
  | .clearOutbox => { s with outbox := {} }
  | .clearStage => { s with outboxStage := ∅ }
  | .clearInflight => { s with inflight := ∅ }
  | .purgeInflight p =>
    let inflight := s.inflight.map fun _ i ↦ { i with pendingPeers := i.pendingPeers.filter (· ≠ p) }
    { s with inflight := inflight.filter fun _ i ↦ i.pendingPeers ≠ [] }
  | .promote hash admittedInbound =>
    match s.outboxStage[hash]? with
    | some entry =>
      let s := { s with outboxStage := s.outboxStage.erase hash }
      if admittedInbound then
        { s with
          outbox := s.outbox.insert o.now hash entry
          log := { s.log with
            approved := s.log.approved ++ entry.capture.arrival.toList.map Prod.fst } }
      else s
    | none => s
  | .removeFromOutbox hashes => { s with outbox := s.outbox.removeMany hashes }
  | .act a => s.dispatch o a
  | .rebase => { s with lastWipeGenSync := s.app.state.vaultWipeGen }

/-- Clears a peer from an item's pending peers. -/
def acked (s : Node) (hash : ContentHash) (p : PeerId) : Node :=
  match s.inflight[hash]? with
  | some i =>
    let pendingPeers := i.pendingPeers.filter (· ≠ p)
    if pendingPeers = [] then { s with inflight := s.inflight.erase hash }
    else { s with inflight := s.inflight.insert hash { i with pendingPeers } }
  | none => s

def step (s : Node) : Act → Option Node
  | .arrive item wipes =>
    if s.hand.isNone ∧ item.source ∉ s.gone ∧ wipes ≤ s.log.wipes then
      some { s with
        hand := some (.gated { item with no := s.log.arrivals, wipes })
        log := { s.log with arrivals := s.log.arrivals + 1 } }
    else none
  | .inbound o resync => s.hand.map (s.resume env o resync)
  | .pull hash now =>
    match s.hand, s.outbox.get now hash with
    | none, some entry =>
      if s.published.decide entry.kind false .outbound = .pass then
        some { s with hand := some (.serving hash entry) }
      else some s
    | none, none => some s
    | some _, _ => none
  | .release hash p => some (s.acked hash p)
  | .raise e => if raised e then some (s.send { event := e }) else none
  | .leave p => some { s with gone := insert p s.gone }
  | .join p => some { s with gone := s.gone.erase p }
  | .pop wall others =>
    match s.todo, s.queue with
    | [], q :: queue => some ({ s with queue }.eventArm env q wall others)
    | _, _ => none
  | .command c =>
    match c, s.todo with
    | .plain e wall, [] => if commanded e then some (s.command env (.plain e wall)) else none
    | c, [] => some (s.command env c)
    | _, _ :: _ => none
  | .chore o =>
    match s.todo with
    | c :: todo => some ({ s with todo }.perform env o c)
    | [] => none

variable {env : Env} {s s' : Node} {o : Oracle} {l : Log} {app : App} {e : Event}

@[simp] theorem after_arrivals : (l.after app e).arrivals = l.arrivals := by
  rw [Log.after]
  split <;> rfl

@[simp] theorem after_sighted : (l.after app e).sighted = l.sighted := by
  rw [Log.after]
  split <;> rfl

@[simp] theorem after_handled : (l.after app e).handled = l.handled := by
  rw [Log.after]
  split <;> rfl

@[simp] theorem after_relayed : (l.after app e).relayed = l.relayed := by
  rw [Log.after]
  split <;> rfl

@[simp] theorem after_approved : (l.after app e).approved = l.approved := by
  rw [Log.after]
  split <;> rfl

theorem step_arrive {item : CompleteItem} {wipes : ℕ} (h : s.step env (.arrive item wipes) = some s') :
    s.hand = none ∧ item.source ∉ s.gone ∧ wipes ≤ s.log.wipes ∧
      s' = { s with
        hand := some (.gated { item with no := s.log.arrivals, wipes })
        log := { s.log with arrivals := s.log.arrivals + 1 } } := by
  obtain ⟨⟨hhand, hgone, hw⟩, h⟩ := Option.ite_none_right_eq_some.mp h
  exact ⟨Option.isNone_iff_eq_none.mp hhand, hgone, hw, (Option.some.inj h).symm⟩

theorem step_inbound {resync : Bool} (h : s.step env (.inbound o resync) = some s') :
    ∃ hand, s.hand = some hand ∧ s' = s.resume env o resync hand := by
  obtain ⟨hand, hhand, rfl⟩ := Option.map_eq_some_iff.mp h
  exact ⟨hand, hhand, rfl⟩

theorem step_pull {hash : ContentHash} {now : ℕ} (h : s.step env (.pull hash now) = some s') :
    s.hand = none ∧ (s' = s ∨ ∃ entry, s.outbox.get now hash = some entry ∧
      s' = { s with hand := some (.serving hash entry) }) := by
  simp only [step] at h
  split at h
  case h_1 entry hhand hentry =>
    refine ⟨hhand, ?_⟩
    split at h
    · exact .inr ⟨entry, hentry, (Option.some.inj h).symm⟩
    · exact .inl (Option.some.inj h).symm
  case h_2 hhand _ => exact ⟨hhand, .inl (Option.some.inj h).symm⟩
  case h_3 => cases h

theorem step_raise {e : Event} (h : s.step env (.raise e) = some s') :
    raised e ∧ s' = s.send { event := e } := by
  obtain ⟨he, h⟩ := Option.ite_none_right_eq_some.mp h
  exact ⟨he, (Option.some.inj h).symm⟩

theorem step_pop {wall : WallClock} {others : List PeerId}
    (h : s.step env (.pop wall others) = some s') :
    s.todo = [] ∧ ∃ q queue, s.queue = q :: queue ∧
      s' = { s with queue }.eventArm env q wall others := by
  simp only [step] at h
  split at h
  case h_1 q queue htodo hqueue => exact ⟨htodo, q, queue, hqueue, (Option.some.inj h).symm⟩
  case h_2 => cases h

theorem step_command {c : Cmd} (h : s.step env (.command c) = some s') :
    s.todo = [] ∧ (∀ e wall, c = .plain e wall → commanded e) ∧ s' = s.command env c := by
  simp only [step] at h
  split at h
  case h_1 e wall htodo =>
    obtain ⟨he, h⟩ := Option.ite_none_right_eq_some.mp h
    refine ⟨htodo, fun e' wall' hc ↦ ?_, (Option.some.inj h).symm⟩
    obtain ⟨rfl, -⟩ := Cmd.plain.inj hc
    exact he
  case h_2 hplain htodo =>
    exact ⟨htodo, fun e wall hc ↦ (hplain e wall hc).elim, (Option.some.inj h).symm⟩
  case h_3 => cases h

theorem step_chore (h : s.step env (.chore o) = some s') :
    ∃ c todo, s.todo = c :: todo ∧ s' = { s with todo }.perform env o c := by
  simp only [step] at h
  split at h
  case h_1 c todo htodo => exact ⟨c, todo, htodo, (Option.some.inj h).symm⟩
  case h_2 => cases h

end Node

end FluxSync.Pipeline
