import FluxSync.Core.Pairing
import FluxSync.Daemon.Steps

/-! ## Whose pairing is on the screen -/

namespace FluxSync.Verify

open Std Runs Daemon App

def EVENT_CHANNEL_CAP : ℕ := 1024

/-- On whose account an event was sent. No task reads it. -/
inductive Cause
  /-- A handshake with the peer has started a pairing. -/
  | handshake (p : PeerId)
  | message (p : PeerId)
  /-- The reaper has found the pairs of these peers expired. -/
  | expiry (ps : List PeerId)
  /-- The link of the peer has timed out or was dropped. -/
  | link (p : PeerId)
  | ghost
  | other
  deriving DecidableEq

/-- A comparison that is under way, or done, with its peer still there. -/
def livePhases : List String := ["showing", "local_confirmed", "peer_confirmed", "confirmed"]

/-- `in_sas_flow`, on the state that was published last. -/
def inSasFlow (seen : String × Option PeerId) (p : PeerId) : Bool :=
  seen.2 == some p && livePhases.contains seen.1

/-- A message that touches a pairing. `ends` says that the peer is the cached primary and no
secondary takes over. -/
inductive Message
  | bye (ends : Bool)
  | revoke (ends : Bool)
  | hello (sasConfirm : Bool)
  | pairConfirm (accept : Bool) (seen : String × Option PeerId) (ends : Bool)
  | pairVerifyStarted (seen : String × Option PeerId) (sasWords : List String) (addr : SocketAddr)
      (victim : PeerId)

/-- The daemon as far as pairings go. Each handler, tick and command runs in one step. -/
structure Node where
  sh : Shared
  app : App
  queue : List (Event × Cause)
  deferred : List PeerId
  /-- The peers whose `Hello` has come, with whether they know `sas-confirm`. -/
  caps : ExtTreeMap PeerId Bool

inductive Act
  | message (p : PeerId) (m : Message)
  /-- `run_initiator` with the SAS gate engaged has a session. -/
  | dialed (c : Contact) (victim : PeerId)
  /-- `run_responder` accepts an unknown peer under the pairing window. -/
  | joined (c : Contact) (victim : PeerId)
  /-- A pair command trusts the peer it names. -/
  | pair (c : Contact)
  | pairShow
  | pairPending
  | accept (p : PeerId) (wall : WallClock)
  | reject (p : PeerId) (saved ends : Bool) (wall : WallClock)
  | revoke (p : PeerId) (saved ends : Bool) (wall : WallClock)
  | unpair (saved : Bool) (wall : WallClock)
  | reap (saved : Bool)
  | elapse (t : ℕ)
  | lost (p : PeerId)
  | ghostTimeout
  /-- Any other event is sent. -/
  | send (e : Event)
  /-- The main loop handles the next event. -/
  | next (wall : WallClock)
  /-- Any other command. -/
  | call (c : Call)

/-- Events that leave the comparison alone. -/
def quietEvent : Event → Bool
  | .peerLost _ | .ghostTimeout | .untrustedPeerSeen _ | .manualUnpair | .sasReset
  | .sasPairingStarted _ | .sasLocalConfirmed _ | .sasPeerConfirmed _ | .sasPeerRejected _ => false
  | _ => true

def quietCall : Call → Bool
  | .handle e _ => quietEvent e
  | _ => true

namespace Node

def boot (sh : Shared) (policy : FirewallPolicy) : Node := ⟨sh, .new policy, [], [], ∅⟩

/-- `try_send` gives up when the channel is full. -/
def send (n : Node) (e : Event) (c : Cause) : Node :=
  if n.queue.length < EVENT_CHANNEL_CAP then { n with queue := n.queue ++ [(e, c)] } else n

def sendIf (n : Node) (b : Bool) (e : Event) (c : Cause) : Node := if b then n.send e c else n

def handle (blake3 : ByteArray → ContentHash) (n : Node) (e : Event) (wall : WallClock) : Node :=
  { n with app := (n.app.handle blake3 e wall).1 }

def forget (n : Node) (p : PeerId) : Node := { n with caps := n.caps.erase p }

def undefer (n : Node) (p : PeerId) : Node := { n with deferred := n.deferred.filter (· ≠ p) }

/-- The arms of `dispatch_inbound_frame` that touch a pairing. -/
def message (n : Node) (p : PeerId) : Message → Node
  | .bye ends => (n.forget p).sendIf ends (.peerLost p) (.message p)
  | .revoke ends =>
    let had := n.sh.pendingPairs.contains p
    let n := { n with sh := (n.sh.distrust p).unpend p }
    (((n.sendIf had .sasReset (.message p)).undefer p).forget p).sendIf ends (.peerLost p)
      (.message p)
  | .hello sasConfirm =>
    let isFreshPair := n.sh.pendingPairs.contains p || n.deferred.contains p
    let n := { n with caps := n.caps.insert p sasConfirm }
    (n.undefer p).sendIf (isFreshPair && !sasConfirm) (.sasPeerConfirmed p) (.message p)
  | .pairConfirm true seen _ =>
    let had := n.sh.pendingPairs.contains p
    let sh := match n.sh.pendingPairs[p]? with
      | some e => { n.sh with
        pendingPairs :=
          n.sh.pendingPairs.insert p { e with expiresAt := n.sh.now + PAIRING_WINDOW } }
      | none => n.sh
    { n with sh := sh }.sendIf (had || inSasFlow seen p) (.sasPeerConfirmed p) (.message p)
  | .pairConfirm false seen ends =>
    let had := n.sh.pendingPairs.contains p
    let n := { n with sh := (n.sh.unpend p).distrust p }
    (((n.undefer p).forget p).sendIf (had || inSasFlow seen p) (.sasPeerRejected p)
      (.message p)).sendIf ends (.peerLost p) (.message p)
  | .pairVerifyStarted seen sasWords addr victim =>
    match n.sh.trusted[p]? with
    | some t =>
      if n.sh.pendingPairs.contains p || inSasFlow seen p || decide (p ∉ n.sh.linked) then n
      else match n.sh.park ⟨p, t.staticPub, t.name, addr, sasWords⟩ victim with
        | some sh => { n with sh := sh }.send (.sasPairingStarted p) (.message p)
        | none => n
    | none => n

/-- The user's verdict on the pair of `p`: it was right. -/
def accept (blake3 : ByteArray → ContentHash) (n : Node) (p : PeerId) (wall : WallClock) : Node :=
  let n := { n with sh := n.sh.unpend p }
  let n := match n.caps[p]? with
    | some true => n
    | some false => n.handle blake3 (.sasPeerConfirmed p) wall
    | none => { n with deferred := n.deferred ++ [p] }
  n.handle blake3 (.sasLocalConfirmed p) wall

/-- What `Revoke` and a rejecting `PairConfirm` of the user end with. -/
def tearDown (blake3 : ByteArray → ContentHash) (n : Node) (p : PeerId) (ends : Bool)
    (wall : WallClock) : Node :=
  let wasPrimary := n.app.state.peerId == p
  let n := (n.forget p).handle blake3 (.peerRevoked p) wall
  if wasPrimary && ends then n.handle blake3 (.peerLost p) wall else n

def reap (n : Node) (saved : Bool) : Node :=
  let expired := n.sh.expired
  let ids := expired.map Prod.fst
  let removed := n.sh.recordsOf ids
  let swept : Shared := { n.sh with pendingPairs := sweep n.sh.pendingPairs n.sh.now }
  if expired.isEmpty then { n with sh := swept }
  else
    let n := n.send .sasReset (.expiry ids)
    let sh := swept.distrustAll ids
    { n with sh := if saved then sh else (sh.retrust removed).repend (.reap expired removed) }

end Node

def step (blake3 : ByteArray → ContentHash) (n : Node) : Act → Option Node
  | .message p m => some (n.message p m)
  | .dialed c victim =>
    if n.sh.trusted.contains c.peer then
      (n.sh.park c victim).map fun sh ↦
        { n with sh := sh }.send (.sasPairingStarted c.peer) (.handshake c.peer)
    else none
  | .joined c victim =>
    if n.sh.Tofu c then
      ((n.sh.enroll c (tofuTrustedPeer c.staticPub)).park
          { c with name := TOFU_PLACEHOLDER_NAME } victim).map fun sh ↦
        { n with sh := sh }.send (.sasPairingStarted c.peer) (.handshake c.peer)
    else none
  | .pair c => some { n with sh := n.sh.enroll c ⟨c.staticPub, c.name⟩ }
  | .pairShow => some { n with sh := { n.sh with pairingWindow := some (n.sh.now + PAIRING_WINDOW) } }
  | .pairPending =>
    some { n with sh := { n.sh with pendingPairs := sweep n.sh.pendingPairs n.sh.now } }
  | .accept p wall => if n.sh.pendingPairs.contains p then some (n.accept blake3 p wall) else none
  | .reject p saved ends wall =>
    if n.sh.pendingPairs.contains p then
      if saved then
        some (({ n with sh := (n.sh.unpend p).distrust p }.undefer p).tearDown blake3 p ends wall)
      else some (n.undefer p)
    else none
  | .revoke p saved ends wall =>
    if saved then some ({ n with sh := n.sh.distrust p }.tearDown blake3 p ends wall) else some n
  | .unpair saved wall =>
    if saved then some ({ n with sh := { n.sh with trusted := ∅ } }.handle blake3 .manualUnpair wall)
    else some n
  | .reap saved => some (n.reap saved)
  | .elapse t => some { n with sh := { n.sh with now := n.sh.now + t } }
  | .lost p => some (n.send (.peerLost p) (.link p))
  | .ghostTimeout => some (n.send .ghostTimeout .ghost)
  | .send e => if quietEvent e then some (n.send e .other) else none
  | .next wall =>
    match n.queue with
    | [] => none
    | (e, _) :: queue => some ({ n with queue := queue }.handle blake3 e wall)
  | .call c => if quietCall c then some { n with app := (n.app.call blake3 c).1 } else none

variable {blake3 : ByteArray → ContentHash} {n n' : Node} {a : Act} {l : List Act} {b p : PeerId}
  {e : Event} {c : Cause} {wall : WallClock} {app : App} {sh : Shared} {policy : FirewallPolicy}

/-- A new pairing concerns whoever is on the screen, as does the timeout that unpairs. -/
def Cause.Concerns (b : PeerId) : Cause → Prop
  | .handshake _ | .ghost => True
  | .message p | .link p => p = b
  | .expiry ps => b ∈ ps
  | .other => False

/-- What may touch the comparison with `b`: a new pairing, a global unpair and what is about
`b`. A peer's announcement is a new pairing where no comparison is live. -/
def Act.MayTouch (n : Node) (b : PeerId) : Act → Prop
  | .accept p _ | .reject p _ _ _ | .revoke p _ _ _ => p = b
  | .unpair _ _ => True
  | .next _ => ∃ e c, n.queue.head? = some (e, c) ∧
      (c.Concerns b ∨ (∃ p, e = .sasPairingStarted p) ∧ n.app.state.sasPhase ∉ livePhases)
  | _ => False

/-- With `b` on the screen, the step leaves the comparison alone unless it may touch it. -/
def Scoped (blake3 : ByteArray → ContentHash) (n : Node) (a : Act) : Prop :=
  ∀ b n', n.app.state.sasPeer = some b → step blake3 n a = some n' →
    n'.app.sas = n.app.sas ∨ a.MayTouch n b

/-- The next event is no reset for other pairings, and no verify screen that another peer
announces into a live comparison. -/
def Unmixed (n : Node) : Act → Prop
  | .next _ => ∀ b e c, n.app.state.sasPeer = some b → n.queue.head? = some (e, c) →
      (e = .sasReset → c.Concerns b) ∧
      ∀ p, e = .sasPairingStarted p → c.Concerns b ∨ n.app.state.sasPhase ∉ livePhases
  | _ => True

/-- Who sends what. -/
def Tagged : Event → Cause → Prop
  | .sasPairingStarted p, c => c = .handshake p ∨ c = .message p
  | .sasPeerConfirmed p, c | .sasPeerRejected p, c => c = .message p
  | .peerLost p, c => c = .message p ∨ c = .link p
  | .ghostTimeout, c => c = .ghost
  | .sasReset, _ => True
  | e, _ => quietEvent e

def Node.Tagged (n : Node) : Prop := ∀ x ∈ n.queue, Verify.Tagged x.1 x.2

namespace Node

@[simp] theorem send_app : (n.send e c).app = n.app := by
  rw [send]
  split <;> rfl

@[simp] theorem sendIf_app {b : Bool} : (n.sendIf b e c).app = n.app := by
  cases b
  · rfl
  · exact send_app

@[simp] theorem forget_app : (n.forget p).app = n.app := rfl

@[simp] theorem undefer_app : (n.undefer p).app = n.app := rfl

@[simp] theorem message_app {m : Message} : (n.message p m).app = n.app := by
  cases m with
  | bye => simp [message]
  | revoke => simp [message]
  | hello => simp [message]
  | pairConfirm accept => cases accept <;> simp [message]
  | pairVerifyStarted =>
    rw [message]
    repeat' split
    all_goals simp

@[simp] theorem reap_app {saved : Bool} : (n.reap saved).app = n.app := by
  simp only [reap]
  split <;> simp

@[simp] theorem handle_queue : (n.handle blake3 e wall).queue = n.queue := rfl

theorem handle_sas : (n.handle blake3 e wall).app.sas = n.app.sasAfter e := sas_handle

theorem Tagged.same (h : n.Tagged) (hq : n'.queue = n.queue) : n'.Tagged := by
  rw [Node.Tagged, hq]
  exact h

theorem Tagged.send (h : n.Tagged) (ht : Verify.Tagged e c) : (n.send e c).Tagged := by
  rw [Node.send]
  split
  case isFalse => exact h
  case isTrue =>
    intro x hx
    rcases List.mem_append.mp hx with hx | hx
    · exact h x hx
    · obtain rfl := List.mem_singleton.mp hx
      exact ht

theorem Tagged.sendIf {b : Bool} (h : n.Tagged) (ht : Verify.Tagged e c) :
    (n.sendIf b e c).Tagged := by
  cases b
  · exact h
  · exact h.send ht

theorem Tagged.message {m : Message} (h : n.Tagged) : (n.message p m).Tagged := by
  have hlost : Verify.Tagged (.peerLost p) (.message p) := .inl rfl
  have hconfirmed : Verify.Tagged (.sasPeerConfirmed p) (.message p) := rfl
  have hrejected : Verify.Tagged (.sasPeerRejected p) (.message p) := rfl
  cases m with
  | bye =>
    apply Tagged.sendIf _ hlost
    exact h
  | revoke =>
    apply Tagged.sendIf _ hlost
    apply Tagged.same _ rfl
    exact Tagged.sendIf (n := { n with sh := (n.sh.distrust p).unpend p }) h
      (e := .sasReset) (c := .message p) trivial
  | hello =>
    apply Tagged.sendIf _ hconfirmed
    exact h
  | pairConfirm accept =>
    cases accept with
    | true =>
      apply Tagged.sendIf _ hconfirmed
      exact h
    | false =>
      apply Tagged.sendIf _ hlost
      apply Tagged.sendIf _ hrejected
      exact h
  | pairVerifyStarted =>
    rw [Node.message]
    split
    case h_2 => exact h
    case h_1 =>
      split
      case isTrue => exact h
      case isFalse =>
        split
        case h_2 => exact h
        case h_1 => exact Tagged.send (h.same rfl) (.inr rfl)

theorem tearDown_queue {ends : Bool} : (n.tearDown blake3 p ends wall).queue = n.queue := by
  simp only [tearDown]
  split <;> rfl

theorem accept_queue : (n.accept blake3 p wall).queue = n.queue := by
  simp only [accept]
  repeat' split
  all_goals rfl

theorem Tagged.reap {saved : Bool} (h : n.Tagged) : (n.reap saved).Tagged := by
  simp only [Node.reap]
  split
  · exact h.same rfl
  · exact Tagged.same (h.send (c := .expiry (n.sh.expired.map Prod.fst)) (e := .sasReset) trivial) rfl

end Node

theorem Tagged.of_quiet (h : quietEvent e) : Tagged e c := by
  cases e <;> simp_all [Tagged, quietEvent]

theorem Node.Tagged.step (h : n.Tagged) (hs : step blake3 n a = some n') : n'.Tagged := by
  have hpark {c : Contact} {sh : Option Shared}
      (hs : (sh.map fun sh ↦ { n with sh := sh }.send (.sasPairingStarted c.peer)
        (.handshake c.peer)) = some n') : n'.Tagged := by
    obtain ⟨sh, -, rfl⟩ := Option.map_eq_some_iff.mp hs
    exact Tagged.send (h.same rfl) (.inl rfl)
  cases a with
  | message p m => exact Option.some.inj hs ▸ h.message
  | dialed c victim => exact hpark (Option.ite_none_right_eq_some.mp hs).2
  | joined c victim => exact hpark (Option.ite_none_right_eq_some.mp hs).2
  | accept p wall =>
    obtain ⟨-, hs⟩ := Option.ite_none_right_eq_some.mp hs
    exact Option.some.inj hs ▸ h.same accept_queue
  | reject p saved ends wall =>
    obtain ⟨-, hs⟩ := Option.ite_none_right_eq_some.mp hs
    cases saved
    · exact Option.some.inj hs ▸ h.same rfl
    · exact Option.some.inj hs ▸ h.same tearDown_queue
  | revoke p saved ends wall =>
    cases saved
    · exact Option.some.inj hs ▸ h
    · exact Option.some.inj hs ▸ h.same tearDown_queue
  | unpair saved =>
    cases saved
    · exact Option.some.inj hs ▸ h
    · exact Option.some.inj hs ▸ h.same rfl
  | reap => exact Option.some.inj hs ▸ h.reap
  | lost p => exact Option.some.inj hs ▸ h.send (.inr rfl)
  | ghostTimeout => exact Option.some.inj hs ▸ h.send rfl
  | send e =>
    obtain ⟨he, hs⟩ := Option.ite_none_right_eq_some.mp hs
    exact Option.some.inj hs ▸ h.send (.of_quiet he)
  | next wall =>
    simp only [Verify.step] at hs
    split at hs
    case h_1 => simp at hs
    case h_2 e c queue hq =>
      obtain rfl := Option.some.inj hs
      intro x hx
      exact h x (by rw [hq]; exact List.mem_cons_of_mem _ hx)
  | call c =>
    obtain ⟨-, hs⟩ := Option.ite_none_right_eq_some.mp hs
    exact Option.some.inj hs ▸ h.same rfl
  | pair | pairShow | pairPending | elapse => exact Option.some.inj hs ▸ h.same rfl

theorem Node.tagged (h : Run (step blake3) Always (.boot sh policy) l n) : n.Tagged := by
  apply h.invariant
  · simp [Node.Tagged, boot]
  · intro n a n' hn _ hs
    exact hn.step hs

theorem sasAfter_quiet (h : quietEvent e) : app.sasAfter e = app.sas := by
  cases e <;> simp_all [sasAfter, quietEvent]

/-- An event about another peer passes the comparison by. -/
theorem sasAfter_tagged (ht : Tagged e c) (hb : app.state.sasPeer = some b) (hc : ¬ c.Concerns b)
    (hreset : e ≠ .sasReset) (hstart : ∀ p, e ≠ .sasPairingStarted p) :
    app.sasAfter e = app.sas := by
  have hne {p : PeerId} (hp : p ≠ b) : app.state.sasPeer ≠ some p := by
    rw [hb]
    exact fun h ↦ hp (Option.some.inj h).symm
  cases e with
  | sasReset => exact absurd rfl hreset
  | sasPairingStarted p => exact absurd rfl (hstart p)
  | sasPeerConfirmed p =>
    obtain rfl : c = .message p := ht
    exact sasAfter_of_ne (hne hc) (.inr (.inl rfl))
  | sasPeerRejected p =>
    obtain rfl : c = .message p := ht
    exact sasAfter_of_ne (hne hc) (.inr (.inr rfl))
  | peerLost p =>
    have hp : p ≠ b := by
      rcases ht with rfl | rfl <;> exact hc
    exact if_neg fun h ↦ hne hp h.1
  | ghostTimeout =>
    obtain rfl : c = .ghost := ht
    exact absurd trivial hc
  | _ => exact sasAfter_quiet ht

/-- A peer other than the one on the screen is torn down. -/
theorem Node.tearDown_sas {ends : Bool} (hb : n.app.state.sasPeer = some b) (hp : p ≠ b) :
    (n.tearDown blake3 p ends wall).app.sas = n.app.sas := by
  have hrevoked : ((n.forget p).handle blake3 (.peerRevoked p) wall).app.sas = n.app.sas :=
    handle_sas
  simp only [tearDown]
  split
  case isFalse => exact hrevoked
  case isTrue =>
    rw [handle_sas, sasAfter, if_neg, hrevoked]
    rintro ⟨h, -⟩
    have h' := congrArg Prod.snd hrevoked
    exact hp (Option.some.inj (h.symm.trans (h'.trans hb)))

theorem Node.accept_sas (hb : n.app.state.sasPeer = some b) (hp : p ≠ b) :
    (n.accept blake3 p wall).app.sas = n.app.sas := by
  have hne : n.app.state.sasPeer ≠ some p := by
    rw [hb]
    exact fun h ↦ hp (Option.some.inj h).symm
  simp only [accept]
  split
  case h_1 => exact handle_sas.trans (sasAfter_of_ne hne (.inl rfl))
  case h_3 => exact handle_sas.trans (sasAfter_of_ne hne (.inl rfl))
  case h_2 =>
    have hpeer : (({ n with sh := n.sh.unpend p } : Node).handle blake3 (.sasPeerConfirmed p)
        wall).app.sas = n.app.sas := handle_sas.trans (sasAfter_of_ne hne (.inr (.inl rfl)))
    rw [handle_sas, sasAfter_of_ne _ (.inl rfl), hpeer]
    exact fun h ↦ hne ((congrArg Prod.snd hpeer).symm.trans h)

theorem next_eq {queue : List (Event × Cause)} (hq : n.queue = (e, c) :: queue) :
    step blake3 n (.next wall) = some ({ n with queue := queue }.handle blake3 e wall) := by
  simp [step, hq]

theorem Unmixed.of_scoped (hn : n.Tagged) (h : Scoped blake3 n a) : Unmixed n a := by
  cases a with
  | next wall =>
    intro b e c hb hq
    obtain ⟨queue, hq'⟩ := List.head?_eq_some_iff.mp hq
    have hstep := h b _ hb (next_eq hq')
    rw [Node.handle_sas] at hstep
    constructor
    · rintro rfl
      rcases hstep with hsas | ⟨e', c', hq'', htouch⟩
      · have hnone : none = some b := (congrArg Prod.snd hsas).trans hb
        cases hnone
      · obtain ⟨rfl, rfl⟩ := Prod.mk.inj (Option.some.inj (hq.symm.trans hq''))
        rcases htouch with hc | ⟨⟨p, hp⟩, -⟩
        · exact hc
        · cases hp
    · rintro p rfl
      rcases hstep with hsas | ⟨e', c', hq'', htouch⟩
      · -- the comparison that is shown already, so it is with `b`
        have hpeer : some p = some b := (congrArg Prod.snd hsas).trans hb
        have ht : Tagged (.sasPairingStarted p) c := hn _ (by rw [hq']; exact List.mem_cons_self)
        left
        rcases ht with rfl | rfl
        · trivial
        · exact Option.some.inj hpeer
      · obtain ⟨rfl, rfl⟩ := Prod.mk.inj (Option.some.inj (hq.symm.trans hq''))
        exact htouch.imp_right And.right
  | _ => trivial

theorem Scoped.of_unmixed (hn : n.Tagged) (h : Unmixed n a) : Scoped blake3 n a := by
  intro b n' hb hs
  cases a with
  | next wall =>
    simp only [step] at hs
    split at hs
    case h_1 => simp at hs
    case h_2 e c queue hq =>
      obtain rfl := Option.some.inj hs
      have ht : Tagged e c := hn (e, c) (by simp [hq])
      have hhead : n.queue.head? = some (e, c) := by rw [hq]; rfl
      obtain ⟨hreset, hstart⟩ := h b e c hb hhead
      by_cases hc : c.Concerns b
      · exact .inr ⟨e, c, hhead, .inl hc⟩
      by_cases he : ∃ p, e = .sasPairingStarted p
      · obtain ⟨p, hp⟩ := he
        exact .inr ⟨e, c, hhead, .inr ⟨⟨p, hp⟩, (hstart p hp).resolve_left hc⟩⟩
      · exact .inl (Node.handle_sas.trans
          (sasAfter_tagged ht hb hc (fun he ↦ hc (hreset he)) fun p hp ↦ he ⟨p, hp⟩))
  | accept p wall =>
    obtain ⟨-, hs⟩ := Option.ite_none_right_eq_some.mp hs
    obtain rfl := Option.some.inj hs
    by_cases hp : p = b
    · exact .inr hp
    · exact .inl (Node.accept_sas hb hp)
  | reject p saved ends wall =>
    obtain ⟨-, hs⟩ := Option.ite_none_right_eq_some.mp hs
    by_cases hp : p = b
    · exact .inr hp
    cases saved
    · exact .inl (Option.some.inj hs ▸ rfl)
    · exact .inl (Option.some.inj hs ▸ Node.tearDown_sas hb hp)
  | revoke p saved ends wall =>
    by_cases hp : p = b
    · exact .inr hp
    cases saved
    · exact .inl (Option.some.inj hs ▸ rfl)
    · exact .inl (Option.some.inj hs ▸ Node.tearDown_sas hb hp)
  | unpair => exact .inr trivial
  | message p m => exact .inl (Option.some.inj hs ▸ congrArg App.sas Node.message_app)
  | dialed c victim | joined c victim =>
    obtain ⟨sh, -, rfl⟩ := Option.map_eq_some_iff.mp (Option.ite_none_right_eq_some.mp hs).2
    exact .inl (congrArg App.sas Node.send_app)
  | reap => exact .inl (Option.some.inj hs ▸ congrArg App.sas Node.reap_app)
  | lost | ghostTimeout => exact .inl (Option.some.inj hs ▸ congrArg App.sas Node.send_app)
  | send e =>
    obtain ⟨-, hs⟩ := Option.ite_none_right_eq_some.mp hs
    exact .inl (Option.some.inj hs ▸ congrArg App.sas Node.send_app)
  | call c =>
    obtain ⟨hc, hs⟩ := Option.ite_none_right_eq_some.mp hs
    obtain rfl := Option.some.inj hs
    left
    by_cases he : ∃ e wall, c = .handle e wall
    · obtain ⟨e, wall, rfl⟩ := he
      exact sas_handle.trans (sasAfter_quiet hc)
    · exact sas_call fun e wall h ↦ he ⟨e, wall, h⟩
  | pair | pairShow | pairPending | elapse => exact .inl (Option.some.inj hs ▸ rfl)

/-- In a run, a comparison is left to its own pairing exactly as long as the main loop handles
no reset for other pairings and no other peer's announcement in the midst of it. -/
theorem scoped_iff (h : Run (step blake3) Always (.boot sh policy) l n) :
    (∀ l' a n', l' ++ [a] <+: l → Run (step blake3) Always (.boot sh policy) l' n' →
      Scoped blake3 n' a) ↔ Run (step blake3) Unmixed (.boot sh policy) l n := by
  rw [run_iff_forall_steps]
  constructor
  · intro hscoped
    refine ⟨h, fun l' a n' hl hr ↦ ?_⟩
    exact Unmixed.of_scoped (Node.tagged hr) (hscoped l' a n' hl hr)
  · rintro ⟨-, hok⟩ l' a n' hl hr
    exact .of_unmixed (Node.tagged hr) (hok l' a n' hl hr)

/-- Two devices join under one pairing window, and the second is on the screen. -/
def joinTwice : List Act :=
  [.pairShow, .joined (plainContact 1) 0, .next noon, .joined (plainContact 2) 0, .next noon]

/-- Both sides confirm the second. -/
def confirmSecond : List Act :=
  joinTwice ++ [.message 2 (.hello true), .accept 2 noon,
    .message 2 (.pairConfirm true ("local_confirmed", some 2) false), .next noon]

theorem confirmSecond_runs :
    (confirmSecond.foldlM (step fun _ ↦ 0) (.boot System.init.sh {})).isSome := by
  decide +kernel

theorem scoped_iff_confirmSecond :
    ∃ n, Run (step fun _ ↦ 0) Always (.boot System.init.sh {}) confirmSecond n ∧
      n.app.sas = ("confirmed", some 2) ∧
      ((∀ l' a n', l' ++ [a] <+: confirmSecond →
        Run (step fun _ ↦ 0) Always (.boot System.init.sh {}) l' n' → Scoped (fun _ ↦ 0) n' a) ↔
        Run (step fun _ ↦ 0) Unmixed (.boot System.init.sh {}) confirmSecond n) :=
  ⟨_, run_of_isSome confirmSecond_runs, by decide +kernel,
    scoped_iff (run_of_isSome confirmSecond_runs)⟩

/-- The first device revokes the pairing while the second is being compared. -/
def firstRevokes : List Act := joinTwice ++ [.message 1 (.revoke false)]

theorem firstRevokes_runs :
    (firstRevokes.foldlM (step fun _ ↦ 0) (.boot System.init.sh {})).isSome := by
  decide +kernel

/-- The reset for the first closes the verify screen of the second. -/
theorem firstRevokes_closes_second :
    ∃ n n', Run (step fun _ ↦ 0) Always (.boot System.init.sh {}) firstRevokes n ∧
      n.app.sas = ("showing", some 2) ∧ n.queue.map Prod.snd = [.message 1] ∧
      step (fun _ ↦ 0) n (.next noon) = some n' ∧ n'.app.sas = ("idle", none) ∧
      ¬ Scoped (fun _ ↦ 0) n (.next noon) := by
  have hrun := run_of_isSome firstRevokes_runs
  have hsas : ((firstRevokes.foldlM (step fun _ ↦ 0) (.boot System.init.sh {})).get
      firstRevokes_runs).app.sas = ("showing", some 2) := by decide +kernel
  have hqueue : ((firstRevokes.foldlM (step fun _ ↦ 0) (.boot System.init.sh {})).get
      firstRevokes_runs).queue.map Prod.snd = [.message 1] := by decide +kernel
  have hnext : ((step (fun _ ↦ 0) ((firstRevokes.foldlM (step fun _ ↦ 0)
      (.boot System.init.sh {})).get firstRevokes_runs) (.next noon)).map (·.app.sas)) =
        some ("idle", none) := by decide +kernel
  generalize (firstRevokes.foldlM (step fun _ ↦ 0) (.boot System.init.sh {})).get
    firstRevokes_runs = n at hrun hsas hqueue hnext
  obtain ⟨n', hs, hidle⟩ := Option.map_eq_some_iff.mp hnext
  refine ⟨n, n', hrun, hsas, hqueue, hs, hidle, fun h ↦ ?_⟩
  rcases h 2 n' (congrArg Prod.snd hsas) hs with hsame | ⟨e, c, hq, hc⟩
  · rw [hidle, hsas] at hsame
    revert hsame
    decide
  · have hphase : n.app.state.sasPhase = "showing" := congrArg Prod.fst hsas
    obtain ⟨queue, hq⟩ := List.head?_eq_some_iff.mp hq
    obtain ⟨rfl, -⟩ := List.cons.inj ((congrArg (List.map Prod.snd) hq).symm.trans hqueue)
    rcases hc with hc | ⟨-, hlive⟩
    · exact absurd hc (show (1 : PeerId) ≠ 2 by decide)
    · rw [hphase] at hlive
      revert hlive
      decide

end FluxSync.Verify
