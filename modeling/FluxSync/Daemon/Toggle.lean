import FluxSync.Transport.Links

namespace FluxSync.Toggle

open Std Runs Transport

variable {S : Type}

/-- A handshake in flight, with the session it would install. -/
inductive Task (S : Type)
  /-- `run_initiator`, waiting for msg2. -/
  | initiator (p : PeerId) (session : S) (addr : SocketAddr)
  /-- `run_rekey_initiator`, waiting for msg2. -/
  | rekey (p : PeerId) (session : S) (addr : SocketAddr) (expectedGeneration : UInt64)
  | responder (p : PeerId) (session : S) (addr : SocketAddr)
  /-- `run_responder` with the generation it has read, if the peer has a slot. -/
  | responding (p : PeerId) (session : S) (addr : SocketAddr) (expectedGeneration : Option UInt64)
  /-- The session is installed, `set_peer_info` is to come. -/
  | installed (p : PeerId) (addr : SocketAddr)
  deriving DecidableEq

/-- The call the next section of the handshake makes. -/
def Task.call : Task S → Option (Call S)
  | .initiator p session _ | .responding p session _ none => some (.tryInstallSession p session)
  | .rekey p session _ g | .responding p session _ (some g) =>
    some (.installSessionIfGenerationFor p session g)
  | .responder _ _ _ => none
  | .installed p addr => some (.setPeerInfo p addr)

/-- How far `CmdOp::Toggle { on: false }` has come. -/
inductive Progress
  | rest
  /-- The event is handled, its `CloseSession` and `EmitState` are to come. -/
  | handled
  | closed
  | published
  /-- `tear_down_links` with the peers it still has to drop. -/
  | tearing (ids : List PeerId)
  deriving DecidableEq

structure Node (S : Type) where
  transport : Transport S
  /-- The published state, which a handshake asks before it starts. -/
  on : Bool := false
  toggle : Progress := .rest
  tasks : List (Task S) := []

inductive Act (S : Type)
  | start (task : Task S)
  /-- The next section of a handshake. -/
  | advance (i : ℕ) (now : UInt64)
  /-- No msg2 from this address in time: the initiator dials the peer's next one. -/
  | nextHint (i : ℕ) (session : S) (addr : SocketAddr)
  /-- A handshake ends without an install: no msg2, a peer no longer trusted, a replay. -/
  | giveUp (i : ℕ)
  | toggleOff
  /-- `CloseSession` leaves the primary slot alone where it is another peer's. -/
  | closeSession (drops : Bool)
  | publish
  | lookUpLinks
  | dropNext
  /-- The user's `Toggle { on: true }`, or `ensure_online` of a pair command. -/
  | switchOn
  /-- A call outside the handshakes: a lost link, a revoke, a failover, the seed of an address. -/
  | other (now : UInt64) (c : Call S)

namespace Node

def new (now : UInt64) : Node S where
  transport := .new now

/-- A handshake starts while sync is on. The rekey of a link asks for the
generation of its slot instead. -/
def starts (s : Node S) : Task S → Bool
  | .initiator _ _ _ | .responder _ _ _ => s.on
  | .rekey p _ _ g =>
    (s.transport.connFor p).map (fun c ↦ (s.transport.conns c).sessionGeneration) == some g
  | _ => false

/-- What an install leaves of its handshake. -/
def landed (r : Transport S × Bool) (p : PeerId) (addr : SocketAddr) :
    Transport S × Option (Task S) :=
  (r.1, if r.2 then some (.installed p addr) else none)

/-- One section of a handshake: the transport after it, and what is left of the task. -/
def handshake (t : Transport S) (now : UInt64) : Task S → Transport S × Option (Task S)
  | .initiator p session addr => landed (t.tryInstallSession now p session) p addr
  | .rekey p session addr g => landed (t.installSessionIfGenerationFor now p session g) p addr
  | .responder p session addr =>
    (t, some (.responding p session addr
      ((t.connFor p).map fun s ↦ (t.conns s).sessionGeneration)))
  | .responding p session addr (some g) =>
    landed (t.installSessionIfGenerationFor now p session g) p addr
  | .responding p session addr none => landed (t.tryInstallSession now p session) p addr
  | .installed p addr => (t.setPeerInfo now p addr, none)

def step (s : Node S) : Act S → Option (Node S)
  | .start task => if s.starts task then some { s with tasks := s.tasks ++ [task] } else none
  | .advance i now =>
    s.tasks[i]?.map fun task ↦
      let r := handshake s.transport now task
      { s with
        transport := r.1
        tasks := match r.2 with
          | some task => s.tasks.set i task
          | none => s.tasks.eraseIdx i }
  | .nextHint i session addr =>
    match s.tasks[i]? with
    | some (.initiator p _ _) => some { s with tasks := s.tasks.set i (.initiator p session addr) }
    | _ => none
  | .giveUp i => some { s with tasks := s.tasks.eraseIdx i }
  | .toggleOff => if s.toggle = .rest then some { s with toggle := .handled } else none
  | .closeSession drops =>
    if s.toggle = .handled then
      some { s with
        transport := if drops then s.transport.dropSession else s.transport
        toggle := .closed }
    else none
  | .publish => if s.toggle = .closed then some { s with on := false, toggle := .published } else none
  | .lookUpLinks =>
    if s.toggle = .published then some { s with toggle := .tearing s.transport.linkedPeerIds }
    else none
  | .dropNext =>
    match s.toggle with
    | .tearing (p :: ids) =>
      some { s with transport := s.transport.dropSessionFor p, toggle := .tearing ids }
    | .tearing [] => some { s with toggle := .rest }
    | _ => none
  | .switchOn => if s.toggle = .rest then some { s with on := true } else none
  | .other now c =>
    if c.installs.isSome then none else some { s with transport := s.transport.call now c }

/-- Sync is off and the teardown over, and the handshakes in flight have ended. -/
def Settled (s : Node S) : Prop := s.on = false ∧ s.toggle = .rest ∧ s.tasks = []

instance [DecidableEq S] (s : Node S) : Decidable s.Settled :=
  inferInstanceAs (Decidable (_ ∧ _ ∧ _))

/-- A link to `p` may be up: sync is on, or the teardown has still to come to `p`. -/
def mayLink (s : Node S) (p : PeerId) : Bool :=
  match s.toggle with
  | .rest => s.on
  | .tearing ids => decide (p ∈ ids)
  | _ => true

/-- The peer the teardown drops next, with those after it. -/
def nextDrop (s : Node S) : Option (PeerId × List PeerId) :=
  match s.toggle with
  | .tearing (p :: ids) => some (p, ids)
  | _ => none

/-- No handshake fills the slot of a peer the teardown has passed over, and a peer in two
slots is dropped as often. -/
def InTime (s : Node S) : Act S → Prop
  | .advance i now => ∀ task ∈ s.tasks[i]?, ∀ c ∈ task.call, ∀ p ∈ c.installs,
      s.transport.Fills now c → s.mayLink p
  | .dropNext => ∀ x ∈ s.nextDrop, s.transport.Shadowed x.1 → x.1 ∈ x.2
  | _ => True

variable {s u : Node S} {a : Act S} {l : List (Act S)} {t : Transport S} {p q : PeerId}
  {now : UInt64} {task : Task S}

theorem handshake_eq : (handshake t now task).1 = (task.call.map (t.call now)).getD t := by
  cases task with
  | responding p session addr g => cases g <;> rfl
  | _ => rfl

theorem identified_handshake (ht : t.Identified) : (handshake t now task).1.Identified := by
  rw [handshake_eq]
  cases task.call with
  | none => exact ht
  | some c => exact identified_call ht (now, c)

theorem linked_handshake (ht : t.Identified) (h : q ∈ (handshake t now task).1.linkedPeerIds) :
    q ∈ t.linkedPeerIds ∨ ∃ c ∈ task.call, c.installs = some q ∧ t.Fills now c := by
  rw [handshake_eq] at h
  cases hc : task.call with
  | none =>
    rw [hc] at h
    exact .inl h
  | some c =>
    rw [hc] at h
    exact (linked_call ht c h).imp_right fun hq ↦ ⟨c, rfl, hq⟩

/-- Who is linked may be. -/
structure Torn (s : Node S) : Prop where
  identified : s.transport.Identified
  linked : ∀ p ∈ s.transport.linkedPeerIds, s.mayLink p

theorem Torn.step (hs : s.Torn) (hok : s.InTime a) (h : s.step a = some u) : u.Torn := by
  cases a with
  | start task =>
    obtain ⟨-, h⟩ := Option.ite_none_right_eq_some.mp h
    cases h
    exact ⟨hs.identified, hs.linked⟩
  | advance i now =>
    obtain ⟨task, htask, rfl⟩ := Option.map_eq_some_iff.mp h
    refine ⟨identified_handshake hs.identified, fun p hp ↦ ?_⟩
    rcases linked_handshake hs.identified hp with hp | ⟨c, hc, hp, hfills⟩
    · exact hs.linked p hp
    · exact hok task htask c hc p hp hfills
  | nextHint i session addr =>
    simp only [Node.step] at h
    split at h
    · cases h
      exact ⟨hs.identified, hs.linked⟩
    · cases h
  | giveUp i =>
    cases h
    exact ⟨hs.identified, hs.linked⟩
  | toggleOff =>
    obtain ⟨-, h⟩ := Option.ite_none_right_eq_some.mp h
    cases h
    exact ⟨hs.identified, fun _ _ ↦ rfl⟩
  | closeSession drops =>
    obtain ⟨-, h⟩ := Option.ite_none_right_eq_some.mp h
    cases h
    refine ⟨?_, fun _ _ ↦ rfl⟩
    cases drops with
    | true => exact identified_call hs.identified (0, .dropSession)
    | false => exact hs.identified
  | publish =>
    obtain ⟨-, h⟩ := Option.ite_none_right_eq_some.mp h
    cases h
    exact ⟨hs.identified, fun _ _ ↦ rfl⟩
  | lookUpLinks =>
    obtain ⟨-, h⟩ := Option.ite_none_right_eq_some.mp h
    cases h
    exact ⟨hs.identified, fun _ hp ↦ decide_eq_true hp⟩
  | dropNext =>
    have hlinked := hs.linked
    simp only [Node.step] at h
    split at h
    · rename_i p ids htear
      cases h
      have hdrop : s.nextDrop = some (p, ids) := by rw [nextDrop, htear]
      simp only [mayLink, htear, decide_eq_true_eq] at hlinked
      refine ⟨identified_dropSessionFor hs.identified p, fun q hq ↦ ?_⟩
      by_cases hqp : q = p
      · subst hqp
        exact decide_eq_true (hok _ hdrop (shadowed_of_linked hq))
      · exact decide_eq_true (List.mem_of_ne_of_mem hqp (hlinked q (linked_dropSessionFor hq)))
    · rename_i htear
      cases h
      simp only [mayLink, htear, decide_eq_true_eq] at hlinked
      exact ⟨hs.identified, fun p hp ↦ absurd (hlinked p hp) List.not_mem_nil⟩
    · cases h
  | switchOn =>
    obtain ⟨hrest, h⟩ := Option.ite_none_right_eq_some.mp h
    cases h
    refine ⟨hs.identified, fun p hp ↦ ?_⟩
    simp [mayLink, hrest]
  | other now c =>
    obtain ⟨hc, h⟩ := Option.ite_none_left_eq_some.mp h
    cases h
    refine ⟨identified_call hs.identified (now, c), fun p hp ↦ ?_⟩
    rcases linked_call hs.identified c hp with hp | ⟨hp, -⟩
    · exact hs.linked p hp
    · exact absurd (by rw [hp]; rfl) hc

theorem torn_new (now : UInt64) : (new now : Node S).Torn := by
  refine ⟨by simp [new, Identified, Transport.new, live, PeerConn.new], fun p hp ↦ ?_⟩
  rcases mem_linkedPeerIds.mp hp with ⟨hlive, -⟩ | ⟨n, hn, -⟩
  · simp [new, Transport.new, live, PeerConn.new] at hlive
  · simp [new, Transport.new] at hn

/-- With sync off, the teardown over and no handshake left in flight, nobody is linked: in
every run whose handshakes install in time. -/
theorem off_unlinked (now : UInt64) (hr : Run step InTime (new now) l s) (hs : s.Settled) :
    s.transport.linkedPeerIds = [] := by
  have htorn : s.Torn := hr.invariant (torn_new now) fun _ _ _ ht hok hu ↦ ht.step hok hu
  refine List.eq_nil_iff_forall_not_mem.mpr fun p hp ↦ ?_
  have hmay := htorn.linked p hp
  simp [mayLink, hs.1, hs.2.1] at hmay

/-- Handshakes go on while sync is on, and the teardown finds nobody left to drop. -/
def calm (s : Node S) : Act S → Bool
  | .advance _ _ => s.on && s.toggle = .rest
  | .dropNext => s.nextDrop.isNone
  | _ => true

theorem inTime_of_calm (h : s.calm a) : s.InTime a := by
  cases a with
  | advance i now =>
    obtain ⟨hon, hrest⟩ := by simpa [calm] using h
    intro task _ c _ p _ _
    rw [mayLink, hrest]
    exact hon
  | dropNext =>
    intro x hx
    rw [Option.isNone_iff_eq_none.mp h] at hx
    cases hx
  | _ => trivial

/-- The handshake is over when the toggle goes off. -/
def linkedInTime : List (Act Unit) :=
  [.switchOn, .start (.initiator 1 () (.v4 1 9)), .advance 0 0, .advance 0 0, .toggleOff,
    .closeSession true, .publish, .lookUpLinks, .dropNext]

theorem linkedInTime_calm :
    (linkedInTime.foldlM (fun s a ↦ if calm s a then step s a else none) (new 0)).isSome := by
  decide +kernel

theorem off_unlinked_linkedInTime :
    ∃ s, Run step InTime (new 0) linkedInTime s ∧ s.Settled ∧ s.transport.linkedPeerIds = [] := by
  have hr : Run step InTime (new 0) linkedInTime _ :=
    (run_of_checked linkedInTime_calm).mono fun _ _ h ↦ inTime_of_calm h
  have hs : ((linkedInTime.foldlM (fun s a ↦ if calm s a then step s a else none) (new 0)).get
      linkedInTime_calm).Settled := by
    decide +kernel
  exact ⟨_, hr, hs, off_unlinked 0 hr hs⟩

/-- The initiator waits for msg2 while the toggle tears the links down. -/
def lateReply : List (Act Unit) :=
  [.switchOn, .start (.initiator 1 () (.v4 1 9)), .toggleOff, .closeSession true, .publish, .lookUpLinks,
    .dropNext, .advance 0 0, .advance 0 0]

theorem lateReply_settled : ∃ s, Run step Always (new 0) lateReply s ∧ s.Settled ∧
    s.transport.linkedPeerIds = [1] :=
  ⟨_, run_of_isSome (by decide +kernel), by decide +kernel, by decide +kernel⟩

/-- A handshake that began before the toggle links its peer while sync is off. -/
theorem late_install_links : ¬ ∀ l s, Run step Always (new 0 : Node Unit) l s → s.Settled →
    s.transport.linkedPeerIds = [] := by
  intro hall
  obtain ⟨s, hr, hs, hlinked⟩ := lateReply_settled
  have hnone := hall _ s hr hs
  rw [hlinked] at hnone
  cases hnone

end Node

end FluxSync.Toggle
