import FluxSync.Core.Dedup
import FluxSync.Foundation.OrderedMap
import FluxSync.Foundation.Runs

namespace FluxSync.Daemon

open Std Runs

inductive DisconnectReason
  | heartbeatTimeout
  | networkChanged
  | decryptFailure
  | peerSentBye
  | ipcShutdown
  | unknownTransportError
  deriving DecidableEq

/-- The counts are `u64` but for the consecutive misses, a `u8`, and the round trips, `u32`. -/
structure ConnectionMetrics where
  handshakesTotal : ℕ := 0
  handshakesFailed : ℕ := 0
  heartbeatsSent : ℕ := 0
  heartbeatsReceived : ℕ := 0
  heartbeatsMissedConsecutive : ℕ := 0
  lastRttMs : ℕ := 0
  rttP99Ms : ℕ := 0
  networkChanges : ℕ := 0
  reconnects : ℕ := 0
  decryptFailures : ℕ := 0
  dedupDrops : ℕ := 0
  lastDisconnectReason : Option DisconnectReason := none
  uptimeSessionSecs : ℕ := 0
  itemsSent : ℕ := 0
  itemsReceived : ℕ := 0
  itemsResynced : ℕ := 0
  resyncAppliesSuppressed : ℕ := 0
  rekeys : ℕ := 0

/-- The instants are in milliseconds. -/
structure MetricsTracker where
  metrics : ConnectionMetrics := {}
  sessionStart : Option ℕ := none
  lastHeartbeatSent : Option ℕ := none

def U8_MAX : ℕ := 2 ^ 8 - 1

def U32_MAX : ℕ := 2 ^ 32 - 1

def U64_MAX : ℕ := 2 ^ 64 - 1

def I32_MAX : ℕ := 2 ^ 31 - 1

/-- The result of an operation on a type with the given maximum, unless it overflows. -/
def checked (max n : ℕ) : Option ℕ := if n ≤ max then some n else none

namespace MetricsTracker

variable (m : MetricsTracker)

/-- One of the `u64` counts goes up by one. -/
def bump (get : ConnectionMetrics → ℕ) (set : ConnectionMetrics → ℕ → ConnectionMetrics) :
    Option MetricsTracker :=
  (checked U64_MAX (get m.metrics + 1)).map fun n ↦ { m with metrics := set m.metrics n }

def onHandshakeStart : Option MetricsTracker :=
  m.bump (·.handshakesTotal) fun c n ↦ { c with handshakesTotal := n }

def onRekey : Option MetricsTracker := m.bump (·.rekeys) fun c n ↦ { c with rekeys := n }

def onHandshakeFail : Option MetricsTracker :=
  m.bump (·.handshakesFailed) fun c n ↦ { c with handshakesFailed := n }

def onNetworkChange : Option MetricsTracker :=
  m.bump (·.networkChanges) fun c n ↦ { c with networkChanges := n }

def onDecryptFailure : Option MetricsTracker :=
  m.bump (·.decryptFailures) fun c n ↦ { c with decryptFailures := n }

def onDedupDrop : Option MetricsTracker :=
  m.bump (·.dedupDrops) fun c n ↦ { c with dedupDrops := n }

def onItemSent : Option MetricsTracker := m.bump (·.itemsSent) fun c n ↦ { c with itemsSent := n }

def onItemReceived : Option MetricsTracker :=
  m.bump (·.itemsReceived) fun c n ↦ { c with itemsReceived := n }

def onItemResynced : Option MetricsTracker :=
  m.bump (·.itemsResynced) fun c n ↦ { c with itemsResynced := n }

def onResyncApplySuppressed : Option MetricsTracker :=
  m.bump (·.resyncAppliesSuppressed) fun c n ↦ { c with resyncAppliesSuppressed := n }

def onLinkUp (now : ℕ) : Option MetricsTracker :=
  { m with sessionStart := some now }.bump (·.reconnects) fun c n ↦
    { c with reconnects := n, heartbeatsMissedConsecutive := 0 }

def onHeartbeatSent (now : ℕ) : Option MetricsTracker :=
  (m.bump (·.heartbeatsSent) fun c n ↦ { c with heartbeatsSent := n }).map fun m ↦
    { m with lastHeartbeatSent := some now }

def onHeartbeatReceived : Option MetricsTracker :=
  m.bump (·.heartbeatsReceived) fun c n ↦
    { c with heartbeatsReceived := n, heartbeatsMissedConsecutive := 0 }

/-- The first sample is taken as it is, the later ones weigh a tenth. -/
def smoothed (p99 rttMs : ℕ) : Option ℕ :=
  if p99 = 0 then some rttMs
  else
    (checked U32_MAX (p99 * 9)).bind fun scaled ↦ (checked U32_MAX (scaled + rttMs)).map (· / 10)

def rttMs (now sent : ℕ) : ℕ := min (now - sent) U32_MAX

def onAckReceived (now : ℕ) : Option MetricsTracker :=
  match m.lastHeartbeatSent with
  | none => some m
  | some sent =>
    (smoothed m.metrics.rttP99Ms (rttMs now sent)).map fun p99 ↦
      { m with
        lastHeartbeatSent := none
        metrics := { m.metrics with lastRttMs := rttMs now sent, rttP99Ms := p99 } }

def onHeartbeatMissed : Option MetricsTracker :=
  (checked U8_MAX (m.metrics.heartbeatsMissedConsecutive + 1)).map fun n ↦
    { m with metrics := { m.metrics with heartbeatsMissedConsecutive := n } }

def onDisconnect (reason : DisconnectReason) : MetricsTracker :=
  { m with
    sessionStart := none
    metrics := { m.metrics with lastDisconnectReason := some reason, uptimeSessionSecs := 0 } }

def snapshot (now : ℕ) : MetricsTracker :=
  match m.sessionStart with
  | none => m
  | some start => { m with metrics := { m.metrics with uptimeSessionSecs := (now - start) / 1000 } }

end MetricsTracker

/-- The counts of missed beats in `heartbeat_loop`, beside the metrics. -/
structure Beat where
  now : ℕ := 0
  tracker : MetricsTracker := {}
  missedPings : ℕ := 0
  secondaryMissed : ExtTreeMap PeerId ℕ := ∅

namespace Beat

/-- Nothing came for longer than a beat. -/
def silent (now lastRx : UInt64) : Bool := 3000 < saturatingSub now lastRx

inductive Act
  | elapse (ms : ℕ)
  | handshakeStart
  | handshakeFail
  | linkUp
  | rekey
  | networkChange
  | decryptFailure
  | dedupDrop
  | itemSent
  | itemReceived
  | itemResynced
  | resyncApplySuppressed
  | heartbeatReceived
  | ackReceived
  | disconnect (reason : DisconnectReason)
  | snapshot
  /-- A round of `heartbeat_loop` pings the primary peer, looks whether it is silent, and
  does both for the secondaries. The calls of other tasks come in between. -/
  | ping
  | primary (now lastRx : UInt64)
  | secondaries (now : UInt64) (live : List (PeerId × UInt64))

/-- The third miss in a row ends the link and starts the count anew. -/
def primaryRound (s : Beat) (now lastRx : UInt64) : Option Beat :=
  if silent now lastRx then
    (checked I32_MAX (s.missedPings + 1)).bind fun missed ↦
      s.tracker.onHeartbeatMissed.map fun tracker ↦
        if 3 ≤ missed then
          { s with tracker := tracker.onDisconnect .heartbeatTimeout, missedPings := 0 }
        else { s with tracker, missedPings := missed }
  else some { s with missedPings := 0 }

def secondaryRound (now : UInt64) :
    ExtTreeMap PeerId ℕ → List (PeerId × UInt64) → Option (ExtTreeMap PeerId ℕ)
  | missed, [] => some missed
  | missed, (p, lastRx) :: rest =>
    if silent now lastRx then
      (checked U32_MAX (missed.getD p 0 + 1)).bind fun n ↦
        secondaryRound now (if 3 ≤ n then missed.erase p else missed.insert p n) rest
    else secondaryRound now (missed.erase p) rest

def step (s : Beat) (a : Act) : Option Beat :=
  let track := Option.map fun tracker ↦ { s with tracker }
  match a with
  | .elapse ms => some { s with now := s.now + ms }
  | .handshakeStart => track s.tracker.onHandshakeStart
  | .handshakeFail => track s.tracker.onHandshakeFail
  | .linkUp => track (s.tracker.onLinkUp s.now)
  | .rekey => track s.tracker.onRekey
  | .networkChange => track s.tracker.onNetworkChange
  | .decryptFailure => track s.tracker.onDecryptFailure
  | .dedupDrop => track s.tracker.onDedupDrop
  | .itemSent => track s.tracker.onItemSent
  | .itemReceived => track s.tracker.onItemReceived
  | .itemResynced => track s.tracker.onItemResynced
  | .resyncApplySuppressed => track s.tracker.onResyncApplySuppressed
  | .heartbeatReceived => track s.tracker.onHeartbeatReceived
  | .ackReceived => track (s.tracker.onAckReceived s.now)
  | .disconnect reason => some { s with tracker := s.tracker.onDisconnect reason }
  | .snapshot => some { s with tracker := s.tracker.snapshot s.now }
  | .ping => track (s.tracker.onHeartbeatSent s.now)
  | .primary now lastRx => s.primaryRound now lastRx
  | .secondaries now live =>
    (secondaryRound now (s.secondaryMissed.filter fun p _ ↦ live.any (·.1 == p)) live).map
      fun secondaryMissed ↦ { s with secondaryMissed }

/-- The `u64` count that a step raises. -/
def raised : Act → Option (ConnectionMetrics → ℕ)
  | .handshakeStart => some (·.handshakesTotal)
  | .handshakeFail => some (·.handshakesFailed)
  | .linkUp => some (·.reconnects)
  | .rekey => some (·.rekeys)
  | .networkChange => some (·.networkChanges)
  | .decryptFailure => some (·.decryptFailures)
  | .dedupDrop => some (·.dedupDrops)
  | .itemSent => some (·.itemsSent)
  | .itemReceived => some (·.itemsReceived)
  | .itemResynced => some (·.itemsResynced)
  | .resyncApplySuppressed => some (·.resyncAppliesSuppressed)
  | .heartbeatReceived => some (·.heartbeatsReceived)
  | .ping => some (·.heartbeatsSent)
  | _ => none

/-- The silent rounds of the primary peer since a heartbeat came or the link came up. -/
def missesAfter (n : ℕ) : Act → ℕ
  | .linkUp | .heartbeatReceived => 0
  | .primary now lastRx => if silent now lastRx then n + 1 else n
  | _ => n

def misses (l : List Act) : ℕ := l.foldl missesAfter 0

/-- What a step may find: a miss finds fewer than 255 since the last heartbeat, the sample of
an ack is the first or weighs less than what is left of a `u32` beside nine times the
estimate, and the count it raises is below the maximum of a `u64`. -/
def Fits (l : List Act) (s : Beat) (a : Act) : Prop :=
  (∀ get, raised a = some get → get s.tracker.metrics < U64_MAX) ∧
    match a with
    | .primary now lastRx => silent now lastRx → misses l < 255
    | .ackReceived => ∀ sent, s.tracker.lastHeartbeatSent = some sent →
        s.tracker.metrics.rttP99Ms = 0 ∨
          9 * s.tracker.metrics.rttP99Ms + MetricsTracker.rttMs s.now sent < 2 ^ 32
    | _ => True

variable {s u : Beat} {a : Act} {l : List Act} {n max p99 rtt : ℕ} {now lastRx : UInt64}
  {missed missed' : ExtTreeMap PeerId ℕ} {live : List (PeerId × UInt64)} {m : MetricsTracker}

theorem checked_eq_some {k : ℕ} : checked max n = some k ↔ n ≤ max ∧ n = k := by
  simp [checked]

/-- Between rounds no peer has missed three in a row. -/
structure Kept (l : List Act) (s : Beat) : Prop where
  missed : s.tracker.metrics.heartbeatsMissedConsecutive = misses l
  primary : s.missedPings ≤ 2
  secondary : ∀ (p : PeerId) (n : ℕ), s.secondaryMissed[p]? = some n → n ≤ 2

theorem secondaryRound_spec (now : UInt64) (live : List (PeerId × UInt64))
    (h : ∀ (p : PeerId) (n : ℕ), missed[p]? = some n → n ≤ 2) :
    ∃ missed', secondaryRound now missed live = some missed' ∧
      ∀ (p : PeerId) (n : ℕ), missed'[p]? = some n → n ≤ 2 := by
  induction live generalizing missed with
  | nil => exact ⟨missed, rfl, h⟩
  | cons x rest ih =>
    obtain ⟨p, lastRx⟩ := x
    have herase : ∀ (q : PeerId) (n : ℕ), (missed.erase p)[q]? = some n → n ≤ 2 := by
      intro q n hn
      rw [OrderedMap.lookup_erase] at hn
      split at hn
      · cases hn
      · exact h q n hn
    rw [secondaryRound]
    split
    · have hle : missed.getD p 0 ≤ 2 := by
        rw [ExtTreeMap.getD_eq_getD_getElem?]
        cases hp : missed[p]? with
        | none => exact Nat.zero_le 2
        | some n => exact h p n hp
      have hfits : checked U32_MAX (missed.getD p 0 + 1) = some (missed.getD p 0 + 1) :=
        checked_eq_some.mpr ⟨by unfold U32_MAX; omega, rfl⟩
      rw [hfits, Option.bind_some]
      split
      · exact ih herase
      · rename_i hlt
        apply ih
        intro q n hn
        rw [OrderedMap.lookup_insert] at hn
        split at hn
        · obtain rfl := Option.some.inj hn
          omega
        · exact h q n hn
    · exact ih herase

theorem bump_eq_some {get : ConnectionMetrics → ℕ} {m' : MetricsTracker}
    {set : ConnectionMetrics → ℕ → ConnectionMetrics} (h : m.bump get set = some m') :
    m'.metrics = set m.metrics (get m.metrics + 1) := by
  obtain ⟨n, hn, rfl⟩ := Option.map_eq_some_iff.mp h
  obtain ⟨-, rfl⟩ := checked_eq_some.mp hn
  rfl

theorem misses_snoc : misses (l ++ [a]) = missesAfter (misses l) a := by
  rw [misses, List.foldl_append]
  rfl

theorem Kept.primaryRound (hs : Kept l s) (h : s.primaryRound now lastRx = some u) :
    Kept (l ++ [.primary now lastRx]) u := by
  unfold Beat.primaryRound at h
  split at h
  · rename_i hsilent
    obtain ⟨k, hk, h⟩ := Option.bind_eq_some_iff.mp h
    obtain ⟨m, hm, rfl⟩ := Option.map_eq_some_iff.mp h
    obtain ⟨n, hn, rfl⟩ := Option.map_eq_some_iff.mp hm
    obtain ⟨-, rfl⟩ := checked_eq_some.mp hk
    obtain ⟨-, rfl⟩ := checked_eq_some.mp hn
    have hmissed : s.tracker.metrics.heartbeatsMissedConsecutive + 1 =
        misses (l ++ [.primary now lastRx]) := by
      rw [misses_snoc, missesAfter, if_pos hsilent, hs.missed]
    split
    · exact ⟨hmissed, Nat.zero_le 2, hs.secondary⟩
    · exact ⟨hmissed, by simp only; omega, hs.secondary⟩
  · rename_i hsilent
    cases h
    refine ⟨?_, Nat.zero_le 2, hs.secondary⟩
    rw [misses_snoc, missesAfter, if_neg hsilent]
    exact hs.missed

theorem Kept.step (hs : Kept l s) (h : s.step a = some u) : Kept (l ++ [a]) u := by
  have hmissed := hs.missed
  cases a with
  | elapse | disconnect =>
    cases h
    exact ⟨misses_snoc ▸ hmissed, hs.primary, hs.secondary⟩
  | snapshot =>
    cases h
    refine ⟨?_, hs.primary, hs.secondary⟩
    rw [misses_snoc]
    show (s.tracker.snapshot s.now).metrics.heartbeatsMissedConsecutive = _
    unfold MetricsTracker.snapshot
    split <;> exact hmissed
  | handshakeStart | handshakeFail | rekey | networkChange | decryptFailure | dedupDrop
  | itemSent | itemReceived | itemResynced | resyncApplySuppressed | linkUp | heartbeatReceived =>
    obtain ⟨m, hm, rfl⟩ := Option.map_eq_some_iff.mp h
    refine ⟨?_, hs.primary, hs.secondary⟩
    rw [misses_snoc]
    show m.metrics.heartbeatsMissedConsecutive = _
    rw [bump_eq_some hm]
    first | rfl | exact hmissed
  | ping =>
    obtain ⟨m, hm, rfl⟩ := Option.map_eq_some_iff.mp h
    obtain ⟨k, hk, rfl⟩ := Option.map_eq_some_iff.mp hm
    refine ⟨?_, hs.primary, hs.secondary⟩
    rw [misses_snoc]
    show k.metrics.heartbeatsMissedConsecutive = _
    rw [bump_eq_some hk]
    exact hmissed
  | ackReceived =>
    obtain ⟨m, hm, rfl⟩ := Option.map_eq_some_iff.mp h
    refine ⟨?_, hs.primary, hs.secondary⟩
    rw [misses_snoc]
    unfold MetricsTracker.onAckReceived at hm
    split at hm
    · cases hm
      exact hmissed
    · obtain ⟨p99, -, rfl⟩ := Option.map_eq_some_iff.mp hm
      exact hmissed
  | primary now lastRx => exact hs.primaryRound h
  | secondaries now live =>
    obtain ⟨missed', hround, rfl⟩ := Option.map_eq_some_iff.mp h
    have hkept : ∀ (p : PeerId) (n : ℕ),
        (s.secondaryMissed.filter fun p _ ↦ live.any (·.1 == p))[p]? = some n → n ≤ 2 :=
      fun p n hn ↦ hs.secondary p n (OrderedMap.lookup_filter.mp hn).1
    obtain ⟨k, hk, hle⟩ := secondaryRound_spec now live hkept
    obtain rfl : missed' = k := Option.some.inj (hround.symm.trans hk)
    exact ⟨misses_snoc ▸ hmissed, hs.primary, hle⟩

theorem kept_run (h : Run step Always {} l s) : Kept l s := by
  apply h.history
  · refine ⟨rfl, Nat.zero_le 2, ?_⟩
    intro p n hn
    simp at hn
  · intro l t a u _ ht _ hu
    exact ht.step hu

end Beat

end FluxSync.Daemon
