import FluxSync.Transport.Generations
import FluxSync.Transport.Slots

namespace FluxSync.Transport

open Std Function Runs

variable {N : Type} {t u v : Transport (Installed N)} {s : Slot} {id a : PeerId} {now : UInt64}

section

variable {f : PeerConn (Installed N) → PeerConn (Installed N)} {c : Call (Installed N)}

/-- The slot out of which a promotion takes the session. -/
def moved (t : Transport (Installed N)) : Call (Installed N) → Option Slot
  | .promoteSecondary => t.detachSecondary.map fun e ↦ .secondary e.2.1 e.2.2
  | _ => none

theorem conns_acquireConn (h : Allocated t s) : (t.acquireConn now id).1.conns s = t.conns s := by
  unfold acquireConn extraEntry
  split
  · rfl
  · split
    · rfl
    · have hne : s ≠ .secondary id t.allocated := by
        rintro rfl
        exact Nat.lt_irrefl _ h
      exact update_of_ne hne _ _

theorem session_modify (hf : ∀ c, (f c).session = c.session ∨
      (f c).sessionGeneration = c.sessionGeneration + 1) {s' : Slot}
    (h : ((t.modify s' f).conns s).sessionGeneration = (t.conns s).sessionGeneration) :
    ((t.modify s' f).conns s).session = (t.conns s).session := by
  by_cases hs : s = s'
  · subst hs
    simp only [modify, update_self] at h ⊢
    apply (hf (t.conns s)).resolve_right
    rw [h]
    simp
  · simp only [modify, update_of_ne hs]

theorem session_acquired (ha : Allocated t s) {s' : Slot} (hf : ∀ c, (f c).session = c.session ∨
      (f c).sessionGeneration = c.sessionGeneration + 1)
    (h : (((t.acquireConn now id).1.modify s' f).conns s).sessionGeneration =
      (t.conns s).sessionGeneration) :
    (((t.acquireConn now id).1.modify s' f).conns s).session = (t.conns s).session := by
  have heq : (t.acquireConn now id).1.conns s = t.conns s := conns_acquireConn ha
  rw [← heq] at h ⊢
  exact session_modify hf h

theorem session_dropSessionFor
    (h : ((t.dropSessionFor id).conns s).sessionGeneration = (t.conns s).sessionGeneration) :
    ((t.dropSessionFor id).conns s).session = (t.conns s).session := by
  unfold dropSessionFor at h ⊢
  split at h
  · rfl
  · simp only [storeSession, bumpGeneration, modify_modify] at h ⊢
    exact session_modify (fun _ ↦ .inr rfl) h

/-- Where a slot's generation is as before the call, so is its session, unless
a promotion has taken it. -/
theorem call_session (ha : Allocated t s) (hm : t.moved c ≠ some s)
    (h : ((t.call now c).conns s).sessionGeneration = (t.conns s).sessionGeneration) :
    ((t.call now c).conns s).session = (t.conns s).session := by
  cases c with
  | installSession id x =>
    simp only [call, installSession, storeSession, storeLastPeerId, bumpGeneration,
      storeEstablished, modify_modify] at h ⊢
    exact session_acquired ha (fun _ ↦ .inr rfl) h
  | tryInstallSession id x =>
    simp only [call, tryInstallSession] at h ⊢
    by_cases hlive : (t.acquireConn now id).1.live (t.acquireConn now id).2
    · rw [if_pos hlive, conns_acquireConn ha]
    · rw [if_neg hlive] at h ⊢
      simp only [storeSession, storeLastPeerId, bumpGeneration, storeEstablished,
        modify_modify] at h ⊢
      exact session_acquired ha (fun _ ↦ .inr rfl) h
  | installSessionIfGenerationFor id x g =>
    simp only [call, installSessionIfGenerationFor] at h ⊢
    split at h
    · rfl
    · split at h
      · rename_i hg
        rw [if_pos hg]
      · rename_i hg
        rw [if_neg hg]
        simp only [storeSession, storeLastPeerId, bumpGeneration, storeEstablished,
          modify_modify] at h ⊢
        exact session_modify (fun _ ↦ .inr rfl) h
  | setPeerInfo id addr =>
    simp only [call, setPeerInfo, storePeerAddr, storeLastPeerAddr, storeLastPeerId, pushHistory,
      modify_modify] at h ⊢
    exact session_acquired ha (fun _ ↦ .inl rfl) h
  | dropSession =>
    simp only [call, dropSession, storeSession, bumpGeneration, modify_modify] at h ⊢
    exact session_modify (fun _ ↦ .inr rfl) h
  | dropSessionFor id => exact session_dropSessionFor h
  | purgePeer id => exact session_dropSessionFor h
  | promoteSecondary =>
    simp only [call, promoteSecondary] at h ⊢
    split at h
    · rfl
    · rename_i t' id n heq
      have hne : s ≠ .secondary id n := by
        intro hs
        apply hm
        rw [moved, heq, hs]
        rfl
      obtain ⟨e, -, he⟩ := Option.map_eq_some_iff.mp heq
      obtain rfl : t.removeExtra e.1 = t' := congrArg Prod.fst he
      have hkept : ((t.removeExtra e.1).storeSession (.secondary id n) none).conns s = t.conns s :=
        update_of_ne hne _ _
      split at h
      · rfl
      · generalize (t.removeExtra e.1).storeSession (.secondary id n) none = v at h hkept ⊢
        simp only [adoptAddr, storeLastPeerId, bumpGeneration, storeEstablished, storeSession,
          modify_modify] at h ⊢
        rw [← hkept] at h ⊢
        exact session_modify (fun _ ↦ .inr rfl) h

theorem allocated_acquireConn : t.allocated ≤ (t.acquireConn now id).1.allocated := by
  unfold acquireConn extraEntry
  split
  · exact Nat.le_refl _
  · split
    · exact Nat.le_refl _
    · exact Nat.le_succ _

theorem extraAllocated_acquireConn (h : ExtraAllocated t) :
    ExtraAllocated (t.acquireConn now id).1 := by
  unfold acquireConn extraEntry
  split
  · exact h
  · split
    · exact h
    · intro a n hn
      rw [OrderedMap.lookup_insert] at hn
      split at hn
      · obtain rfl := Option.some.inj hn
        exact Nat.lt_succ_self _
      · exact Nat.lt_succ_of_lt (h a n hn)

theorem extraAllocated_dropSessionFor (h : ExtraAllocated t) :
    ExtraAllocated (t.dropSessionFor id) := by
  unfold dropSessionFor
  split
  · exact h
  · exact h

theorem allocated_dropSessionFor : (t.dropSessionFor id).allocated = t.allocated := by
  unfold dropSessionFor
  split <;> rfl

theorem call_extraAllocated (h : ExtraAllocated t) : ExtraAllocated (t.call now c) := by
  cases c with
  | installSession id x => exact extraAllocated_acquireConn h
  | tryInstallSession id x =>
    simp only [call, tryInstallSession]
    split
    · exact extraAllocated_acquireConn h
    · exact extraAllocated_acquireConn h
  | installSessionIfGenerationFor id x g =>
    simp only [call, installSessionIfGenerationFor]
    split
    · exact h
    · split
      · exact h
      · exact h
  | setPeerInfo id addr => exact extraAllocated_acquireConn h
  | dropSession => exact h
  | dropSessionFor id => exact extraAllocated_dropSessionFor h
  | purgePeer id => exact (extraAllocated_dropSessionFor h).erase
  | promoteSecondary =>
    simp only [call, promoteSecondary]
    split
    · exact h
    · rename_i t' id n heq
      obtain ⟨e, -, he⟩ := Option.map_eq_some_iff.mp heq
      obtain rfl : t.removeExtra e.1 = t' := congrArg Prod.fst he
      split
      · exact h.erase
      · exact h.erase

theorem call_allocated (h : Allocated t s) : Allocated (t.call now c) s := by
  cases s with
  | primary => trivial
  | secondary a n =>
    apply Nat.lt_of_lt_of_le h
    cases c with
    | installSession id x => exact allocated_acquireConn
    | tryInstallSession id x =>
      simp only [call, tryInstallSession]
      split
      · exact allocated_acquireConn
      · exact allocated_acquireConn
    | installSessionIfGenerationFor id x g =>
      simp only [call, installSessionIfGenerationFor]
      split
      · exact Nat.le_refl _
      · split
        · exact Nat.le_refl _
        · exact Nat.le_refl _
    | setPeerInfo id addr => exact allocated_acquireConn
    | dropSession => exact Nat.le_refl _
    | dropSessionFor id => exact allocated_dropSessionFor.ge
    | purgePeer id => exact allocated_dropSessionFor.ge
    | promoteSecondary =>
      simp only [call, promoteSecondary]
      split
      · exact Nat.le_refl _
      · rename_i t' id n heq
        obtain ⟨e, -, he⟩ := Option.map_eq_some_iff.mp heq
        obtain rfl : t.removeExtra e.1 = t' := congrArg Prod.fst he
        split
        · exact Nat.le_refl _
        · exact Nat.le_refl _

/-- The session a promotion takes is the primary slot's afterwards. -/
theorem call_moved (h : t.moved c = some s) {x : Installed N} (hx : (t.conns s).session = some x) :
    ((t.call now c).conns .primary).session = some x := by
  cases c with
  | promoteSecondary =>
    obtain ⟨⟨t', id, n⟩, heq, rfl⟩ := Option.map_eq_some_iff.mp h
    obtain ⟨e, -, he⟩ := Option.map_eq_some_iff.mp heq
    obtain rfl : t.removeExtra e.1 = t' := congrArg Prod.fst he
    have hx' : ((t.removeExtra e.1).conns (.secondary id n)).session = some x := hx
    simp only [call, promoteSecondary, heq, hx']
    simp [storeSession, storeLastPeerId, adoptAddr, bumpGeneration, storeEstablished, modify]
  | _ => cases h

end

/-- A session stands for the Hellos that were sent on it, by the name each gave. -/
abbrev Session := Installed (List String)

/-- `conn_for` of the peer, and the session `send_encrypted_to` finds there. -/
def currentSession (t : Transport Session) (id : PeerId) : Option Session :=
  (t.connFor id).bind fun s ↦ (t.conns s).session

/-- `send_on` where the encryption and the socket do not fail; `len` is the
size of the encrypted frame. -/
def sendOn (t : Transport Session) (s : Slot) (name : String) (len : UInt64) :
    Option (Transport Session) := do
  let _ ← (t.conns s).peerAddr
  let x ← (t.conns s).session
  some (t.modify s fun c ↦
    { c with
      session := some { x with noise := x.noise ++ [name] }
      bytesSinceEstablished := c.bytesSinceEstablished + len })

structure Greeter where
  transport : Transport Session
  helloSent : ExtTreeMap PeerId UInt64
  /-- The slot a peer's entry was made on, or the one its session was promoted
  to since; nothing once the slot's generation has changed. The daemon does not keep it. -/
  madeOn : PeerId → Option Slot

namespace Greeter

def init (now : UInt64) : Greeter := ⟨.new now, ∅, fun _ ↦ none⟩

/-- The loop body. The source encodes at the first peer that needs a Hello and
returns where `encode` refuses it, as it would for the peers after that one. -/
def greetPeer (frame : Option UInt64) (name : String) (g : Greeter) (id : PeerId) : Greeter :=
  match g.transport.connFor id with
  | none => g
  | some s =>
    let generation := (g.transport.conns s).sessionGeneration
    if g.helloSent[id]? = some generation then g
    else
      match frame.bind (g.transport.sendOn s name) with
      | none => g
      | some t =>
        { transport := t
          helloSent := g.helloSent.insert id generation
          madeOn := update g.madeOn id (some s) }

/-- `encode` gives the size of the encrypted Hello, or refuses its name. -/
def greetNewSessions (encode : String → Option UInt64) (g : Greeter) (name : String) : Greeter :=
  let ids := g.transport.linkedPeerIds
  ids.foldl (greetPeer (encode name) name)
    { g with helloSent := g.helloSent.filter fun id _ ↦ ids.contains id }

/-- Where the entry of a slot stands after a call. -/
def follow (t : Transport Session) (now : UInt64) (c : Call Session) (s : Slot) : Option Slot :=
  if t.moved c = some s then some .primary
  else if ((t.call now c).conns s).sessionGeneration = (t.conns s).sessionGeneration then some s
  else none

inductive Op
  | call (now : UInt64) (c : Call Unit)
  /-- `SetDeviceName` empties `hello_sent` before it greets. -/
  | forget
  | greet (name : String)
  deriving DecidableEq

/-- A session comes out of its handshake with nothing sent on it. -/
def opened : Call Unit → Call Session
  | .installSession id _ => .installSession id ⟨id, []⟩
  | .tryInstallSession id _ => .tryInstallSession id ⟨id, []⟩
  | .installSessionIfGenerationFor id _ g => .installSessionIfGenerationFor id ⟨id, []⟩ g
  | .setPeerInfo id addr => .setPeerInfo id addr
  | .dropSession => .dropSession
  | .dropSessionFor id => .dropSessionFor id
  | .purgePeer id => .purgePeer id
  | .promoteSecondary => .promoteSecondary

def step (encode : String → Option UInt64) (g : Greeter) : Op → Option Greeter
  | .call now c =>
    some { g with
      transport := g.transport.call now (opened c)
      madeOn := fun id ↦ (g.madeOn id).bind (follow g.transport now (opened c)) }
  | .forget => some { g with helloSent := ∅ }
  | .greet name => some (g.greetNewSessions encode name)

/-- The Hellos a greeting owes can be encoded and sent. -/
def SendsSucceed (encode : String → Option UInt64) (g : Greeter) : Op → Prop
  | .greet name => ∀ id ∈ g.transport.linkedPeerIds, ∀ s ∈ g.transport.connFor id,
      g.helloSent[id]? ≠ some (g.transport.conns s).sessionGeneration →
        (encode name).isSome ∧ (g.transport.conns s).peerAddr.isSome ∧ g.transport.live s
  | _ => True

/-- An entry with the generation a linked peer's slot has now was made on that slot. -/
def EntriesFollow (g : Greeter) : Op → Prop
  | .greet _ => ∀ id ∈ g.transport.linkedPeerIds, ∀ s ∈ g.transport.connFor id,
      g.helloSent[id]? = some (g.transport.conns s).sessionGeneration → g.madeOn id = some s
  | _ => True

/-- Every linked peer's current session has been sent a Hello. -/
def AllGreeted (g : Greeter) : Prop :=
  ∀ id ∈ g.transport.linkedPeerIds, ∃ x ∈ g.transport.currentSession id, x.noise ≠ []

instance {encode : String → Option UInt64} (g : Greeter) :
    (o : Op) → Decidable (g.SendsSucceed encode o)
  | .greet _ => List.decidableBAll _ _
  | .call _ _ => instDecidableTrue
  | .forget => instDecidableTrue

instance (g : Greeter) : (o : Op) → Decidable (g.EntriesFollow o)
  | .greet _ => List.decidableBAll _ _
  | .call _ _ => instDecidableTrue
  | .forget => instDecidableTrue

instance (g : Greeter) : Decidable g.AllGreeted := List.decidableBAll _ _

/-- What a Hello leaves as it is. -/
structure SameLinks (t u : Transport Session) : Prop where
  extra : u.extra = t.extra
  allocated : u.allocated = t.allocated
  lastPeerId : ∀ s, (u.conns s).lastPeerId = (t.conns s).lastPeerId
  peerAddr : ∀ s, (u.conns s).peerAddr = (t.conns s).peerAddr
  generation : ∀ s, (u.conns s).sessionGeneration = (t.conns s).sessionGeneration
  live : ∀ s, u.live s = t.live s
  hellos : ∀ s x, (t.conns s).session = some x → x.noise ≠ [] →
    ∃ y, (u.conns s).session = some y ∧ y.noise ≠ []

variable {t u v : Transport Session} {g : Greeter} {frame : Option UInt64} {name : String}
  {len : UInt64}

theorem SameLinks.refl (t : Transport Session) : SameLinks t t where
  extra := rfl
  allocated := rfl
  lastPeerId := fun _ ↦ rfl
  peerAddr := fun _ ↦ rfl
  generation := fun _ ↦ rfl
  live := fun _ ↦ rfl
  hellos := fun _ x hx hne ↦ ⟨x, hx, hne⟩

theorem SameLinks.trans (h : SameLinks t u) (h' : SameLinks u v) : SameLinks t v where
  extra := h'.extra.trans h.extra
  allocated := h'.allocated.trans h.allocated
  lastPeerId s := (h'.lastPeerId s).trans (h.lastPeerId s)
  peerAddr s := (h'.peerAddr s).trans (h.peerAddr s)
  generation s := (h'.generation s).trans (h.generation s)
  live s := (h'.live s).trans (h.live s)
  hellos s x hx hne := by
    obtain ⟨y, hy, hne'⟩ := h.hellos s x hx hne
    exact h'.hellos s y hy hne'

theorem SameLinks.connFor (h : SameLinks t u) (id : PeerId) : u.connFor id = t.connFor id := by
  rw [Transport.connFor, Transport.connFor, conn, conn, h.lastPeerId, h.extra]

theorem SameLinks.mem_linkedPeerIds (h : SameLinks t u) :
    id ∈ u.linkedPeerIds ↔ id ∈ t.linkedPeerIds := by
  simp only [Transport.mem_linkedPeerIds, LiveSecondary, conn, h.lastPeerId, h.extra, h.live]

/-- The slot has a session and a Hello was sent on it. -/
def Greeted (t : Transport Session) (s : Slot) : Prop :=
  ∃ x, (t.conns s).session = some x ∧ x.noise ≠ []

theorem SameLinks.greeted (h : SameLinks t u) (hs : Greeted t s) : Greeted u s := by
  obtain ⟨x, hx, hne⟩ := hs
  exact h.hellos s x hx hne

theorem sendOn_eq_some (h : t.sendOn s name len = some u) :
    ∃ x, (t.conns s).session = some x ∧ u = t.modify s fun c ↦
      { c with
        session := some { x with noise := x.noise ++ [name] }
        bytesSinceEstablished := c.bytesSinceEstablished + len } := by
  simp only [sendOn, Option.bind_eq_bind, Option.bind_eq_some_iff, Option.some.injEq] at h
  obtain ⟨_, _, x, hx, rfl⟩ := h
  exact ⟨x, hx, rfl⟩

theorem sendOn_sameLinks (h : t.sendOn s name len = some u) : SameLinks t u := by
  obtain ⟨x, hx, rfl⟩ := sendOn_eq_some h
  refine ⟨rfl, rfl, fun s' ↦ ?_, fun s' ↦ ?_, fun s' ↦ ?_, fun s' ↦ ?_, fun s' y hy hne ↦ ?_⟩
  · simp only [modify, update_apply]
    split
    · rename_i heq
      rw [heq]
    · rfl
  · simp only [modify, update_apply]
    split
    · rename_i heq
      rw [heq]
    · rfl
  · simp only [modify, update_apply]
    split
    · rename_i heq
      rw [heq]
    · rfl
  · by_cases heq : s' = s
    · rw [heq, live_modify_self, live, hx]
      rfl
    · exact live_modify_ne heq
  · by_cases heq : s' = s
    · subst heq
      exact ⟨{ x with noise := x.noise ++ [name] }, by simp [modify], by simp⟩
    · exact ⟨y, by simpa [modify, heq] using hy, hne⟩

theorem sendOn_greeted (h : t.sendOn s name len = some u) : Greeted u s := by
  obtain ⟨x, -, rfl⟩ := sendOn_eq_some h
  exact ⟨{ x with noise := x.noise ++ [name] }, by simp [modify], by simp⟩

theorem sendOn_isSome (haddr : (t.conns s).peerAddr.isSome) (hlive : t.live s) :
    ∃ u, t.sendOn s name len = some u := by
  obtain ⟨addr, haddr⟩ := Option.isSome_iff_exists.mp haddr
  obtain ⟨x, hx⟩ := Option.isSome_iff_exists.mp hlive
  rw [sendOn, haddr, hx]
  exact ⟨_, rfl⟩

theorem greetPeer_sameLinks : SameLinks g.transport (g.greetPeer frame name id).transport := by
  unfold greetPeer
  split
  · exact .refl _
  · dsimp only
    split
    · exact .refl _
    · split
      · exact .refl _
      · rename_i hsend
        obtain ⟨len, -, hsend⟩ := Option.bind_eq_some_iff.mp hsend
        exact sendOn_sameLinks hsend

/-- The Hello the peer is owed can be sent, and an entry that says it is owed
none was made on the slot it resolves to. -/
def Ready (frame : Option UInt64) (g : Greeter) (id : PeerId) : Prop :=
  ∀ s ∈ g.transport.connFor id,
    (g.helloSent[id]? = some (g.transport.conns s).sessionGeneration → g.madeOn id = some s) ∧
    (g.helloSent[id]? ≠ some (g.transport.conns s).sessionGeneration →
      frame.isSome ∧ (g.transport.conns s).peerAddr.isSome ∧ g.transport.live s)

/-- The slots that entries were made on are allocated, and a Hello was sent on each. -/
structure Kept (g : Greeter) : Prop where
  extra : ExtraAllocated g.transport
  allocated : ∀ id s, g.madeOn id = some s → Allocated g.transport s
  greeted : ∀ id s, g.madeOn id = some s → Greeted g.transport s

theorem greetPeer_cases (hs : g.transport.connFor id = some s) (hready : g.Ready frame id) :
    (g.greetPeer frame name id = g ∧ g.madeOn id = some s) ∨
    ∃ len t, g.transport.sendOn s name len = some t ∧ g.greetPeer frame name id =
      { transport := t
        helloSent := g.helloSent.insert id (g.transport.conns s).sessionGeneration
        madeOn := update g.madeOn id (some s) } := by
  obtain ⟨hentry, hsends⟩ := hready s hs
  simp only [greetPeer, hs]
  by_cases heq : g.helloSent[id]? = some (g.transport.conns s).sessionGeneration
  · rw [if_pos heq]
    exact .inl ⟨rfl, hentry heq⟩
  · rw [if_neg heq]
    obtain ⟨hframe, haddr, hlive⟩ := hsends heq
    obtain ⟨len, rfl⟩ := Option.isSome_iff_exists.mp hframe
    obtain ⟨t, ht⟩ := sendOn_isSome haddr hlive
    refine .inr ⟨len, t, ht, ?_⟩
    rw [Option.bind_some, ht]

/-- Greeting one peer leaves every other as ready as it was. -/
theorem Ready.greetPeer (h : g.Ready frame a) (hid : g.Ready frame id) :
    (g.greetPeer frame name id).Ready frame a := by
  cases hs : g.transport.connFor id with
  | none =>
    simp only [Greeter.greetPeer, hs]
    exact h
  | some s =>
    rcases greetPeer_cases hs hid with ⟨heq, -⟩ | ⟨len, t, ht, heq⟩
    · rw [heq]
      exact h
    · have hsame := sendOn_sameLinks ht
      rw [heq]
      intro s' hs'
      simp only [hsame.connFor, hsame.generation, hsame.peerAddr, hsame.live] at hs' ⊢
      obtain ⟨hentry, hsends⟩ := h s' hs'
      rw [OrderedMap.lookup_insert]
      by_cases ha : id = a
      · subst ha
        obtain rfl : s = s' := Option.some.inj (hs.symm.trans hs')
        simp
      · rw [if_neg ha, update_of_ne (Ne.symm ha)]
        exact ⟨hentry, hsends⟩

theorem Kept.greetPeer (h : g.Kept) (hid : g.Ready frame id) (name : String) :
    (g.greetPeer frame name id).Kept := by
  cases hs : g.transport.connFor id with
  | none =>
    simp only [Greeter.greetPeer, hs]
    exact h
  | some s =>
    rcases greetPeer_cases hs hid with ⟨heq, -⟩ | ⟨len, t, ht, heq⟩
    · rw [heq]
      exact h
    · have hsame := sendOn_sameLinks ht
      have hallocated : ∀ s', Allocated g.transport s' → Allocated t s' := by
        intro s' ha
        cases s' with
        | primary => trivial
        | secondary a n => exact ha.trans_eq hsame.allocated.symm
      have hs' : Allocated g.transport s := by
        rcases connFor_eq_some hs with ⟨rfl, -⟩ | ⟨n, rfl, hn, -⟩
        · trivial
        · exact h.extra id n hn
      rw [heq]
      refine ⟨?_, fun a s' ha ↦ ?_, fun a s' ha ↦ ?_⟩
      · intro a n hn
        simp only [hsame.extra, hsame.allocated] at hn ⊢
        exact h.extra a n hn
      · by_cases hid : a = id
        · subst hid
          obtain rfl : s = s' := by simpa using ha
          exact hallocated s hs'
        · simp only [update_of_ne hid] at ha
          exact hallocated s' (h.allocated a s' ha)
      · by_cases hid : a = id
        · subst hid
          obtain rfl : s = s' := by simpa using ha
          exact sendOn_greeted ht
        · simp only [update_of_ne hid] at ha
          exact hsame.greeted (h.greeted a s' ha)

theorem greetPeer_greeted (h : g.Kept) (hid : g.Ready frame id)
    (hs : g.transport.connFor id = some s) :
    Greeted (g.greetPeer frame name id).transport s := by
  rcases greetPeer_cases hs hid with ⟨heq, hmade⟩ | ⟨len, t, ht, heq⟩
  · rw [heq]
    exact h.greeted id s hmade
  · rw [heq]
    exact sendOn_greeted ht

theorem greetPeers_sameLinks (g : Greeter) (ids : List PeerId) :
    SameLinks g.transport (ids.foldl (greetPeer frame name) g).transport := by
  induction ids generalizing g with
  | nil => exact .refl _
  | cons id ids ih => exact greetPeer_sameLinks.trans (ih _)

/-- Greeting the peers one after the other greets each of them. -/
theorem greetPeers_greeted {ids : List PeerId} (h : g.Kept)
    (hready : ∀ id ∈ ids, g.Ready frame id) (name : String) :
    (ids.foldl (greetPeer frame name) g).Kept ∧
      ∀ id ∈ ids, ∀ s ∈ g.transport.connFor id,
        Greeted (ids.foldl (greetPeer frame name) g).transport s := by
  induction ids generalizing g with
  | nil => exact ⟨h, by simp⟩
  | cons id ids ih =>
    have hid := hready id List.mem_cons_self
    have hrest : ∀ a ∈ ids, (g.greetPeer frame name id).Ready frame a :=
      fun a ha ↦ (hready a (List.mem_cons_of_mem id ha)).greetPeer hid
    obtain ⟨hkept, hgreeted⟩ := ih (h.greetPeer hid name) hrest
    refine ⟨hkept, fun a ha s hs ↦ ?_⟩
    rcases List.mem_cons.mp ha with rfl | ha
    · exact (greetPeers_sameLinks _ ids).greeted (greetPeer_greeted h hid hs)
    · apply hgreeted a ha s
      rw [greetPeer_sameLinks.connFor]
      exact hs

theorem kept_init : (init now).Kept where
  extra := by simp [ExtraAllocated, init, new]
  allocated := by simp [init]
  greeted := by simp [init]

theorem follow_spec {c : Call Session} {s' : Slot} (ha : Allocated t s) (hs : Greeted t s)
    (h : follow t now c s = some s') :
    Allocated (t.call now c) s' ∧ Greeted (t.call now c) s' := by
  obtain ⟨x, hx, hne⟩ := hs
  unfold follow at h
  split at h
  · rename_i hmoved
    obtain rfl := Option.some.inj h
    exact ⟨trivial, x, call_moved hmoved hx, hne⟩
  · rename_i hmoved
    obtain ⟨hgen, h⟩ := Option.ite_none_right_eq_some.mp h
    obtain rfl := Option.some.inj h
    exact ⟨call_allocated ha, x, (call_session ha hmoved hgen).trans hx, hne⟩

theorem Kept.call (h : g.Kept) (c : Call Session) :
    Kept { g with
      transport := g.transport.call now c
      madeOn := fun id ↦ (g.madeOn id).bind (follow g.transport now c) } := by
  have hfollow : ∀ id s', (g.madeOn id).bind (follow g.transport now c) = some s' →
      Allocated (g.transport.call now c) s' ∧ Greeted (g.transport.call now c) s' := by
    intro id s' hs'
    obtain ⟨s, hs, hs'⟩ := Option.bind_eq_some_iff.mp hs'
    exact follow_spec (h.allocated id s hs) (h.greeted id s hs) hs'
  exact ⟨call_extraAllocated h.extra, fun id s hs ↦ (hfollow id s hs).1,
    fun id s hs ↦ (hfollow id s hs).2⟩

theorem connFor_of_linked (h : id ∈ t.linkedPeerIds) : ∃ s, t.connFor id = some s := by
  unfold connFor
  split
  · exact ⟨_, rfl⟩
  · rename_i hlast
    rcases Transport.mem_linkedPeerIds.mp h with ⟨-, heq⟩ | ⟨n, hn, -⟩
    · exact absurd heq hlast
    · exact ⟨.secondary id n, by rw [hn]; rfl⟩

theorem greetNewSessions_spec {encode : String → Option UInt64} (h : g.Kept)
    (hsends : g.SendsSucceed encode (.greet name)) (hfollow : g.EntriesFollow (.greet name)) :
    (g.greetNewSessions encode name).Kept ∧ (g.greetNewSessions encode name).AllGreeted := by
  let g₀ : Greeter :=
    { g with helloSent := g.helloSent.filter fun id _ ↦ g.transport.linkedPeerIds.contains id }
  have hkept₀ : g₀.Kept := ⟨h.extra, h.allocated, h.greeted⟩
  have hready : ∀ id ∈ g.transport.linkedPeerIds, g₀.Ready (encode name) id := by
    intro id hid s hs
    have hentry (n : UInt64) : g₀.helloSent[id]? = some n ↔ g.helloSent[id]? = some n := by
      simp only [g₀, OrderedMap.lookup_filter, List.contains_iff_mem, hid, and_true]
    rw [Ne, hentry]
    exact ⟨hfollow id hid s hs, hsends id hid s hs⟩
  obtain ⟨hkept, hgreeted⟩ := greetPeers_greeted hkept₀ hready name
  refine ⟨hkept, fun id hid ↦ ?_⟩
  have hsame : SameLinks g.transport (g.greetNewSessions encode name).transport :=
    greetPeers_sameLinks g₀ g.transport.linkedPeerIds
  have hlinked : id ∈ g.transport.linkedPeerIds := hsame.mem_linkedPeerIds.mp hid
  obtain ⟨s, hs⟩ := connFor_of_linked hlinked
  obtain ⟨x, hx, hne⟩ := hgreeted id hlinked s hs
  refine ⟨x, ?_, hne⟩
  rw [currentSession]
  exact Option.bind_eq_some_iff.mpr ⟨s, (hsame.connFor id).trans hs, hx⟩

theorem kept_run {encode : String → Option UInt64} {l : List Op}
    (h : Run (step encode) (fun g o ↦ g.SendsSucceed encode o ∧ g.EntriesFollow o) (init now) l g) :
    g.Kept := by
  refine h.invariant kept_init fun g o g' hg ho hs ↦ ?_
  cases o with
  | call now c =>
    obtain rfl := Option.some.inj hs
    exact hg.call (opened c)
  | forget =>
    obtain rfl := Option.some.inj hs
    exact ⟨hg.extra, hg.allocated, hg.greeted⟩
  | greet name =>
    obtain rfl := Option.some.inj hs
    exact (greetNewSessions_spec hg ho.1 ho.2).1

/-- A greeting leaves every linked peer's current session with a Hello sent on
it, where each entry it relies on was made on the slot the peer has now. -/
theorem current_sessions_greeted {encode : String → Option UInt64} {l : List Op}
    (h : Run (step encode) (fun g o ↦ g.SendsSucceed encode o ∧ g.EntriesFollow o) (init now)
      (l ++ [.greet name]) g) : g.AllGreeted := by
  obtain ⟨g', hrun, ho, hs⟩ := run_snoc.mp h
  obtain rfl := Option.some.inj hs
  exact (greetNewSessions_spec (kept_run hrun) ho.1 ho.2).2

def here : SocketAddr := .v4 0 0

def link (id : PeerId) : List Op :=
  [.call 0 (.tryInstallSession id ()), .call 0 (.setPeerInfo id here)]

/-- Two peers link and are greeted, the second drops, links again and is greeted. -/
def dropAndRelink : List Op :=
  link 1 ++ link 2 ++ .greet "desk" :: .call 0 (.dropSessionFor 2) :: link 2

def encodes (_ : String) : Option UInt64 := some 64

theorem dropAndRelink_isSome :
    ((dropAndRelink ++ [Op.greet "desk"]).foldlM (fun (g : Greeter) (o : Op) ↦
      if decide (g.SendsSucceed encodes o ∧ g.EntriesFollow o) then step encodes g o else none)
      (init 0)).isSome := by
  decide +kernel

theorem current_sessions_greeted_dropAndRelink :
    ∃ g, Run (step encodes) (fun g o ↦ g.SendsSucceed encodes o ∧ g.EntriesFollow o) (init 0)
      (dropAndRelink ++ [.greet "desk"]) g ∧ g.AllGreeted := by
  have hrun := (run_of_checked dropAndRelink_isSome).mono fun _ _ ↦ of_decide_eq_true
  exact ⟨_, hrun, current_sessions_greeted hrun⟩

/-- The second peer is unpaired and pairs again between two greetings. -/
def purgeAndRepair : List Op :=
  link 1 ++ link 2 ++ .greet "desk" :: .call 0 (.purgePeer 2) :: link 2

theorem purgeAndRepair_isSome :
    ((purgeAndRepair ++ [Op.greet "desk"]).foldlM (fun (g : Greeter) (o : Op) ↦
      if decide (g.SendsSucceed encodes o) then step encodes g o else none) (init 0)).isSome := by
  decide +kernel

/-- The new `PeerConn` counts from zero again, so its first session has the
generation of the session that was greeted. -/
theorem purgeAndRepair_skips :
    ∃ g, Run (step encodes) (SendsSucceed encodes) (init 0) (purgeAndRepair ++ [.greet "desk"]) g ∧
      ¬ g.AllGreeted := by
  have hrun := (run_of_checked purgeAndRepair_isSome).mono fun _ _ ↦ of_decide_eq_true
  exact ⟨_, hrun, by decide +kernel⟩

end Greeter

end FluxSync.Transport
