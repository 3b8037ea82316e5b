import FluxSync.Pipeline.Resync
import FluxSync.Pipeline.Delivery

/-! ## Cleared content and the resync -/

namespace FluxSync.Pipeline

open Std Mesh Runs

def MAX_CLEARED_TOMBSTONE : ℕ := 4096

/-- When each hash was cleared. -/
abbrev ClearedTombstone := ExtTreeMap ContentHash ℕ

def live (now clearedAt : ℕ) : Bool := now - clearedAt ≤ MAX_AGE

/-- `min_by_key` can give the entry. -/
def isOldest (g : ClearedTombstone) (hash : ContentHash) : Bool :=
  match g[hash]? with
  | some t => g.toList.all fun e ↦ t ≤ e.2
  | none => false

/-- The loop that evicts the oldest entries, one after the other. -/
def evictOldest (g : ClearedTombstone) : List ContentHash → Option ClearedTombstone
  | [] => if MAX_CLEARED_TOMBSTONE < g.size then none else some g
  | oldest :: rest =>
    if MAX_CLEARED_TOMBSTONE < g.size then
      if isOldest g oldest then evictOldest (g.erase oldest) rest else none
    else some g

def record (now : ℕ) (g : ClearedTombstone) (hashes : List ContentHash) : ClearedTombstone :=
  hashes.foldl (fun g h ↦ g.insert h now) (g.filter fun _ t ↦ live now t)

/-- `oldest` are the entries the eviction picks. -/
def markCleared (now : ℕ) (g : ClearedTombstone) (hashes oldest : List ContentHash) :
    Option ClearedTombstone :=
  if hashes = [] then some g else evictOldest (record now g hashes) oldest

def clearedHexSnapshot (now : ℕ) (g : ClearedTombstone) : List String :=
  (g.toList.filter fun e ↦ live now e.2).map fun e ↦ hex32 e.1

/-- What `CmdOp::ClearHistory` takes out of the history. -/
def clearedBy (app : App) (includeFavorites : Bool) : List ContentHash :=
  (app.state.history.filter fun h ↦ includeFavorites || !h.favorite).filterMap (hex32Decode ·.hash)

/-- A `ResyncOffer` in hand, with the history and the outbox it is compared to. -/
structure Answering where
  peer : PeerId
  offered : List String
  history : List String
  outbox : List String

/-- The daemon with its tombstones and its pulls. -/
structure Clearer where
  node : Node
  now : ℕ := 0
  tombstone : ClearedTombstone := ∅
  pendingPulls : PendingPulls := ∅
  /-- The hashes of the history that was published last. -/
  published : List String := []
  answering : Option Answering := none
  /-- The hashes cleared and not copied anew since, with the time of the clear. No task reads it. -/
  cleared : ExtTreeMap ContentHash ℕ := ∅

namespace Clearer

inductive Act
  | elapse (ms : ℕ)
  /-- `anew` tells whether a user has copied the content since it was cleared here. -/
  | arrive (item : CompleteItem) (wipes : ℕ) (anew : Bool)
  | inbound (o : Oracle)
  | pull (hash : ContentHash)
  /-- The offer of an authorized peer. The codec has let only lowercase hex of 32 bytes pass. -/
  | offer (p : PeerId) (hashes : List ContentHash)
  /-- The offer is compared to the tombstones, and what is missing is pulled. -/
  | answer
  /-- A peer that may be offered something says `Hello`. -/
  | hello (p : PeerId)
  | chore (o : Oracle) (oldest : List ContentHash)
  /-- Any other step of the two loops. -/
  | node (a : Pipeline.Act)

/-- The steps of the two loops that have no name of their own above. -/
def others : Pipeline.Act → Bool
  | .arrive .. | .inbound .. | .pull .. | .chore .. => false
  | _ => true

/-- The event that a step hands to the App. -/
def handled (s : Node) : Pipeline.Act → Option Event
  | .pop .. => s.queue.head?.map (·.event)
  | .chore _ =>
    match s.todo with
    | .handle e _ :: _ => some e
    | _ => none
  | _ => none

/-- The user's copy ends the clear of its content. -/
def copied (cleared : ExtTreeMap ContentHash ℕ) : Option Event → ExtTreeMap ContentHash ℕ
  | some (.localClipboardChange hash ..) => cleared.erase hash
  | _ => cleared

variable (env : Env)

/-- A step of the two loops, and what it is for the record of what was cleared. -/
def run (s : Clearer) (a : Pipeline.Act) : Option Clearer :=
  (s.node.step env a).map fun node ↦ { s with node, cleared := copied s.cleared (handled s.node a) }

/-- What the offer in hand makes the daemon ask for. -/
def missing (s : Clearer) (a : Answering) : List String :=
  missingResyncHashes a.offered a.history a.outbox (clearedHexSnapshot s.now s.tombstone)
    (inFlightPullHashes s.now s.pendingPulls)

/-- The first chore, and the two that the tombstones and the published history hang on. -/
def doChore (s : Clearer) (o : Oracle) (oldest : List ContentHash) : Option Clearer :=
  match s.node.todo with
  | .handle (.clearHistory includeFavorites) _ :: _ =>
    -- `mark_cleared`, and without an await the App.
    let hashes := clearedBy s.node.app includeFavorites
    (markCleared s.now s.tombstone hashes oldest).bind fun tombstone ↦
      { s with tombstone, cleared := hashes.foldl (fun g h ↦ g.insert h s.now) s.cleared }.run env
        (.chore o)
  | .act .emitState :: _ =>
    let published := s.node.app.state.history.map (·.hash)
    { s with published }.run env (.chore o)
  | _ => s.run env (.chore o)

def step (s : Clearer) : Act → Option Clearer
  | .elapse ms => some { s with now := s.now + ms }
  | .arrive item wipes anew =>
    if s.answering.isNone then
      { s with cleared := if anew then s.cleared.erase item.hash else s.cleared }.run env
        (.arrive item wipes)
    else none
  | .inbound o =>
    match s.node.hand with
    | some (.relayed a _) =>
      let (pendingPulls, resync) := takePendingPull s.now s.pendingPulls a.source a.hash
      { s with pendingPulls }.run env (.inbound { o with now := s.now } resync)
    | _ => s.run env (.inbound { o with now := s.now } false)
  | .pull hash => if s.answering.isNone then s.run env (.pull hash s.now) else none
  | .offer peer hashes =>
    if s.answering.isNone ∧ s.node.hand.isNone then
      some { s with
        answering := some
          { peer, offered := hashes.map hex32, history := s.published
            outbox := (s.node.outbox.hashes s.now).map hex32 } }
    else none
  | .answer => s.answering.map fun a ↦
    { s with
      pendingPulls := (trackPendingPulls s.now s.pendingPulls a.peer (s.missing a)).1
      answering := none }
  | .hello _ => if s.answering.isNone ∧ s.node.hand.isNone then some s else none
  | .chore o oldest => s.doChore env { o with now := s.now } oldest
  | .node a => if others a then s.run env a else none

def start (policy : FirewallPolicy) : Clearer where
  node := .start policy

/-- Cleared within the last 24 hours, and not copied anew. -/
def Withheld (s : Clearer) (hash : ContentHash) : Prop :=
  ∃ t, s.cleared[hash]? = some t ∧ live s.now t

/-- The chore records no more tombstones than the cap and none for content that is back in the
outbox, and admits nothing that is withheld. -/
def ChoreClean (s : Clearer) (targets : List PeerId) : Chore → Prop
  | .handle (.clearHistory includeFavorites) _ =>
    (record s.now s.tombstone (clearedBy s.node.app includeFavorites)).size ≤ MAX_CLEARED_TOMBSTONE ∧
      ∀ h ∈ clearedBy s.node.app includeFavorites, s.node.outbox.entries[h]? = none
  | .promote hash admittedInbound =>
    admittedInbound → hash ∈ s.node.outboxStage → ¬ s.Withheld hash
  | .act (.sendItem hash _ _ sensitive) => targets ≠ [] → sensitive = false → ¬ s.Withheld hash
  | _ => True

/-- Nothing that was captured before its clear gets into the outbox after it. -/
def Clean (s : Clearer) : Act → Prop
  | .inbound _ => ∀ a, s.node.hand = some (.judged a .pass) → ¬ s.Withheld a.hash
  | .chore o _ => ∀ c ∈ s.node.todo.head?, s.ChoreClean o.targets c
  | _ => True

variable {env : Env} {s s' : Clearer} {n n' : Node} {a : Act} {o : Oracle} {hash h : ContentHash}
  {now ms t : ℕ} {g g' : ClearedTombstone} {hashes oldest : List ContentHash} {x : OutboxEntry}

theorem live_later (h : live (now + ms) t) : live now t := by
  simp only [live, decide_eq_true_eq] at h ⊢
  omega

theorem live_now : live now now := by simp [live]

theorem mem_hashes {outbox : Outbox} (h : hash ∈ outbox.hashes now) :
    (outbox.get now hash).isSome := (List.mem_filter.mp h).2

theorem lookup_record : (record now g hashes)[h]? =
    if h ∈ hashes then some now else g[h]?.filter (live now) := by
  rw [record, OrderedMap.lookup_mark_all, ExtTreeMap.getElem?_filter']

/-- Below the cap nothing is evicted. -/
theorem markCleared_eq (hsize : (record now g hashes).size ≤ MAX_CLEARED_TOMBSTONE)
    (hm : markCleared now g hashes oldest = some g') :
    hashes = [] ∧ g' = g ∨ g' = record now g hashes := by
  rw [markCleared] at hm
  split at hm
  case isTrue hnil => exact .inl ⟨hnil, (Option.some.inj hm).symm⟩
  case isFalse =>
    right
    have hle := Nat.not_lt.mpr hsize
    cases oldest with
    | nil =>
      rw [evictOldest, if_neg hle] at hm
      exact (Option.some.inj hm).symm
    | cons h rest =>
      rw [evictOldest, if_neg hle] at hm
      exact (Option.some.inj hm).symm

/-- What is recorded stays recorded while it is live, and what is cleared is recorded now. -/
theorem lookup_markCleared (hsize : (record now g hashes).size ≤ MAX_CLEARED_TOMBSTONE)
    (hm : markCleared now g hashes oldest = some g') (hg : h ∉ hashes → g[h]? = some t)
    (ht : live now t) : g'[h]? = some (if h ∈ hashes then now else t) := by
  rcases markCleared_eq hsize hm with ⟨rfl, rfl⟩ | rfl
  · simpa using hg
  · rw [lookup_record]
    split
    · rfl
    · rename_i hh
      rw [hg hh, Option.filter_some, if_pos ht]

/-- What is withheld is out of the outbox, and its tombstone stands. -/
def Guarded (s : Clearer) : Prop :=
  ∀ (h : ContentHash) (t : ℕ), s.cleared[h]? = some t → live s.now t →
    s.node.outbox.entries[h]? = none ∧ s.tombstone[h]? = some t

theorem Guarded.absent (hg : s.Guarded) (hw : s.Withheld h) : s.node.outbox.entries[h]? = none := by
  obtain ⟨t, ht, hlive⟩ := hw
  exact (hg h t ht hlive).1

theorem lookup_copied {cleared : ExtTreeMap ContentHash ℕ} {e : Option Event}
    (h : (copied cleared e)[hash]? = some t) : cleared[hash]? = some t := by
  unfold copied at h
  split at h
  case h_1 =>
    rw [OrderedMap.lookup_erase] at h
    split at h
    · cases h
    · exact h
  case h_2 => exact h

/-- A step of the two loops that puts nothing withheld into the outbox. -/
theorem Guarded.run {a : Pipeline.Act} (hg : s.Guarded) (hs : s.run env a = some s')
    (hout : ∀ n h x, s.node.step env a = some n → n.outbox.entries[h]? = some x → s.Withheld h →
      s.node.outbox.entries[h]? = some x) : s'.Guarded := by
  obtain ⟨n, hn, rfl⟩ := Option.map_eq_some_iff.mp hs
  intro h t ht hlive
  have hold := lookup_copied ht
  obtain ⟨habsent, htomb⟩ := hg h t hold hlive
  refine ⟨?_, htomb⟩
  by_contra hx
  obtain ⟨x, hx⟩ := Option.ne_none_iff_exists'.mp hx
  have := hout n h x hn hx ⟨t, hold, hlive⟩
  rw [habsent] at this
  cases this

theorem outbox_others {a : Pipeline.Act} (ha : others a) (hs : n.step env a = some n') :
    n'.outbox = n.outbox := by
  cases a with
  | arrive | inbound | pull | chore => cases ha
  | release hash p =>
    obtain rfl := Option.some.inj hs
    rw [Node.acked]
    split
    · simp only
      split <;> rfl
    · rfl
  | raise e =>
    obtain ⟨-, rfl⟩ := Node.step_raise hs
    rw [Node.send]
    split <;> rfl
  | leave | join => exact Option.some.inj hs ▸ rfl
  | pop =>
    obtain ⟨-, q, queue, -, rfl⟩ := Node.step_pop hs
    rfl
  | command c =>
    obtain ⟨-, -, rfl⟩ := Node.step_command hs
    cases c <;> rfl

theorem outbox_pull {now : ℕ} (hs : n.step env (.pull hash now) = some n') :
    n'.outbox = n.outbox := by
  obtain ⟨-, rfl | ⟨entry, -, rfl⟩⟩ := Node.step_pull hs <;> rfl

/-- The receive loop puts what it judged `Pass` into the outbox, and nothing else. -/
theorem lookup_resume {resync : Bool} {hand : Hand}
    (hx : (n.resume env o resync hand).outbox.entries[h]? = some x) :
    n.outbox.entries[h]? = some x ∨ ∃ a, hand = .judged a .pass ∧ a.hash = h := by
  cases hand with
  | gated a =>
    rw [Node.resume] at hx
    split at hx <;> exact .inl hx
  | acked a =>
    simp only [Node.resume] at hx
    split at hx <;> exact .inl hx
  | sighted a =>
    rw [Node.resume] at hx
    split at hx <;> exact .inl hx
  | judged a decision =>
    cases decision with
    | pass =>
      rcases Outbox.lookup_insert hx with ⟨rfl, -⟩ | hx
      · exact .inr ⟨a, rfl, rfl⟩
      · exact .inl hx
    | «defer» | block => exact .inl hx
  | cached a decision =>
    simp only [Node.resume] at hx
    split at hx <;> exact .inl hx
  | relayed a decision =>
    rw [Node.resume, Node.send] at hx
    split at hx <;> exact .inl hx
  | serving hash entry =>
    simp only [Node.resume] at hx
    split at hx <;> exact .inl hx

/-- A chore admits what an approval promotes and what goes out, and nothing else. -/
theorem lookup_perform {c : Chore} (hx : (n.perform env o c).outbox.entries[h]? = some x) :
    n.outbox.entries[h]? = some x ∨ (c = .promote h true ∧ h ∈ n.outboxStage) ∨
      ∃ kind payload, c = .act (.sendItem h kind payload false) ∧ o.targets ≠ [] := by
  cases c with
  | promote hash admittedInbound =>
    simp only [Node.perform] at hx
    split at hx
    case h_2 => exact .inl hx
    case h_1 entry hentry =>
      cases admittedInbound with
      | false => exact .inl hx
      | true =>
        rcases Outbox.lookup_insert hx with ⟨rfl, -⟩ | hx
        · exact .inr (.inl ⟨rfl, ExtTreeMap.mem_iff_isSome_getElem?.mpr (by rw [hentry]; rfl)⟩)
        · exact .inl hx
  | removeFromOutbox hashes => exact .inl (Outbox.lookup_removeMany hx)
  | clearOutbox => simp [Node.perform] at hx
  | act a =>
    cases a with
    | sendItem hash kind payload sensitive =>
      simp only [Node.perform, Node.dispatch, Node.trackInflight] at hx
      split at hx
      case isTrue => exact .inl hx
      case isFalse htargets =>
        cases sensitive with
        | true =>
          simp only [if_true] at hx
          split at hx <;> exact .inl hx
        | false =>
          simp only [Bool.false_eq_true, if_false, apply_ite Node.outbox, ite_self] at hx
          rcases Outbox.lookup_insert hx with ⟨rfl, -⟩ | hx
          · exact .inr (.inr ⟨kind, payload, rfl, htargets⟩)
          · exact .inl hx
    | _ => exact .inl hx
  | _ => exact .inl hx

theorem lookup_chore (hc : ∀ c ∈ s.node.todo.head?, s.ChoreClean o.targets c)
    (hn : s.node.step env (.chore o) = some n) (hx : n.outbox.entries[h]? = some x)
    (hw : s.Withheld h) : s.node.outbox.entries[h]? = some x := by
  obtain ⟨c, todo, htodo, rfl⟩ := Node.step_chore hn
  have hclean := hc c (by rw [htodo]; rfl)
  rcases lookup_perform hx with hx | ⟨rfl, hstaged⟩ | ⟨kind, payload, rfl, htargets⟩
  · exact hx
  · exact absurd hw (hclean rfl hstaged)
  · exact absurd hw (hclean htargets rfl)

/-- The clear empties the outbox first, so that it starts to withhold what is not in there. -/
theorem Guarded.clear (hg : s.Guarded) {tombstone : ClearedTombstone}
    (hsize : (record s.now s.tombstone hashes).size ≤ MAX_CLEARED_TOMBSTONE)
    (hout : ∀ h ∈ hashes, s.node.outbox.entries[h]? = none)
    (hm : markCleared s.now s.tombstone hashes oldest = some tombstone) :
    ({ s with
      tombstone, cleared := hashes.foldl (fun g h ↦ g.insert h s.now) s.cleared } : Clearer).Guarded := by
  intro h t ht hlive
  simp only [OrderedMap.lookup_mark_all] at ht
  split at ht
  case isTrue hh =>
    obtain rfl := Option.some.inj ht
    refine ⟨hout h hh, ?_⟩
    rw [lookup_markCleared hsize hm (fun hn ↦ absurd hh hn) hlive, if_pos hh]
  case isFalse hh =>
    obtain ⟨habsent, htomb⟩ := hg h t ht hlive
    refine ⟨habsent, ?_⟩
    rw [lookup_markCleared hsize hm (fun _ ↦ htomb) hlive, if_neg hh]

theorem Guarded.doChore (hg : s.Guarded) (hc : ∀ c ∈ s.node.todo.head?, s.ChoreClean o.targets c)
    (hs : s.doChore env o oldest = some s') : s'.Guarded := by
  simp only [Clearer.doChore] at hs
  split at hs
  case h_1 includeFavorites wall todo htodo =>
    obtain ⟨tombstone, hm, hs⟩ := Option.bind_eq_some_iff.mp hs
    obtain ⟨hsize, hout⟩ := hc (.handle (.clearHistory includeFavorites) wall) (by rw [htodo]; rfl)
    apply (hg.clear hsize hout hm).run hs
    intro n h x hn hx _
    obtain ⟨c, todo', htodo', rfl⟩ := Node.step_chore hn
    obtain ⟨rfl, rfl⟩ := List.cons.inj (htodo.symm.trans htodo')
    exact hx
  case h_2 =>
    let published := s.node.app.state.history.map (·.hash)
    exact Guarded.run (s := { s with published }) hg hs fun n h x ↦ lookup_chore hc
  case h_3 => exact hg.run hs fun n h x ↦ lookup_chore hc

theorem Guarded.step {a : Act} (hg : s.Guarded) (ha : s.Clean a) (hs : s.step env a = some s') :
    s'.Guarded := by
  have hinbound {pulls : PendingPulls} {o : Oracle} {resync : Bool}
      (ha : ∀ a, s.node.hand = some (.judged a .pass) → ¬ s.Withheld a.hash)
      (hs : ({ s with pendingPulls := pulls } : Clearer).run env (.inbound o resync) = some s') :
      s'.Guarded := by
    apply Guarded.run (s := { s with pendingPulls := pulls }) hg hs
    intro n h x hn hx hw
    obtain ⟨hand, hhand, rfl⟩ := Node.step_inbound hn
    rcases lookup_resume hx with hx | ⟨a, rfl, rfl⟩
    · exact hx
    · exact absurd hw (ha a hhand)
  cases a with
  | elapse ms =>
    obtain rfl := Option.some.inj hs
    exact fun h t ht hlive ↦ hg h t ht (live_later hlive)
  | arrive item wipes anew =>
    obtain ⟨-, hs⟩ := Option.ite_none_right_eq_some.mp hs
    have hg' : ({ s with
        cleared := if anew then s.cleared.erase item.hash else s.cleared } : Clearer).Guarded := by
      intro h t ht hlive
      cases anew with
      | false => exact hg h t ht hlive
      | true =>
        simp only [if_true, OrderedMap.lookup_erase] at ht
        split at ht
        · cases ht
        · exact hg h t ht hlive
    apply hg'.run hs
    intro n h x hn hx _
    obtain ⟨-, -, -, rfl⟩ := Node.step_arrive hn
    exact hx
  | inbound o =>
    simp only [Clearer.step] at hs
    split at hs
    case h_1 => exact hinbound ha hs
    case h_2 => exact hinbound ha hs
  | pull hash =>
    obtain ⟨-, hs⟩ := Option.ite_none_right_eq_some.mp hs
    apply hg.run hs
    intro n h x hn hx _
    rwa [outbox_pull hn] at hx
  | offer p hashes =>
    obtain ⟨-, hs⟩ := Option.ite_none_right_eq_some.mp hs
    exact Option.some.inj hs ▸ hg
  | answer =>
    obtain ⟨a, -, rfl⟩ := Option.map_eq_some_iff.mp hs
    exact hg
  | hello p =>
    obtain ⟨-, hs⟩ := Option.ite_none_right_eq_some.mp hs
    exact Option.some.inj hs ▸ hg
  | chore o oldest => exact hg.doChore (o := { o with now := s.now }) ha hs
  | node a =>
    obtain ⟨ho, hs⟩ := Option.ite_none_right_eq_some.mp hs
    apply hg.run hs
    intro n h x hn hx _
    rwa [outbox_others ho hn] at hx

/-- A test of `Clean` for a run in which nothing is approved or sent. -/
def tidy (s : Clearer) : Act → Bool
  | .inbound _ =>
    match s.node.hand with
    | some (.judged a _) => !s.cleared.contains a.hash
    | _ => true
  | .chore .. =>
    match s.node.todo with
    | .handle (.clearHistory includeFavorites) _ :: _ =>
      let hashes := clearedBy s.node.app includeFavorites
      decide ((record s.now s.tombstone hashes).size ≤ MAX_CLEARED_TOMBSTONE) &&
        hashes.all fun h ↦ s.node.outbox.entries[h]?.isNone
    | .promote .. :: _ | .act (.sendItem ..) :: _ => false
    | _ => true
  | _ => true

def clearAll : List Act :=
  .node (.command (.clearHistory true Node.midnight)) :: List.replicate 4 (.chore Node.quiet [])

end Clearer

end FluxSync.Pipeline
