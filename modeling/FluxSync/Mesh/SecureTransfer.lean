import FluxSync.Crypto.Channel
import FluxSync.Mesh.Sizes

/-! ## An item that crosses a session over a hostile network -/

namespace FluxSync.Mesh

open Runs Crypto Proto

/-- A session from `peer` to this daemon, and what its frames are put together in. -/
structure Pipe where
  channel : Channel
  receiver : Receiver
  /-- What came out of the session, and the ticks in between. Nothing reads it. -/
  log : List Delivery

inductive Transit
  | send (plaintext : List UInt8)
  | deliver (framed : List UInt8) (now : ℕ)
  | cleanup (now : ℕ)

variable (cbor : Ciborium) (blake3 : ByteArray → ContentHash) (κ : Cipher) (peer : PeerId)

def Pipe.hand (s : Pipe) (channel : Channel) (d : Delivery) : Option Pipe :=
  (s.receiver.step cbor blake3 d).map fun receiver ↦ ⟨channel, receiver, s.log ++ [d]⟩

/-- The sender seals any frames, and the network delivers any bytes at any time. -/
def Pipe.step (s : Pipe) : Transit → Option Pipe
  | .send plaintext => some { s with channel := s.channel.send κ plaintext }
  | .deliver framed now =>
    (s.channel.deliver κ framed).bind fun x ↦
      match x.2 with
      | some plaintext => s.hand cbor blake3 x.1 (.datagram peer plaintext now)
      | none => some { s with channel := x.1 }
  | .cleanup now => s.hand cbor blake3 s.channel (.cleanup now)

/-- Whatever comes out of the session neither evicts nor times out the transfer. -/
def Calm (item : Item) (s : Pipe) : Transit → Prop
  | .send _ => True
  | .deliver framed now => ∀ channel plaintext, s.channel.deliver κ framed = some (channel, some plaintext) →
      Undisturbed cbor blake3 item peer s.receiver (.datagram peer plaintext now)
  | .cleanup now => Undisturbed cbor blake3 item peer s.receiver (.cleanup now)

/-- The frame of a plaintext comes in after it was sent, and before 64 later ones. -/
def InTime (s₀ : Pipe) (l : List Transit) (plaintext : List UInt8) : Prop :=
  ∃ before now after t, ∃ i : UInt64,
    l = before ++ .deliver (frame i (κ.writeMessage i plaintext)) now :: after ∧
    Run (Pipe.step cbor blake3 κ peer) Always s₀ before t ∧
    t.channel.sent[i.toNat]? = some plaintext ∧
    ∀ (j : UInt64) q then_, .deliver (frame j (κ.writeMessage j q)) then_ ∈ before →
      j.toNat < i.toNat + 64

def Pipe.new (map : ReassemblyMap) : Pipe := ⟨.new, ⟨map, []⟩, []⟩

def plaintextOf : Delivery → Option (List UInt8)
  | .datagram _ plaintext _ => some plaintext
  | .cleanup _ => none

/-- What came out of the session went into the receiver, and what came in in time came out. -/
structure Piped (item : Item) (map : ReassemblyMap) (l : List Transit) (s : Pipe) : Prop where
  faithful : s.channel.Faithful
  run : Run (Receiver.step cbor blake3) (Undisturbed cbor blake3 item peer) ⟨map, []⟩ s.log s.receiver
  delivered : ∀ n ∈ s.channel.accepted, ∃ (i : UInt64) (q : List UInt8) (now : ℕ),
    .deliver (frame i (κ.writeMessage i q)) now ∈ l ∧ i.toNat = n
  logged : ∀ p ∈ s.channel.received.map Prod.snd, Delivered s.log peer p
  arrived : ∀ p, InTime cbor blake3 κ peer (.new map) l p → p ∈ s.channel.received.map Prod.snd

variable {cbor blake3 κ peer} {item : Item} {map : ReassemblyMap} {l : List Transit} {s t : Pipe}
  {a : Transit} {p framed : List UInt8} {now : ℕ}

/-- What is in time after one more step came in before, or it comes in now. -/
theorem InTime.snoc (h : InTime cbor blake3 κ peer (.new map) (l ++ [a]) p)
    (hrun : Run (Pipe.step cbor blake3 κ peer) Always (.new map) l s) :
    InTime cbor blake3 κ peer (.new map) l p ∨ ∃ now, ∃ i : UInt64,
      a = .deliver (frame i (κ.writeMessage i p)) now ∧ s.channel.sent[i.toNat]? = some p ∧
        ∀ (j : UInt64) q now, .deliver (frame j (κ.writeMessage j q)) now ∈ l →
          j.toNat < i.toNat + 64 := by
  obtain ⟨before, now, after, t, i, hl, ht, hsent, hwin⟩ := h
  obtain rfl | ⟨after, b, rfl⟩ := List.eq_nil_or_concat after
  · obtain ⟨rfl, hab⟩ := List.append_inj' hl rfl
    obtain rfl : a = _ := by simpa using hab
    obtain rfl := ht.deterministic hrun
    exact .inr ⟨now, i, rfl, hsent, hwin⟩
  · have hl : l ++ [a] = (before ++ .deliver (frame i (κ.writeMessage i p)) now :: after) ++ [b] := by
      simpa using hl
    obtain ⟨rfl, -⟩ := List.append_inj' hl rfl
    exact .inl ⟨before, now, after, t, i, rfl, ht, hsent, hwin⟩

theorem Piped.send (h : Piped cbor blake3 κ peer item map l s)
    (hrun : Run (Pipe.step cbor blake3 κ peer) Always (.new map) l s) (plaintext : List UInt8) :
    Piped cbor blake3 κ peer item map (l ++ [.send plaintext])
      { s with channel := s.channel.send κ plaintext } := by
  have hreceived : (s.channel.send κ plaintext).received = s.channel.received := by
    obtain hs | ⟨-, hs⟩ := Channel.send_cases κ s.channel plaintext
    · rw [hs]
    · rw [hs]
  refine ⟨h.faithful.send plaintext, h.run, ?_, ?_, ?_⟩
  · intro n hn
    rw [Channel.accepted, hreceived] at hn
    obtain ⟨i, q, now, hmem, hi⟩ := h.delivered n hn
    exact ⟨i, q, now, List.mem_append_left _ hmem, hi⟩
  · rw [hreceived]
    exact h.logged
  · intro p hp
    rw [hreceived]
    obtain hp | ⟨now, i, ha, -⟩ := hp.snoc hrun
    · exact h.arrived p hp
    · cases ha

theorem delivered_append {log : List Delivery} {d : Delivery} (h : Delivered log peer p) :
    Delivered (log ++ [d]) peer p := by
  obtain ⟨now, hmem⟩ := h
  exact ⟨now, List.mem_append_left _ hmem⟩

theorem Piped.cleanup (h : Piped cbor blake3 κ peer item map l s)
    (hrun : Run (Pipe.step cbor blake3 κ peer) Always (.new map) l s)
    (ha : Undisturbed cbor blake3 item peer s.receiver (.cleanup now))
    (ht : s.hand cbor blake3 s.channel (.cleanup now) = some t) :
    Piped cbor blake3 κ peer item map (l ++ [.cleanup now]) t := by
  obtain ⟨receiver, hr, rfl⟩ := Option.map_eq_some_iff.mp ht
  refine ⟨h.faithful, h.run.snoc ha hr, ?_, ?_, ?_⟩
  · intro n hn
    obtain ⟨i, q, now, hmem, hi⟩ := h.delivered n hn
    exact ⟨i, q, now, List.mem_append_left _ hmem, hi⟩
  · exact fun p hp ↦ delivered_append (h.logged p hp)
  · intro p hp
    obtain hp | ⟨now, i, ha, -⟩ := hp.snoc hrun
    · exact h.arrived p hp
    · cases ha

/-- What came in in time is among what has come out after this step. -/
theorem Piped.arrived_snoc (h : Piped cbor blake3 κ peer item map l s)
    (hrun : Run (Pipe.step cbor blake3 κ peer) Always (.new map) l s) {channel : Channel}
    {out : Option (List UInt8)}
    (hreceived : channel.received =
      s.channel.received ++ (out.map fun p ↦ (nonceOf framed, p)).toList)
    (hwin : ∀ n p, framed = frame n (κ.writeMessage n p) → s.channel.sent[n.toNat]? = some p →
      (∀ m ∈ s.channel.accepted, m < n.toNat + 64) → (n.toNat, p) ∈ channel.received)
    (hp : InTime cbor blake3 κ peer (.new map) (l ++ [.deliver framed now]) p) :
    p ∈ channel.received.map Prod.snd := by
  obtain hp | ⟨now, i, ha, hsent, hlater⟩ := hp.snoc hrun
  · rw [hreceived, List.map_append]
    exact List.mem_append_left _ (h.arrived p hp)
  · obtain ⟨rfl, rfl⟩ := Transit.deliver.inj ha
    refine List.mem_map_of_mem (hwin i p rfl hsent ?_)
    intro m hm
    obtain ⟨j, q, now, hmem, rfl⟩ := h.delivered m hm
    exact hlater j q now hmem

theorem Piped.deliver (h : Piped cbor blake3 κ peer item map l s)
    (hrun : Run (Pipe.step cbor blake3 κ peer) Always (.new map) l s)
    (ha : Calm cbor blake3 κ peer item s (.deliver framed now))
    (ht : Pipe.step cbor blake3 κ peer s (.deliver framed now) = some t) :
    Piped cbor blake3 κ peer item map (l ++ [.deliver framed now]) t := by
  obtain ⟨channel, out, hdel, hfaithful, -, hreceived, hgenuine, hwin⟩ :=
    h.faithful.deliver (κ := κ) framed
  have harrived : ∀ p, InTime cbor blake3 κ peer (.new map) (l ++ [.deliver framed now]) p →
      p ∈ channel.received.map Prod.snd := fun p ↦ h.arrived_snoc hrun hreceived hwin
  rw [Pipe.step, hdel, Option.bind_some] at ht
  have hdelivered : ∀ n ∈ channel.accepted, ∃ (i : UInt64) (q : List UInt8) (now' : ℕ),
      .deliver (frame i (κ.writeMessage i q)) now' ∈ l ++ [.deliver framed now] ∧ i.toNat = n := by
    intro n hn
    rw [Channel.accepted, hreceived, List.map_append, List.mem_append] at hn
    obtain hn | hn := hn
    · obtain ⟨i, q, now, hmem, hi⟩ := h.delivered n hn
      exact ⟨i, q, now, List.mem_append_left _ hmem, hi⟩
    · cases out with
      | none => cases hn
      | some q =>
        obtain ⟨i, rfl⟩ := hgenuine q rfl
        refine ⟨i, q, now, by simp, ?_⟩
        simpa [nonceOf_frame, eq_comm] using hn
  cases out with
  | none =>
    obtain rfl := Option.some.inj ht
    refine ⟨hfaithful, h.run, hdelivered, ?_, harrived⟩
    rw [hreceived]
    simpa using h.logged
  | some q =>
    obtain ⟨receiver, hr, rfl⟩ := Option.map_eq_some_iff.mp ht
    refine ⟨hfaithful, h.run.snoc (ha channel q hdel) hr, hdelivered, ?_, harrived⟩
    intro p hp
    dsimp only at hp
    rw [hreceived, List.map_append, List.mem_append] at hp
    obtain hp | hp := hp
    · exact delivered_append (h.logged p hp)
    · obtain rfl : p = q := by simpa using hp
      exact ⟨now, by simp⟩

end FluxSync.Mesh
