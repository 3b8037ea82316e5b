import FluxSync.Crypto.Session

/-! ## One direction of a session over a network that anyone writes to -/

namespace FluxSync.Crypto

open Runs SlidingWindow

def TAGLEN : ℕ := 16

/-- The longest message of `snow`. -/
def MAXMSGLEN : ℕ := 65535

/-- How `snow` seals under a nonce, with the key of one direction. -/
structure Cipher where
  writeMessage : UInt64 → List UInt8 → List UInt8
  tagged : ∀ n p, TAGLEN ≤ (writeMessage n p).length

/-- `Session::encrypt`: the next nonce and the frame. `snow` refuses what is too long, and its
nonce does not wrap. -/
def encrypt (κ : Cipher) (sendingNonce : UInt64) (plaintext : List UInt8) :
    Option (UInt64 × List UInt8) :=
  if MAXMSGLEN < plaintext.length + TAGLEN ∨ sendingNonce = 0xffffffffffffffff then none
  else some (sendingNonce + 1, frame sendingNonce (κ.writeMessage sendingNonce plaintext))

/-- The cipher of the receiver, which opens what the sender has sealed so far and nothing else. -/
def opened (κ : Cipher) (sent : List (List UInt8)) : Aead where
  produced n c := sent[n.toNat]?.filter fun p ↦ κ.writeMessage n p = c
  tagged := by
    intro n c p h
    obtain ⟨-, hp⟩ := Option.filter_eq_some_iff.mp h
    have hc : κ.writeMessage n p = c := by simpa using hp
    exact hc ▸ κ.tagged n p

structure Channel where
  sendingNonce : UInt64
  session : Session
  /-- What was sealed, under the nonces 0, 1 and so on. -/
  sent : List (List UInt8)
  /-- What `decrypt` has returned, with its nonces. Nothing reads it. -/
  received : List (ℕ × List UInt8)

namespace Channel

def new : Channel := ⟨0, .new, [], []⟩

def send (κ : Cipher) (s : Channel) (plaintext : List UInt8) : Channel :=
  match encrypt κ s.sendingNonce plaintext with
  | none => s
  | some (nonce, _) => { s with sendingNonce := nonce, sent := s.sent ++ [plaintext] }

/-- A datagram of any bytes. -/
def deliver (κ : Cipher) (s : Channel) (framed : List UInt8) : Option (Channel × Option (List UInt8)) :=
  (s.session.decrypt (opened κ s.sent) framed).map fun x ↦
    ({ s with
        session := x.1
        received := s.received ++ (x.2.map fun p ↦ (nonceOf framed, p)).toList }, x.2)

def accepted (s : Channel) : List ℕ := s.received.map Prod.fst

/-- What was received was sent, and each of it once. -/
structure Faithful (s : Channel) : Prop where
  nonce : s.sendingNonce.toNat = s.sent.length
  window : s.session.replay.Represents {n | n ∈ s.accepted}
  once : s.accepted.Nodup
  sent : ∀ n p, (n, p) ∈ s.received → s.sent[n]? = some p

variable {κ : Cipher} {s t : Channel} {framed plaintext p : List UInt8} {out : Option (List UInt8)}
  {n : UInt64} {l : List (List UInt8)}

theorem send_cases (κ : Cipher) (s : Channel) (plaintext : List UInt8) :
    s.send κ plaintext = s ∨ s.sendingNonce ≠ 0xffffffffffffffff ∧ s.send κ plaintext =
      { s with sendingNonce := s.sendingNonce + 1, sent := s.sent ++ [plaintext] } := by
  rw [send, encrypt]
  split_ifs with h
  · exact .inl rfl
  · exact .inr ⟨(not_or.mp h).2, rfl⟩

theorem Faithful.send (h : Faithful s) (plaintext : List UInt8) : Faithful (s.send κ plaintext) := by
  obtain hs | ⟨hn, hs⟩ := send_cases κ s plaintext
  · rw [hs]
    exact h
  · rw [hs]
    refine ⟨?_, h.window, h.once, ?_⟩
    · have hlt := s.sendingNonce.toNat_lt
      have htop : s.sendingNonce.toNat ≠ 2 ^ 64 - 1 := fun he ↦ hn (UInt64.toNat_inj.mp he)
      have hnonce := h.nonce
      show (s.sendingNonce + 1).toNat = (s.sent ++ [plaintext]).length
      rw [UInt64.toNat_add, UInt64.toNat_one, List.length_append, List.length_singleton]
      omega
    · intro n p hp
      exact List.getElem?_append_left (List.getElem?_eq_some_iff.mp (h.sent n p hp)).1 ▸ h.sent n p hp

theorem sent_prefix (κ : Cipher) (s : Channel) (plaintext : List UInt8) :
    s.sent <+: (s.send κ plaintext).sent := by
  obtain hs | ⟨-, hs⟩ := send_cases κ s plaintext
  · rw [hs]
  · rw [hs]
    exact List.prefix_append _ _

theorem opened_eq_some {c : List UInt8} :
    (opened κ l).produced n c = some p ↔ l[n.toNat]? = some p ∧ κ.writeMessage n p = c := by
  rw [opened, Option.filter_eq_some_iff, decide_eq_true_eq]

/-- A datagram is dropped, or it is a frame that was sent and not received before. -/
theorem Faithful.deliver (h : Faithful s) (framed : List UInt8) :
    ∃ t out, s.deliver κ framed = some (t, out) ∧ Faithful t ∧ t.sent = s.sent ∧
      t.received = s.received ++ (out.map fun p ↦ (nonceOf framed, p)).toList ∧
      (∀ p, out = some p → ∃ n, framed = frame n (κ.writeMessage n p)) ∧
      ∀ n p, framed = frame n (κ.writeMessage n p) → s.sent[n.toNat]? = some p →
        (∀ m ∈ s.accepted, m < n.toNat + 64) → (n.toNat, p) ∈ t.received := by
  obtain ⟨session, out, hdec, hout⟩ := decrypt_spec (opened κ s.sent) h.window framed
  refine ⟨{ s with session, received := s.received ++ (out.map fun p ↦ (nonceOf framed, p)).toList },
    out, by rw [Channel.deliver, hdec]; rfl, ?_, rfl, rfl, ?_, ?_⟩
  · obtain ⟨p, rfl, ⟨n, c, rfl, hp, hadm⟩, hrep⟩ | ⟨rfl, hsame, -⟩ := hout
    · have hsent := (opened_eq_some.mp hp).1
      have haccepted : (s.received ++ [(n.toNat, p)]).map Prod.fst = s.accepted ++ [n.toNat] := by
        rw [List.map_append]
        rfl
      refine ⟨h.nonce, ?_, ?_, ?_⟩
      · rw [nonceOf_frame] at hrep
        simp only [accepted, Option.map_some, Option.toList_some, nonceOf_frame, haccepted]
        convert hrep using 1
        ext m
        show m ∈ s.accepted ++ [n.toNat] ↔ m = n.toNat ∨ m ∈ s.accepted
        rw [List.mem_append, List.mem_singleton, or_comm]
      · simp only [accepted, Option.map_some, Option.toList_some, nonceOf_frame, haccepted]
        refine List.nodup_append.mpr ⟨h.once, List.nodup_singleton _, ?_⟩
        rintro m hm _ hmem rfl
        obtain rfl := List.mem_singleton.mp hmem
        exact hadm.1 hm
      · intro m q hq
        simp only [Option.map_some, Option.toList_some, nonceOf_frame, List.mem_append,
          List.mem_singleton, Prod.mk.injEq] at hq
        obtain hq | ⟨rfl, rfl⟩ := hq
        · exact h.sent m q hq
        · exact hsent
    · simp only [Option.map_none, Option.toList_none, List.append_nil]
      exact ⟨h.nonce, hsame ▸ h.window, h.once, h.sent⟩
  · rintro p rfl
    obtain ⟨q, hq, ⟨n, c, rfl, hp, -⟩, -⟩ | ⟨hnone, -⟩ := hout
    · obtain rfl := Option.some.inj hq
      exact ⟨n, by rw [(opened_eq_some.mp hp).2]⟩
    · cases hnone
  · rintro n p rfl hp hwin
    by_cases hmem : n.toNat ∈ s.accepted
    · obtain ⟨⟨m, q⟩, hq, hm⟩ := List.mem_map.mp hmem
      obtain rfl : m = n.toNat := hm
      obtain rfl := Option.some.inj ((h.sent _ q hq).symm.trans hp)
      exact List.mem_append_left _ hq
    · have hacc : Acceptable (opened κ s.sent) {m | m ∈ s.accepted} (frame n (κ.writeMessage n p)) p :=
        acceptable_frame.mpr ⟨opened_eq_some.mpr ⟨hp, rfl⟩, hmem, hwin⟩
      obtain ⟨q, rfl, hq, -⟩ | ⟨-, -, hno⟩ := hout
      · obtain ⟨hq, -⟩ := acceptable_frame.mp hq
        obtain ⟨hq, -⟩ := opened_eq_some.mp hq
        obtain rfl := Option.some.inj (hq.symm.trans hp)
        simp [nonceOf_frame]
      · exact absurd hacc (hno p)

end Channel

end FluxSync.Crypto
