import FluxSync.Foundation.Runs
import FluxSync.Foundation.SlidingWindow
import Mathlib

namespace FluxSync.Crypto

open Runs SlidingWindow

def NONCE_PREFIX_LEN : ℕ := 8

def REPLAY_WINDOW : UInt64 := 64

/-- `a - b`, where a smaller `a` panics. -/
def checkedSub (a b : UInt64) : Option UInt64 := if b ≤ a then some (a - b) else none

/-- `a << b`, where a shift by the width or more panics. -/
def checkedShl (a b : UInt64) : Option UInt64 := if b < 64 then some (a <<< b) else none

structure ReplayWindow where
  highest : UInt64
  bitmap : UInt64
  started : Bool

namespace ReplayWindow

def default : ReplayWindow := ⟨0, 0, false⟩

def isFresh (w : ReplayWindow) (nonce : UInt64) : Option Bool :=
  if !w.started || w.highest < nonce then some true
  else do
    let diff ← checkedSub w.highest nonce
    if REPLAY_WINDOW ≤ diff then some false
    else
      let bit ← checkedShl 1 diff
      some (w.bitmap &&& bit == 0)

def accept (w : ReplayWindow) (nonce : UInt64) : Option ReplayWindow :=
  if !w.started then some ⟨nonce, 1, true⟩
  else if w.highest < nonce then do
    let shift ← checkedSub nonce w.highest
    let bitmap ← if REPLAY_WINDOW ≤ shift then some 1 else (checkedShl w.bitmap shift).map (· ||| 1)
    some { w with bitmap := bitmap, highest := nonce }
  else do
    let diff ← checkedSub w.highest nonce
    if diff < REPLAY_WINDOW then
      let bit ← checkedShl 1 diff
      some { w with bitmap := w.bitmap ||| bit }
    else some w

end ReplayWindow

/-- What the peer's cipher produced: the plaintext of each ciphertext under its
nonce. `snow` opens these and nothing else, and each carries a tag of 16 bytes. -/
structure Aead where
  produced : UInt64 → List UInt8 → Option (List UInt8)
  tagged : ∀ n c p, produced n c = some p → 16 ≤ c.length

structure Session where
  receivingNonce : UInt64
  replay : ReplayWindow

def Session.new : Session := ⟨0, .default⟩

def toLeBytes (n : UInt64) : List UInt8 :=
  (List.range NONCE_PREFIX_LEN).map fun i ↦ UInt8.ofNat (n.toNat >>> (8 * i))

def fromLeBytes (bytes : List UInt8) : UInt64 :=
  UInt64.ofNat (bytes.foldr (fun b acc ↦ b.toNat + 256 * acc) 0)

/-- `first_chunk` and the rest of the frame. -/
def splitNonce (framed : List UInt8) : Option (UInt64 × List UInt8) :=
  if NONCE_PREFIX_LEN ≤ framed.length then
    some (fromLeBytes (framed.take NONCE_PREFIX_LEN), framed.drop NONCE_PREFIX_LEN)
  else none

/-- `none` is a panic, and an inner `none` the one opaque error. -/
def Session.decrypt (aead : Aead) (s : Session) (framed : List UInt8) :
    Option (Session × Option (List UInt8)) :=
  match splitNonce framed with
  | none => some (s, none)
  | some (nonce, ciphertext) =>
    if ciphertext.length < 16 then some (s, none)
    else do
      let fresh ← s.replay.isFresh nonce
      if !fresh then some (s, none)
      else
        let s := { s with receivingNonce := nonce }
        match aead.produced s.receivingNonce ciphertext with
        | none => some (s, none)
        | some buf =>
          let replay ← s.replay.accept nonce
          some ({ s with replay := replay }, some buf)

/-- The frame `encrypt` makes of a ciphertext. -/
def frame (n : UInt64) (c : List UInt8) : List UInt8 := toLeBytes n ++ c

theorem fromLeBytes_toLeBytes (n : UInt64) : fromLeBytes (toLeBytes n) = n := by
  have hn : n.toNat < 2 ^ 64 := n.toNat_lt
  apply UInt64.toNat_inj.mp
  simp only [fromLeBytes, toLeBytes, NONCE_PREFIX_LEN, List.range, List.range.loop, List.map_cons,
    List.map_nil, List.foldr_cons, List.foldr_nil, UInt8.toNat_ofNat',
    Nat.shiftRight_eq_div_pow, UInt64.toNat_ofNat']
  omega

@[simp]
theorem toLeBytes_length (n : UInt64) : (toLeBytes n).length = NONCE_PREFIX_LEN := by
  simp [toLeBytes]

theorem splitNonce_frame (n : UInt64) (c : List UInt8) : splitNonce (frame n c) = some (n, c) := by
  have hlen := toLeBytes_length n
  rw [splitNonce, if_pos (by simp [frame]), frame, List.take_left' hlen, List.drop_left' hlen,
    fromLeBytes_toLeBytes]

theorem shl_toBitVec {a d : UInt64} (hd : d < 64) :
    (a <<< d).toBitVec = a.toBitVec <<< d.toNat := by
  have hlt : d.toNat < 64 := hd
  rw [UInt64.toBitVec_shiftLeft, BitVec.shiftLeft_eq', BitVec.toNat_umod]
  congr 1
  exact Nat.mod_eq_of_lt hlt

theorem test_bit {b d : UInt64} (hd : d < 64) :
    (b &&& 1 <<< d == 0) = !b.toBitVec.getLsbD d.toNat := by
  rw [Bool.eq_iff_iff, beq_iff_eq, ← UInt64.toBitVec_inj, UInt64.toBitVec_and, shl_toBitVec hd]
  have hone : (1 : UInt64).toBitVec <<< d.toNat = BitVec.twoPow 64 d.toNat := by
    rw [BitVec.twoPow_eq]
    rfl
  rw [hone, BitVec.and_twoPow]
  have hlt : d.toNat < 64 := hd
  cases hb : b.toBitVec.getLsbD d.toNat with
  | true =>
    simp only [if_true, Bool.not_true, Bool.false_eq_true, iff_false]
    intro h0
    have := congrArg (fun x ↦ x.getLsbD d.toNat) h0
    simp [hlt] at this
  | false => simp

namespace ReplayWindow

variable {w : ReplayWindow} {n : UInt64} {S : Set ℕ}

/-- The window stands for the set `S` of nonces accepted so far. -/
def Represents (w : ReplayWindow) (S : Set ℕ) : Prop :=
  if w.started then Marks w.bitmap.toBitVec w.highest.toNat S else S = ∅

theorem isFresh_eq (hw : w.Represents S) (n : UInt64) :
    ∃ fresh, w.isFresh n = some fresh ∧ (fresh ↔ Admissible 64 S n.toNat) := by
  unfold Represents at hw
  cases hs : w.started with
  | false =>
    simp only [hs, Bool.false_eq_true, if_false] at hw
    exact ⟨true, by simp [isFresh, hs], iff_of_true rfl (hw ▸ admissible_empty)⟩
  | true =>
    rw [hs, if_pos rfl] at hw
    by_cases hlt : w.highest < n
    · exact ⟨true, by simp [isFresh, hlt],
        iff_of_true rfl (hw.admissible_of_lt (UInt64.lt_iff_toNat_lt.mp hlt))⟩
    · have hle : n ≤ w.highest := UInt64.not_lt.mp hlt
      have hnat : n.toNat ≤ w.highest.toNat := UInt64.le_iff_toNat_le.mp hle
      have hdiff : (w.highest - n).toNat = w.highest.toNat - n.toNat := UInt64.toNat_sub_of_le _ _ hle
      by_cases hold : REPLAY_WINDOW ≤ w.highest - n
      · refine ⟨false, by simp [isFresh, hs, hlt, checkedSub, hle, hold], ?_⟩
        rw [hw.admissible_iff hnat, ← hdiff]
        have hge : 64 ≤ (w.highest - n).toNat := hold
        simp
        omega
      · have hlt64 : w.highest - n < 64 := UInt64.not_le.mp hold
        refine ⟨w.bitmap &&& 1 <<< (w.highest - n) == 0,
          by simp [isFresh, hs, hlt, checkedSub, hle, hold, checkedShl, hlt64], ?_⟩
        rw [test_bit hlt64, hw.admissible_iff hnat, ← hdiff]
        have : (w.highest - n).toNat < 64 := hlt64
        simp [this]

theorem accept_represents (hw : w.Represents S) (hn : Admissible 64 S n.toNat) :
    ∃ w', w.accept n = some w' ∧ w'.Represents (insert n.toNat S) := by
  unfold Represents at hw
  cases hs : w.started with
  | false =>
    simp only [hs, Bool.false_eq_true, if_false] at hw
    refine ⟨⟨n, 1, true⟩, by simp [accept, hs], ?_⟩
    simpa [Represents, hw] using marks_one (k := 64) n.toNat
  | true =>
    rw [hs, if_pos rfl] at hw
    by_cases hlt : w.highest < n
    · have hle : w.highest ≤ n := UInt64.le_of_lt hlt
      have hshift : (n - w.highest).toNat = n.toNat - w.highest.toNat :=
        UInt64.toNat_sub_of_le _ _ hle
      have hmarks := hw.advance (UInt64.lt_iff_toNat_lt.mp hlt)
      rw [← hshift] at hmarks
      by_cases hfar : REPLAY_WINDOW ≤ n - w.highest
      · refine ⟨{ w with bitmap := 1, highest := n },
          by simp [accept, hs, hlt, checkedSub, hle, hfar], ?_⟩
        have hge : 64 ≤ (n - w.highest).toNat := hfar
        have hzero : w.bitmap.toBitVec <<< (n - w.highest).toNat = 0#64 :=
          BitVec.shiftLeft_eq_zero hge
        rw [hzero, BitVec.zero_or] at hmarks
        simpa [Represents, hs] using hmarks
      · have hlt64 : n - w.highest < 64 := UInt64.not_le.mp hfar
        refine ⟨{ w with bitmap := w.bitmap <<< (n - w.highest) ||| 1, highest := n },
          by simp [accept, hs, hlt, checkedSub, hle, hfar, checkedShl, hlt64], ?_⟩
        rw [← shl_toBitVec hlt64] at hmarks
        simpa [Represents, hs] using hmarks
    · have hle : n ≤ w.highest := UInt64.not_lt.mp hlt
      have hnat : n.toNat ≤ w.highest.toNat := UInt64.le_iff_toNat_le.mp hle
      have hdiff : (w.highest - n).toNat = w.highest.toNat - n.toNat := UInt64.toNat_sub_of_le _ _ hle
      obtain ⟨hk, -⟩ := (hw.admissible_iff hnat).mp hn
      have hmarks := hw.record hnat hk
      rw [← hdiff] at hk hmarks
      have hlt64 : w.highest - n < 64 := hk
      have hnear : w.highest - n < REPLAY_WINDOW := hlt64
      refine ⟨{ w with bitmap := w.bitmap ||| 1 <<< (w.highest - n) },
        by simp [accept, hs, hlt, checkedSub, hle, hnear, checkedShl, hlt64], ?_⟩
      have hone : (1 : UInt64).toBitVec = 1#64 := rfl
      rw [← hone, ← shl_toBitVec hlt64] at hmarks
      simpa [Represents, hs] using hmarks

end ReplayWindow

theorem toLeBytes_fromLeBytes {l : List UInt8} (h : l.length = NONCE_PREFIX_LEN) :
    toLeBytes (fromLeBytes l) = l := by
  match l, h with
  | [a, b, c, d, e, f, g, i], _ =>
    have ha := a.toNat_lt
    have hb := b.toNat_lt
    have hc := c.toNat_lt
    have hd := d.toNat_lt
    have he := e.toNat_lt
    have hf := f.toNat_lt
    have hg := g.toNat_lt
    have hi := i.toNat_lt
    simp only [fromLeBytes, toLeBytes, NONCE_PREFIX_LEN, List.range, List.range.loop,
      List.map_cons, List.map_nil, List.foldr_cons, List.foldr_nil, Nat.shiftRight_eq_div_pow,
      UInt64.toNat_ofNat', List.cons.injEq, ← UInt8.toNat_inj, UInt8.toNat_ofNat']
    refine ⟨?_, ?_, ?_, ?_, ?_, ?_, ?_, ?_, trivial⟩ <;> omega

theorem frame_of_splitNonce {framed c : List UInt8} {n : UInt64}
    (h : splitNonce framed = some (n, c)) : framed = frame n c := by
  unfold splitNonce at h
  split at h
  · obtain ⟨rfl, rfl⟩ := Prod.mk.inj (Option.some.inj h)
    rw [frame, toLeBytes_fromLeBytes (by simpa using ‹_›), List.take_append_drop]
  · simp at h

variable {aead : Aead} {s : Session} {S : Set ℕ} {framed : List UInt8}

/-- The frame opens under the peer's cipher, with a nonce the window admits. -/
def Acceptable (aead : Aead) (S : Set ℕ) (framed p : List UInt8) : Prop :=
  ∃ n c, framed = frame n c ∧ aead.produced n c = some p ∧ Admissible 64 S n.toNat

theorem acceptable_frame {n : UInt64} {c p : List UInt8} :
    Acceptable aead S (frame n c) p ↔ aead.produced n c = some p ∧ Admissible 64 S n.toNat := by
  constructor
  · rintro ⟨n', c', heq, hp, hadm⟩
    have hsplit := splitNonce_frame n' c'
    rw [← heq, splitNonce_frame] at hsplit
    obtain ⟨rfl, rfl⟩ := Prod.mk.inj (Option.some.inj hsplit)
    exact ⟨hp, hadm⟩
  · exact fun ⟨hp, hadm⟩ ↦ ⟨n, c, rfl, hp, hadm⟩

/-- The nonce a frame names. -/
def nonceOf (framed : List UInt8) : ℕ := (fromLeBytes (framed.take NONCE_PREFIX_LEN)).toNat

theorem nonceOf_frame (n : UInt64) (c : List UInt8) : nonceOf (frame n c) = n.toNat := by
  rw [nonceOf, frame, List.take_left' (toLeBytes_length n), fromLeBytes_toLeBytes]

/-- `decrypt` never panics, accepts what is acceptable and then marks its nonce,
and leaves the window alone otherwise. -/
theorem decrypt_spec (aead : Aead) (hs : s.replay.Represents S) (framed : List UInt8) :
    ∃ s' out, s.decrypt aead framed = some (s', out) ∧
      ((∃ p, out = some p ∧ Acceptable aead S framed p ∧
          s'.replay.Represents (insert (nonceOf framed) S)) ∨
        out = none ∧ s'.replay = s.replay ∧ ∀ p, ¬ Acceptable aead S framed p) := by
  cases hsplit : splitNonce framed with
  | none =>
    refine ⟨s, none, by simp [Session.decrypt, hsplit], .inr ⟨rfl, rfl, ?_⟩⟩
    rintro p ⟨n, c, rfl, -⟩
    simp [splitNonce_frame] at hsplit
  | some nc =>
    obtain ⟨n, c⟩ := nc
    obtain rfl := frame_of_splitNonce hsplit
    have hacc : ∀ p, Acceptable aead S (frame n c) p ↔ _ := fun p ↦ acceptable_frame
    by_cases hlen : c.length < 16
    · refine ⟨s, none, by simp [Session.decrypt, hsplit, hlen], .inr ⟨rfl, rfl, fun p hp ↦ ?_⟩⟩
      have := aead.tagged n c p ((hacc p).mp hp).1
      omega
    · obtain ⟨fresh, hfresh, hadm⟩ := ReplayWindow.isFresh_eq hs n
      cases fresh with
      | false =>
        refine ⟨s, none, by simp [Session.decrypt, hsplit, hlen, hfresh], .inr ⟨rfl, rfl, ?_⟩⟩
        exact fun p hp ↦ Bool.false_ne_true (hadm.mpr ((hacc p).mp hp).2)
      | true =>
        cases hopen : aead.produced n c with
        | none =>
          refine ⟨{ s with receivingNonce := n }, none,
            by simp [Session.decrypt, hsplit, hlen, hfresh, hopen], .inr ⟨rfl, rfl, fun p hp ↦ ?_⟩⟩
          have := ((hacc p).mp hp).1
          simp [hopen] at this
        | some p =>
          obtain ⟨w, hw, hrep⟩ := ReplayWindow.accept_represents hs (hadm.mp rfl)
          refine ⟨⟨n, w⟩, some p, by simp [Session.decrypt, hsplit, hlen, hfresh, hopen, hw],
            .inl ⟨p, rfl, (hacc p).mpr ⟨hopen, hadm.mp rfl⟩, ?_⟩⟩
          rwa [nonceOf_frame]

/-- One frame for `decrypt`, next to the list of the frames it has accepted. -/
def Session.received (aead : Aead) :
    Session × List (List UInt8) → List UInt8 → Option (Session × List (List UInt8)) :=
  monitored (fun s framed ↦ (s.decrypt aead framed).map Prod.fst) fun s framed accepted ↦
    match s.decrypt aead framed with
    | some (_, some _) => accepted ++ [framed]
    | _ => accepted

/-- What holds of a session and the frames it has accepted. -/
structure Tracks (s : Session) (accepted : List (List UInt8)) : Prop where
  window : s.replay.Represents {m | m ∈ accepted.map nonceOf}
  once : (accepted.map nonceOf).Nodup

theorem tracks_new : Tracks .new [] where
  window := by simp [Session.new, ReplayWindow.default, ReplayWindow.Represents]
  once := List.nodup_nil

theorem Tracks.received (aead : Aead) {accepted : List (List UInt8)} (h : Tracks s accepted)
    (framed : List UInt8) :
    ∃ x, Session.received aead (s, accepted) framed = some x ∧ Tracks x.1 x.2 := by
  obtain ⟨s', out, hdec, hout⟩ := decrypt_spec aead h.window framed
  have hstep : (s.decrypt aead framed).map Prod.fst = some s' := by
    rw [hdec]
    rfl
  rcases hout with ⟨p, rfl, hacc, hrep⟩ | ⟨rfl, hsame, -⟩
  · refine ⟨⟨s', accepted ++ [framed]⟩, monitored_eq_some.mpr ⟨hstep, by rw [hdec]⟩, ?_, ?_⟩
    · convert hrep using 1
      ext m
      simp [or_comm, eq_comm]
    · rw [List.map_append, List.nodup_append]
      refine ⟨h.once, List.nodup_singleton _, fun m hm m' hm' ↦ ?_⟩
      obtain rfl := List.mem_singleton.mp hm'
      rcases hacc with ⟨n, c, rfl, -, hadm⟩
      rw [nonceOf_frame]
      rintro rfl
      exact hadm.1 hm
  · refine ⟨⟨s', accepted⟩, monitored_eq_some.mpr ⟨hstep, by rw [hdec]⟩, ?_, h.once⟩
    exact hsame ▸ h.window

theorem tracks_history (aead : Aead) (history : List (List UInt8)) :
    ∃ x, history.foldlM (Session.received aead) (.new, []) = some x ∧ Tracks x.1 x.2 := by
  induction history using List.reverseRecOn with
  | nil => exact ⟨_, rfl, tracks_new⟩
  | append_singleton history framed ih =>
    obtain ⟨x, hx, htracks⟩ := ih
    obtain ⟨y, hy, htracks'⟩ := htracks.received aead framed
    exact ⟨y, by simp [List.foldlM_append, hx, hy], htracks'⟩

theorem admissible_iff_max {l : List ℕ} {n : ℕ} :
    Admissible 64 {m | m ∈ l} n ↔ n ∉ l ∧ ∀ h ∈ l.max?, h < n ∨ h - n < 64 := by
  refine and_congr_right fun _ ↦ ⟨fun hlt h hmax ↦ ?_, fun hmax m hm ↦ ?_⟩
  · have := hlt h (List.max?_mem hmax)
    omega
  · obtain ⟨h, hh⟩ := Option.isSome_iff_exists.mp (List.isSome_max?_of_mem hm)
    have hle : m ≤ h := (List.max?_eq_some_iff.mp hh).2 m hm
    have := hmax h hh
    omega

/-- After any frames at all, `decrypt` panics on no frame. It has accepted each
nonce at most once, accepts a frame that the peer produced exactly when its
nonce is new and above or less than 64 below the highest accepted one, accepts
no other frame, and a rejection leaves the window as it was. -/
theorem decrypt_exact (aead : Aead) (history : List (List UInt8)) (framed : List UInt8) :
    ∃ s accepted, history.foldlM (Session.received aead) (.new, []) = some (s, accepted) ∧
      (accepted.map nonceOf).Nodup ∧
      ∃ s' out, s.decrypt aead framed = some (s', out) ∧
        (∀ n c p, framed = frame n c → aead.produced n c = some p →
          (out = some p ↔ n.toNat ∉ accepted.map nonceOf ∧
            ∀ h ∈ (accepted.map nonceOf).max?, h < n.toNat ∨ h - n.toNat < 64)) ∧
        (out.isSome → ∃ n c p, framed = frame n c ∧ aead.produced n c = some p) ∧
        (out = none → s'.replay = s.replay) := by
  obtain ⟨⟨s, accepted⟩, hrun, htracks⟩ := tracks_history aead history
  obtain ⟨s', out, hdec, hout⟩ := decrypt_spec aead htracks.window framed
  refine ⟨s, accepted, hrun, htracks.once, s', out, hdec, fun n c p hf hp ↦ ?_, fun hsome ↦ ?_,
    fun hnone ↦ ?_⟩
  · subst hf
    rw [← admissible_iff_max]
    obtain ⟨q, rfl, hq, -⟩ | ⟨rfl, -, hno⟩ := hout
    · obtain ⟨hq, hadm⟩ := acceptable_frame.mp hq
      exact iff_of_true (hq.symm.trans hp) hadm
    · exact iff_of_false (by simp) fun hadm ↦ hno p (acceptable_frame.mpr ⟨hp, hadm⟩)
  · obtain ⟨q, -, ⟨n, c, hf, hq, -⟩, -⟩ | ⟨rfl, -⟩ := hout
    · exact ⟨n, c, q, hf, hq⟩
    · simp at hsome
  · obtain ⟨q, rfl, -⟩ | ⟨-, hsame, -⟩ := hout
    · simp at hnone
    · exact hsame

end FluxSync.Crypto
