import FluxSync.Daemon.Gate

namespace FluxSync.Daemon

open Std Runs OrderedMap

variable {κ : Crypto} {d d₀ u : System} {a : Act} {i j : ℕ} {ch : Choice} {s : Shared} {pc : Pc}
variable {n : Next} {p : PeerId}

/-- The operations by which a peer is dialled, paired or accepted. -/
def Op.bringsIn : Op → Bool
  | .responder .. | .dial _ | .rekey _ | .pair _ | .accept _ => true
  | _ => false

def Caller.bringsIn : Caller → Bool
  | .tofu .. | .pair .. | .handshake .. => true
  | _ => false

/-- The places of those operations. -/
def Pc.bringsIn : Pc → Bool
  | .handshake _ | .pair _ | .pending (.accept _) => true
  | .peers (.lastAddr _ _ k) | .peers (.upsert k _) | .peers (.upsertWrite k _ _)
  | .peers (.save k) | .peers (.snapshot k _ _) | .peers (.saveWrite k _ _)
  | .teardown (.retrust k) | .teardown (.repend k) | .teardown (.purge _ (.save k)) => k.bringsIn
  | _ => false

/-- What may happen beside a reject or an expiry: nothing that brings a peer in,
and no new process. -/
def Act.bringsIn : Act → Bool
  | .start _ op => op.bringsIn
  | .crash _ => true
  | _ => false

theorem Caller.resume_bringsIn {k : Caller} (ok : Bool) (h : k.bringsIn = false) :
    (k.resume ok).bringsIn = false := by
  cases k <;> cases ok <;> first | rfl | simp [Caller.bringsIn] at h

theorem Op.entry_bringsIn (op : Op) : op.entry.bringsIn = op.bringsIn := by
  cases op <;> rfl

theorem advance_bringsIn (h : advance i ch s pc = some n) (hb : pc.bringsIn = false) :
    n.pc.bringsIn = false ∧ ∀ pc', n.spawned = some pc' → pc'.bringsIn = false := by
  cases pc with
  | idle => simp [advance] at h
  | handshake pc => simp [Pc.bringsIn] at hb
  | pair pc => simp [Pc.bringsIn] at hb
  | peers pc =>
    cases peersStep h with
    | skip _ | unreadable _ _ | upserted _ | upsertFail _ _ | saved _ | saveFail _ _ =>
      exact ⟨Caller.resume_bringsIn _ hb, by simp⟩
    | _ => exact ⟨hb, by simp⟩
  | pending pc =>
    cases pendingStep h with
    | accept _ => simp [Pc.bringsIn] at hb
    | _ => exact ⟨rfl, by simp⟩
  | teardown pc =>
    cases teardownStep h with
    | @purged next => exact ⟨by cases next <;> simp_all [AfterPurge.pc, Pc.bringsIn], by simp⟩
    | @purge q rest next => exact ⟨by cases next <;> simp_all [Pc.bringsIn], by simp⟩
    | retrust _ => exact ⟨hb, by simp⟩
    | _ => exact ⟨rfl, by simp⟩
  | data pc =>
    cases dataStep h with
    | @passed q f =>
      refine ⟨?_, by simp⟩
      cases f with
      | item relay => cases relay <;> rfl
      | _ => rfl
    | @sent what k => cases k <;> exact ⟨rfl, by simp⟩
    | retransmit => exact ⟨rfl, fun pc' hs ↦ Option.some.inj hs ▸ rfl⟩
    | _ => exact ⟨rfl, by simp⟩

/-- Nothing but an accept or an admission changes what the user has confirmed. -/
theorem advance_confirmed (h : advance i ch s pc = some n) (hb : pc.bringsIn = false) :
    n.sh.confirmed = s.confirmed := by
  cases pc with
  | idle => simp [advance] at h
  | handshake pc => simp [Pc.bringsIn] at hb
  | pair pc => simp [Pc.bringsIn] at hb
  | peers pc =>
    cases peersStep h with
    | @unreadable k _ _ _ => cases k <;> rfl
    | @upserted k _ _ _ => cases k <;> rfl
    | @upsertFail k _ _ _ _ => cases k <;> rfl
    | _ => rfl
  | pending pc =>
    cases pendingStep h with
    | accept _ => simp [Pc.bringsIn] at hb
    | verifyPark hs =>
      obtain ⟨pending, -, rfl⟩ := Shared.park_eq hs
      rfl
    | _ => rfl
  | teardown pc => cases teardownStep h <;> rfl
  | data pc => cases dataStep h <;> rfl

/-- No task is under way that brings a peer in. -/
def System.Closed (d : System) : Prop := ∀ j, (d.tasks j).bringsIn = false

theorem System.Closed.step (hd : d.Closed) (ha : a.bringsIn = false)
    (h : System.step κ d a = some u) : u.Closed ∧ u.sh.confirmed = d.sh.confirmed := by
  have hm := move_of_step h
  constructor
  · intro j
    have hc := hm.came j
    generalize u.tasks j = pc at hc
    cases hc with
    | stays => exact hd j
    | @starts op hop => exact op.entry_bringsIn.trans (by simpa [hop, Act.bringsIn] using ha)
    | moves _ hn => exact (advance_bringsIn hn (hd j)).1
    | @spawns i ch n pc _ hn hs _ => exact (advance_bringsIn hn (hd i)).2 pc hs
    | crashes => rfl
  · have hu := hm.became
    generalize u.sh = s' at hu
    cases hu with
    | stays => rfl
    | @moves i ch n _ hn => exact advance_confirmed hn (hd i)
    | ambient hs =>
      cases a <;> simp only [Act.ambient, Option.some.injEq, reduceCtorEq] at hs <;> subst hs <;>
        rfl
    | crashes hc => simp [hc, Act.bringsIn] at ha

/-- The section does not act on `p` in a gap of its teardown, trusted and not
pending, or linked and not pending: the gate does not find it there, no item is
addressed to it there, and no rollback trusts it again behind the gate's back. -/
structure System.Ungapped (d : System) (p : PeerId) (i : ℕ) : Prop where
  vets : (d.tasks i).vets d.sh p → d.sh.trusted.contains p = false
  picks : (d.tasks i).picks Payload.isItem d.sh p → (d.tasks i).vetted p ∨ p ∉ d.sh.linked
  restores : ∀ t, (d.tasks i).Restores p t → ∀ j, (d.tasks j).vetted p = false

def OutsideGaps (d : System) : Act → Prop
  | .lockSection i _ => ∀ p, d.sh.confirmed p = false → d.Ungapped p i
  | _ => True

theorem System.Closed.guarded (hd : d.Closed) (ha : OutsideGaps d a) (hp : d.sh.confirmed p = false) :
    a.Guarded Payload.isItem p d := by
  cases a with
  | lockSection i ch =>
    obtain ⟨hvets, hpicks, hrestores⟩ := ha p hp
    have hclosed := hd i
    refine ⟨hvets, hpicks, fun ht ↦ ?_, fun hl ↦ ?_⟩
    · obtain ht | ⟨t, hr⟩ := ht
      · generalize d.tasks i = pc at ht hclosed
        cases pc <;> simp [Pc.admits, Pc.bringsIn] at ht hclosed
      · exact hrestores t hr
    · generalize d.tasks i = pc at hl hclosed
      cases pc <;> simp [Pc.links, Pc.bringsIn] at hl hclosed
  | _ => trivial

def Pc.isIdle : Pc → Bool
  | .idle => true
  | _ => false

theorem System.Within.idle {k : ℕ} (hd : d.Within k)
    (h : (List.range k).all fun j ↦ (d.tasks j).isIdle) : ∀ j, d.tasks j = .idle := by
  intro j
  by_cases hj : j < k
  · have hidle := List.all_eq_true.mp h j (List.mem_range.mpr hj)
    generalize d.tasks j = pc at hidle
    cases pc with
    | idle => rfl
    | _ => simp [Pc.isIdle] at hidle
  · exact hd j (Nat.le_of_not_lt hj)

/-- A peer joins under the pairing window, links, and waits to be accepted. -/
def tofuUnanswered : List Act :=
  .start 0 .pairShow :: sections 0 1 ++ .start 3 (.responder (plainContact 1) false) :: sections 3 8

theorem tofuUnanswered_runs :
    (tofuUnanswered.foldlM (System.step plainCrypto) System.init).isSome := by
  decide +kernel

def unanswered : System := (tofuUnanswered.foldlM (System.step plainCrypto) System.init).get
  tofuUnanswered_runs

end FluxSync.Daemon
