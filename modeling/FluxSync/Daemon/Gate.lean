import FluxSync.Daemon.Egress

namespace FluxSync.Daemon

open Std Function Runs OrderedMap

variable {κ : Crypto} {d u : System} {a : Act} {i j : ℕ} {ch : Choice} {s : Shared} {pc : Pc} {n : Next}
variable {p : PeerId} {w : Payload → Bool} {m : PeerId → Bool}

/-- The gate found `p` not pending and has still to look whether it is trusted. -/
def Pc.vetted (p : PeerId) : Pc → Bool
  | .data (.gateTrusted q _ false) => q = p
  | _ => false

/-- The gate finds `p` not pending. -/
def Pc.vets (s : Shared) (p : PeerId) : Pc → Bool
  | .data (.gatePending q _) => q = p && !s.pendingPairs.contains q
  | _ => false

/-- The section may install a session of `p`. -/
def Pc.links (p : PeerId) : Pc → Bool
  | .handshake (.install c _) => c.peer = p
  | _ => false

theorem respond_vetted (c : Contact) (known : Bool) : (respond c known).vetted p = false := by
  cases known <;> rfl

theorem Caller.resume_vetted (k : Caller) (ok : Bool) : (k.resume ok).vetted p = false := by
  cases k with
  | handshake c role =>
    cases role with
    | initiator sasGate => cases sasGate <;> rfl
    | _ => rfl
  | _ => cases ok <;> rfl

theorem DataFrame.admitted_vetted (q : PeerId) (f : DataFrame) : (f.admitted q).vetted p = false := by
  cases f with
  | item relay => cases relay <;> rfl
  | _ => rfl

theorem advance_vetted (h : advance i ch s pc = some n) (hv : n.Leaves ch (Pc.vetted p)) :
    pc.vets s p := by
  have hsent : n.spawned = none → n.pc.vetted p := by
    intro hs
    obtain hv | ⟨_, hsp, -⟩ := hv
    · exact hv
    · simp [hs] at hsp
  cases pc with
  | idle => simp [advance] at h
  | handshake pc =>
    cases handshakeStep h with
    | trusts _ _ _ => simpa [respond_vetted] using hsent rfl
    | tofuPark _ => simpa [respond_vetted] using hsent rfl
    | _ => simpa [Pc.vetted] using hsent rfl
  | peers pc =>
    cases peersStep h with
    | skip _ | unreadable _ _ | upserted _ | upsertFail _ _ | saved _ | saveFail _ _ =>
      simpa [Caller.resume_vetted] using hsent rfl
    | _ => simpa [Pc.vetted] using hsent rfl
  | pair pc => cases pairStep h <;> simp [Next.Leaves, Pc.vetted] at hv
  | pending pc => cases pendingStep h <;> simp [Pc.vetted] at hv
  | teardown pc =>
    cases teardownStep h with
    | @purged next => cases next <;> simp [AfterPurge.pc, Pc.vetted] at hv
    | _ => simp [Pc.vetted] at hv
  | data pc =>
    cases dataStep h with
    | @gatePending q f =>
      have hv := hsent rfl
      cases hp : s.pendingPairs.contains q with
      | true => simp [Pc.vetted, hp] at hv
      | false => simpa [Pc.vets, Pc.vetted, hp] using hv
    | @passed q f => simpa [DataFrame.admitted_vetted] using hsent rfl
    | @sent what k => cases k <;> simp [AfterSend.pc, Pc.vetted] at hv
    | retransmit => simp [Next.Leaves, Pc.vetted] at hv
    | _ => simpa [Pc.vetted] using hsent rfl

theorem System.Move.vetted (h : Move κ d a u) (hv : (u.tasks j).vetted p) :
    (d.tasks j).vetted p ∨ ∃ i ch, a = .lockSection i ch ∧ (d.tasks i).vets d.sh p := by
  have hc := h.came j
  generalize u.tasks j = pc at hc hv
  cases hc with
  | stays => exact .inl hv
  | @starts op => cases op <;> simp [Op.entry, Pc.vetted] at hv
  | @moves ch n ha hn => exact .inr ⟨j, ch, ha, advance_vetted hn (.inl hv)⟩
  | spawns ha hn hs =>
    obtain ⟨c, already, -, rfl⟩ | ⟨-, rfl⟩ := advance_spawned hn hs <;> simp [Pc.vetted] at hv
  | crashes => simp [Pc.vetted] at hv

theorem advance_linked (h : advance i ch s pc = some n) (hp : p ∈ n.sh.linked) :
    p ∈ s.linked ∨ pc.links p := by
  cases pc with
  | idle => simp [advance] at h
  | handshake pc =>
    cases handshakeStep h with
    | @install c role _ =>
      simp only [Shared.link] at hp
      split at hp
      · exact .inl hp
      · obtain hp | hp := List.mem_append.mp hp
        · exact .inl hp
        · exact .inr (by simpa [Pc.links] using (List.mem_singleton.mp hp).symm)
    | tofuPark hs =>
      obtain ⟨pending, -, rfl⟩ := Shared.park_eq hs
      exact .inl hp
    | gatedPark hs =>
      obtain ⟨pending, -, rfl⟩ := Shared.park_eq hs
      exact .inl hp
    | _ => exact .inl hp
  | peers pc =>
    cases peersStep h with
    | @unreadable k _ _ _ => cases k <;> exact .inl hp
    | @upserted k _ _ _ => cases k <;> exact .inl hp
    | @upsertFail k _ _ _ _ => cases k <;> exact .inl hp
    | _ => exact .inl hp
  | pair pc => cases pairStep h <;> exact .inl hp
  | pending pc =>
    cases pendingStep h with
    | verifyPark hs =>
      obtain ⟨pending, -, rfl⟩ := Shared.park_eq hs
      exact .inl hp
    | _ => exact .inl hp
  | teardown pc =>
    cases teardownStep h with
    | purge => exact .inl (List.mem_of_mem_filter hp)
    | _ => exact .inl hp
  | data pc => cases dataStep h <;> exact .inl hp

theorem System.Move.linked (h : Move κ d a u) (hp : p ∈ u.sh.linked) :
    p ∈ d.sh.linked ∨ ∃ i ch, a = .lockSection i ch ∧ (d.tasks i).links p := by
  have hu := h.became
  generalize u.sh = s' at hu hp
  cases hu with
  | stays => exact .inl hp
  | @moves i ch n ha hn => exact (advance_linked hn hp).imp id fun hl ↦ ⟨i, ch, ha, hl⟩
  | ambient hs =>
    cases a <;> simp only [Act.ambient, Option.some.injEq, reduceCtorEq] at hs <;> subst hs
    · exact .inl hp
    · exact .inl (List.mem_of_mem_filter hp)
    · exact .inl hp
    · exact .inl hp
  | crashes => simp [Shared.boot] at hp

/-- No data of `p` is about to pass the gate, and none of the kinds `w` is about
to reach a session of it. -/
structure System.Sealed (w : Payload → Bool) (p : PeerId) (d : System) : Prop where
  vetted : ∀ j, (d.tasks j).vetted p → d.sh.trusted.contains p = false
  owed : ∀ j, (d.tasks j).owes w p → p ∉ d.sh.linked

/-- What keeps `p` sealed in a section of task `i`. -/
structure System.Guards (w : Payload → Bool) (p : PeerId) (d : System) (i : ℕ) : Prop where
  vets : (d.tasks i).vets d.sh p → d.sh.trusted.contains p = false
  picks : (d.tasks i).picks w d.sh p → (d.tasks i).vetted p ∨ p ∉ d.sh.linked
  trusts : ((d.tasks i).admits d.sh p ∨ ∃ t, (d.tasks i).Restores p t) →
    ∀ j, (d.tasks j).vetted p = false
  links : (d.tasks i).links p → ∀ j, (d.tasks j).owes w p = false

def Act.Guarded (w : Payload → Bool) (p : PeerId) (d : System) : Act → Prop
  | .lockSection i _ => d.Guards w p i
  | _ => True

/-- The step lets a data frame of `p` through the gate. -/
def System.Passes (d : System) (a : Act) (p : PeerId) : Prop :=
  ∃ i ch, a = .lockSection i ch ∧ (d.tasks i).vetted p ∧ d.sh.trusted.contains p

namespace System.Sealed

theorem picks_none (hd : d.Sealed w p) (hg : d.Guards w p i) (hp : (d.tasks i).picks w d.sh p) :
    p ∉ d.sh.linked := by
  refine (hg.picks hp).elim (fun hv ↦ ?_) id
  have hnot := hd.vetted i hv
  -- a vetted task picks its peer only where it finds it trusted
  generalize d.tasks i = pc at hp hv
  cases pc with
  | data pc =>
    cases pc with
    | gateTrusted q f pending =>
      cases pending with
      | false =>
        obtain rfl : q = p := by simpa [Pc.vetted] using hv
        simp [Pc.picks, hnot] at hp
      | true => simp [Pc.vetted] at hv
    | _ => simp [Pc.vetted] at hv
  | _ => simp [Pc.vetted] at hv

theorem step (hd : d.Sealed w p) (ha : a.Guarded w p d) (h : System.step κ d a = some u) :
    u.Sealed w p := by
  have hm := move_of_step h
  constructor
  · intro j hj
    by_contra ht
    rw [Bool.not_eq_false, ExtTreeMap.contains_eq_isSome_getElem?, Option.isSome_iff_exists] at ht
    obtain ⟨t, ht⟩ := ht
    have hold : d.sh.trusted.contains p = false := by
      obtain hv | ⟨i, ch, rfl, hv⟩ := hm.vetted hj
      · exact hd.vetted j hv
      · exact ha.vets hv
    obtain ht | ⟨c, ⟨i, ch, rfl, hc⟩, rfl, -⟩ | ⟨i, ch, rfl, hr⟩ | ⟨readable, rfl, -⟩ := hm.trusted ht
    · rw [ExtTreeMap.contains_eq_isSome_getElem?, ht] at hold
      simp at hold
    · obtain hv | ⟨i', ch', heq, hv⟩ := hm.vetted hj
      · exact Bool.false_ne_true ((ha.trusts (.inl hc.admits) j).symm.trans hv)
      · obtain ⟨rfl, rfl⟩ := Act.lockSection.inj heq
        obtain ⟨known, hpc, -⟩ | ⟨already, hpc⟩ := hc <;> simp [hpc, Pc.vets] at hv
    · obtain hv | ⟨i', ch', heq, hv⟩ := hm.vetted hj
      · exact Bool.false_ne_true ((ha.trusts (.inr ⟨t, hr⟩) j).symm.trans hv)
      · obtain ⟨rfl, rfl⟩ := Act.lockSection.inj heq
        obtain ⟨k, hpc, -⟩ | ⟨snapshot, hpc, -⟩ := hr <;> simp [hpc, Pc.vets] at hv
    · obtain rfl := Option.some.inj h
      simp [Pc.vetted] at hj
  · intro j hj hp
    obtain hl | ⟨i, ch, rfl, hl⟩ := hm.linked hp
    · obtain ⟨k, hk⟩ | ⟨i, ch, rfl, hpick⟩ := hm.owes hj
      · exact hd.owed k hk hl
      · exact hd.picks_none ha hpick hl
    · obtain ⟨k, hk⟩ | ⟨i', ch', heq, hpick⟩ := hm.owes hj
      · exact Bool.false_ne_true ((ha.links hl k).symm.trans hk)
      · obtain ⟨rfl, rfl⟩ := Act.lockSection.inj heq
        generalize d.tasks i = pc at hl hpick
        cases pc <;> simp [Pc.links, Pc.picks] at hl hpick

end System.Sealed

/-- `p` was admitted by a pair command and the user has not accepted it since,
after a section. -/
def Pc.awaits (s : Shared) (m : PeerId → Bool) (p : PeerId) : Pc → Bool
  | .pair (.insert c _) => !s.trusted.contains c.peer && c.peer = p || m p
  | .pending (.accept q) => m p && !(s.pendingPairs.contains q && q = p)
  | _ => m p

def awaiting (d : System) : Act → (PeerId → Bool) → PeerId → Bool
  | .lockSection i _, m => fun p ↦ (d.tasks i).awaits d.sh m p
  | _, m => m

/-- No clipboard frame of an awaiting peer is accepted and none is sent to it. -/
def Silent (x : System × (PeerId → Bool)) (a : Act) : Prop :=
  ∀ p, x.2 p → ¬ x.1.Passes a p ∧ ∀ what, ¬ x.1.Sends a p what

/-- `Act.Guarded` for the first `k` tasks, as a test. -/
def guarded (k : ℕ) (w : Payload → Bool) (p : PeerId) (d : System) : Act → Bool
  | .lockSection i _ =>
    let pc := d.tasks i
    let all (f : Pc → Bool) : Bool := (List.range k).all fun j ↦ !f (d.tasks j)
    (!pc.vets d.sh p || !d.sh.trusted.contains p) &&
      (!pc.picks w d.sh p || pc.vetted p || p ∉ d.sh.linked) &&
      (!(pc.admits d.sh p || pc.restorable.any fun r ↦ r.1 = p) || all (Pc.vetted p)) &&
      (!pc.links p || all (Pc.owes w p))
  | _ => true

/-- `Gated` for the first `k` tasks and pair commands for the peers in `ps`, as a test. -/
def gated (k : ℕ) (ps : List PeerId) (x : System × (PeerId → Bool)) (a : Act) : Bool :=
  a.within k &&
    (match a with
    | .lockSection i _ =>
      match x.1.tasks i with
      | .pair (.insert c _) => decide (c.peer ∈ ps)
      | _ => true
    | _ => true) &&
    ps.all fun p ↦ !awaiting x.1 a x.2 p || guarded k (fun _ ↦ true) p x.1 a &&
      (x.2 p || (List.range k).all fun j ↦ !(x.1.tasks j).owes (fun _ ↦ true) p)

end FluxSync.Daemon
