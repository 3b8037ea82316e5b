import FluxSync.Daemon.Records

namespace FluxSync.Daemon

open Std

variable {κ : Crypto} {d u : System} {a : Act} {i j : ℕ} {ch : Choice} {s : Shared} {pc : Pc} {n : Next}
variable {p : PeerId} {t : TrustedPeer}

/-- The contact a task may still enroll. -/
def Pc.candidate : Pc → Option Contact
  | .handshake (.resolve c _) | .pair (.cap c) | .pair (.confirmed c) | .pair (.insert c _) => some c
  | _ => none

theorem Pc.Admits.candidate {c : Contact} (h : pc.Admits s c) : pc.candidate = some c := by
  obtain ⟨known, rfl, -⟩ | ⟨already, rfl⟩ := h <;> rfl

theorem Caller.resume_candidate (k : Caller) (ok : Bool) : (k.resume ok).candidate = none := by
  cases k with
  | tofu c known => cases ok <;> rfl
  | handshake c role =>
    cases role with
    | initiator sasGate => cases sasGate <;> rfl
    | rekey => rfl
    | responder known => rfl
  | _ => cases ok <;> rfl

theorem advance_candidate {c : Contact} (h : advance i ch s pc = some n)
    (hc : n.pc.candidate = some c) : pc.candidate = some c := by
  cases pc with
  | idle => simp [advance] at h
  | handshake pc =>
    cases handshakeStep h with
    | @trusts _ known => cases known <;> simp [respond, Pc.candidate] at hc
    | @tofuPark _ known => cases known <;> simp [respond, Pc.candidate] at hc
    | _ => simp [Pc.candidate] at hc
  | peers pc =>
    cases peersStep h <;> first
      | simp [Caller.resume_candidate] at hc; done
      | simp [Pc.candidate] at hc
  | pair pc => cases pairStep h <;> first | exact hc | simp [Pc.candidate] at hc
  | pending pc => cases pendingStep h <;> simp [Pc.candidate] at hc
  | teardown pc =>
    cases teardownStep h with
    | @purged next => cases next <;> simp [AfterPurge.pc, Pc.candidate] at hc
    | _ => simp [Pc.candidate] at hc
  | data pc =>
    cases dataStep h with
    | @passed p f =>
      cases f with
      | item relay => cases relay <;> simp [DataFrame.admitted, Pc.candidate] at hc
      | _ => simp [DataFrame.admitted, Pc.candidate] at hc
    | @sent what k => cases k <;> simp [AfterSend.pc, Pc.candidate] at hc
    | _ => simp [Pc.candidate] at hc

theorem spawned_candidate {pc' : Pc} (h : advance i ch s pc = some n) (hs : n.spawned = some pc') :
    pc'.candidate = none := by
  obtain ⟨c, already, -, rfl⟩ | ⟨-, rfl⟩ := advance_spawned h hs
  · rfl
  · rfl

/-- Ids are computed from keys wherever a record or a contact is kept. -/
structure System.Coherent (κ : Crypto) (d : System) : Prop where
  trusted : ∀ p t, d.sh.trusted[p]? = some t → p = κ.peerIdFor t.staticPub
  peersFile : ∀ e ∈ d.sh.peersFile, e.peerId = κ.peerIdFor e.staticPub
  stored : ∀ i, ∀ e ∈ (d.tasks i).stored, e.peerId = κ.peerIdFor e.staticPub
  restorable : ∀ i, ∀ r ∈ (d.tasks i).restorable, r.1 = κ.peerIdFor r.2.staticPub
  candidate : ∀ i c, (d.tasks i).candidate = some c → c.peer = κ.peerIdFor c.staticPub

namespace System

theorem coherent_init : init.Coherent κ where
  trusted p t h := by simp [init] at h
  peersFile e h := by simp [init] at h
  stored i e h := by simp [init, Pc.stored] at h
  restorable i r h := by simp [init, Pc.restorable] at h
  candidate i c h := by simp [init, Pc.candidate] at h

theorem mem_loadTrustedPeers {stored : List StoredPeer} (h : (p, t) ∈ loadTrustedPeers κ stored) :
    p = κ.peerIdFor t.staticPub ∧ ∃ e ∈ stored, e.staticPub = t.staticPub := by
  obtain ⟨e, he, heq⟩ := List.mem_map.mp (List.mem_of_mem_take h)
  obtain ⟨rfl, rfl⟩ := Prod.mk.injEq .. ▸ heq
  exact ⟨rfl, e, (List.mem_filter.mp he).1, rfl⟩

theorem Move.candidate {c : Contact} (h : Move κ d a u) (hc : (u.tasks j).candidate = some c) :
    (d.tasks j).candidate = some c ∨
      ∃ op, a = .start j op ∧ op.admissible κ d.sh ∧ op.contact = some c := by
  have hu := h.came j
  generalize u.tasks j = pc' at hu hc
  cases hu with
  | stays => exact .inl hc
  | @starts op ha _ _ hop =>
    refine .inr ⟨op, ha, hop, ?_⟩
    cases op <;> simp_all [Op.entry, Pc.candidate, Op.contact]
  | moves _ hn => exact .inl (advance_candidate hn hc)
  | spawns _ hn hs => simp [spawned_candidate hn hs] at hc
  | crashes => simp [Pc.candidate] at hc

theorem Coherent.step (hd : d.Coherent κ) (h : step κ d a = some u) : u.Coherent κ := by
  have hm := move_of_step h
  have hadm : ∀ c, a.Admits d c → c.peer = κ.peerIdFor c.staticPub := by
    rintro c ⟨i, ch, -, hc⟩
    exact hd.candidate i c hc.candidate
  constructor
  · intro p t ht
    obtain ht | ⟨c, hc, rfl, hk⟩ | ⟨i, ch, -, hr⟩ | ⟨readable, -, hl⟩ := hm.trusted ht
    · exact hd.trusted p t ht
    · exact hk ▸ hadm c hc
    · exact hd.restorable i _ hr.restorable
    · exact (mem_loadTrustedPeers hl).1
  · intro e he
    obtain he | ⟨i, he⟩ := hm.peersFile he
    · exact hd.peersFile e he
    · exact hd.stored i e he
  · intro i e he
    obtain he | he | ⟨t, ht, hk⟩ | ⟨c, hc, hp, hk⟩ := hm.stored he
    · exact hd.stored i e he
    · exact hd.peersFile e he
    · exact hk ▸ hd.trusted _ t ht
    · rw [hp, hk]
      exact hadm c hc
  · intro i r hr
    obtain hr | hr := hm.restorable hr
    · exact hd.restorable i r hr
    · exact hd.trusted _ _ hr
  · intro i c hc
    obtain hc | ⟨op, -, hop, hcon⟩ := hm.candidate hc
    · exact hd.candidate i c hc
    · simp only [Op.admissible, hcon, Bool.and_eq_true, Option.all_some, decide_eq_true_eq] at hop
      exact hop.2.1

end System

/-- The local commands run as task 0 and the reaper as task 2. -/
def Caller.runsOn (i : ℕ) : Caller → Bool
  | .revoke .. | .reject .. | .unpair _ => i = 0
  | .reap .. => i = 2
  | _ => true

def TeardownPc.runsOn (i : ℕ) : TeardownPc → Bool
  | .rejectTake _ | .rejectRemove .. | .revokeRemove _ | .unpairClone | .unpairClear _
  | .unpairRestore _ | .unpairLinks => i = 0
  | .reaperSweep | .reaperRemove _ => i = 2
  | .purge _ (.save k) | .retrust k | .repend k => k.runsOn i
  | _ => true

def PeersPc.caller : PeersPc → Caller
  | .lastAddr _ _ k | .upsert k _ | .upsertWrite k _ _ | .save k | .snapshot k _ _
  | .saveWrite k _ _ => k

def Pc.runsOn (i : ℕ) : Pc → Bool
  | .peers pc => pc.caller.runsOn i
  | .teardown pc => pc.runsOn i
  | _ => true

theorem Caller.resume_runsOn {k : Caller} (h : k.runsOn i) (ok : Bool) : (k.resume ok).runsOn i := by
  cases k with
  | handshake c role =>
    cases role with
    | initiator sasGate => cases sasGate <;> rfl
    | rekey => rfl
    | responder known => rfl
  | _ => cases ok <;> first | rfl | exact h

theorem advance_runsOn (h : advance i ch s pc = some n) (hpc : pc.runsOn i) : n.pc.runsOn i := by
  cases pc with
  | idle => simp [advance] at h
  | handshake pc =>
    cases handshakeStep h with
    | @trusts _ known => cases known <;> rfl
    | @tofuPark _ known => cases known <;> rfl
    | _ => rfl
  | peers pc => cases peersStep h <;> first | exact Caller.resume_runsOn hpc _ | exact hpc
  | pair pc => cases pairStep h <;> rfl
  | pending pc => cases pendingStep h <;> rfl
  | teardown pc =>
    cases teardownStep h with
    | @purged next => cases next <;> first | rfl | exact hpc
    | @purge p rest next => cases next <;> first | rfl | exact hpc
    | _ => first | rfl | exact hpc
  | data pc =>
    cases dataStep h with
    | @passed p f =>
      cases f with
      | item relay => cases relay <;> rfl
      | _ => rfl
    | @sent what k => cases k <;> rfl
    | _ => rfl

theorem spawned_runsOn {pc' : Pc} (h : advance i ch s pc = some n) (hs : n.spawned = some pc') :
    pc'.runsOn j := by
  obtain ⟨c, already, -, rfl⟩ | ⟨-, rfl⟩ := advance_spawned h hs
  · rfl
  · rfl

def System.OnTask (d : System) : Prop := ∀ i, (d.tasks i).runsOn i

theorem System.OnTask.step (hd : d.OnTask) (h : System.step κ d a = some u) : u.OnTask := by
  intro j
  have hu := (move_of_step h).came j
  generalize u.tasks j = pc' at hu
  cases hu with
  | stays => exact hd j
  | @starts op _ _ ht _ => cases op <;> first | rfl | exact ht
  | moves _ hn => exact advance_runsOn hn (hd j)
  | spawns _ hn hs => exact spawned_runsOn hn hs
  | crashes => rfl

end FluxSync.Daemon
