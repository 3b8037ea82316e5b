import FluxSync.Daemon.Coherence

namespace FluxSync.Daemon

open Std Runs OrderedMap

variable {κ : Crypto} {d u : System} {a : Act} {s : Shared} {p : PeerId} {t : TrustedPeer}

/-- Every trusted peer that the local user has not accepted is pending. -/
def Shared.UnconfirmedGated (s : Shared) : Prop :=
  ∀ p, s.trusted.contains p → s.confirmed p = false → s.pendingPairs.contains p

/-- The process ends while none of the entries the next one will load, the first
64 with a valid key, is of a peer the local user has not accepted. -/
def EndsSettled (κ : Crypto) (d : System) : Act → Prop
  | .crash readable => readable →
      ∀ e ∈ (d.sh.peersFile.filter fun e ↦ κ.validPubkey e.staticPub).take MAX_PERSISTED_PEERS,
        d.sh.confirmed e.peerId
  | _ => True

theorem loadTrustedPeers_eq {stored : List StoredPeer} :
    loadTrustedPeers κ stored =
      ((stored.filter fun e ↦ κ.validPubkey e.staticPub).take MAX_PERSISTED_PEERS).map fun e ↦
        (κ.peerIdFor e.staticPub, ⟨e.staticPub, e.name⟩) := by
  rw [loadTrustedPeers, List.map_take]

theorem Shared.boot_contains {readable : Bool} : (s.boot κ readable).trusted.contains p ↔
    ∃ t, (p, t) ∈ loadTrustedPeers κ (if readable then s.peersFile else []) := by
  rw [ExtTreeMap.contains_eq_isSome_getElem?]
  constructor
  · intro h
    obtain ⟨t, ht⟩ := Option.isSome_iff_exists.mp h
    exact ⟨t, Shared.boot_trusted ht⟩
  · rintro ⟨t, ht⟩
    exact isSome_insert_all (.inr ⟨t, ht⟩)

/-- The pending map starts empty, so a boot gates nobody it trusts. -/
theorem Shared.boot_unconfirmedGated_iff {readable : Bool} :
    (s.boot κ readable).UnconfirmedGated ↔
      ∀ p t, (p, t) ∈ loadTrustedPeers κ (if readable then s.peersFile else []) → s.confirmed p := by
  constructor
  · intro h p t ht
    by_contra hc
    have := h p (Shared.boot_contains.mpr ⟨t, ht⟩) (by simpa [Shared.boot] using hc)
    simp [Shared.boot] at this
  · intro h p hp hc
    obtain ⟨t, ht⟩ := Shared.boot_contains.mp hp
    have := h p t ht
    simp [Shared.boot, this] at hc

theorem System.Coherent.endsSettled_iff (hd : d.Coherent κ) {readable : Bool} :
    (d.sh.boot κ readable).UnconfirmedGated ↔ EndsSettled κ d (.crash readable) := by
  rw [Shared.boot_unconfirmedGated_iff, EndsSettled, loadTrustedPeers_eq]
  cases readable with
  | false => simp
  | true =>
    have hid : ∀ e ∈ (d.sh.peersFile.filter fun e ↦ κ.validPubkey e.staticPub).take
        MAX_PERSISTED_PEERS, κ.peerIdFor e.staticPub = e.peerId := fun e he ↦
      (hd.peersFile e (List.mem_filter.mp (List.mem_of_mem_take he)).1).symm
    constructor
    · intro h _ e he
      exact hid e he ▸ h _ _ (List.mem_map_of_mem he)
    · intro h p t ht
      obtain ⟨e, he, heq⟩ := List.mem_map.mp ht
      obtain ⟨rfl, -⟩ := Prod.mk.injEq .. ▸ heq
      exact hid e he ▸ h rfl e he

/-- Every boot of a run finds unconfirmed trust gated or gone exactly when
every process of the run ended settled. -/
theorem boots_gated_iff {l : List Act} (h : Run (System.step κ) Always System.init l d) :
    (∀ l' readable t u, l' ++ [.crash readable] <+: l → Run (System.step κ) Always System.init l' t →
      System.step κ t (.crash readable) = some u → u.sh.UnconfirmedGated) ↔
      Run (System.step κ) (EndsSettled κ) System.init l d := by
  have hcoh : ∀ {l' t}, Run (System.step κ) Always System.init l' t → t.Coherent κ := fun hr ↦
    hr.invariant System.coherent_init fun _ _ _ hi _ hs ↦ hi.step hs
  rw [run_iff_forall_steps]
  constructor
  · intro hg
    refine ⟨h, fun l' a t hl hr ↦ ?_⟩
    cases a with
    | crash readable => exact (hcoh hr).endsSettled_iff.mp (hg l' readable t _ hl hr rfl)
    | _ => trivial
  · rintro ⟨-, hok⟩ l' readable t u hl hr hs
    obtain rfl := Option.some.inj hs
    exact (hcoh hr).endsSettled_iff.mpr (hok l' _ t hl hr)

/-- A peer joins under the pairing window, is accepted, and the daemon restarts. -/
def acceptThenRestart : List Act :=
  .start 0 .pairShow :: sections 0 1 ++ .start 3 (.responder (plainContact 1) false) :: sections 3 4 ++
    .start 0 (.accept 1) :: sections 0 1 ++ [.crash true]

theorem acceptThenRestart_runs :
    (acceptThenRestart.foldlM (System.step plainCrypto) System.init).isSome := by
  decide +kernel

theorem boots_gated_acceptThenRestart :
    ∃ d, Run (System.step plainCrypto) Always System.init acceptThenRestart d ∧
      d.sh.trusted.contains 1 ∧
      ((∀ l' readable t u, l' ++ [.crash readable] <+: acceptThenRestart →
        Run (System.step plainCrypto) Always System.init l' t →
        System.step plainCrypto t (.crash readable) = some u → u.sh.UnconfirmedGated) ↔
        Run (System.step plainCrypto) (EndsSettled plainCrypto) System.init acceptThenRestart d) :=
  ⟨_, run_of_isSome acceptThenRestart_runs, by decide +kernel,
    boots_gated_iff (run_of_isSome acceptThenRestart_runs)⟩

/-- The daemon restarts while the pair is still open. -/
def restartWhilePending : List Act :=
  .start 0 .pairShow :: sections 0 1 ++ .start 3 (.responder (plainContact 1) false) :: sections 3 4 ++
    [.crash true]

theorem restartWhilePending_runs :
    (restartWhilePending.foldlM (System.step plainCrypto) System.init).isSome := by
  decide +kernel

theorem restartWhilePending_ungated :
    ∃ d, Run (System.step plainCrypto) Always System.init restartWhilePending d ∧
      ¬ d.sh.UnconfirmedGated := by
  refine ⟨_, run_of_isSome restartWhilePending_runs, fun h ↦ ?_⟩
  have := h 1 (by decide +kernel) (by decide +kernel)
  revert this
  decide +kernel

end FluxSync.Daemon
