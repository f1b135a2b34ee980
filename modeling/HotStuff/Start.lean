import HotStuff.Agreement

/-!
# The configuration `HotStuffBase::start` sets up

`start` registers the `i`-th address as replica `i`, counts as peers the addresses other
than its own `listen_addr`, and calls `on_init(nfaulty)` with `nfaulty = peers.size() / 2`
(the comment above it reads `((n - 1) + 1 - 1) / 3`), so that `nmajority = 2 * nfaulty + 1`.
Over distinct addresses every replica computes the same `nfaulty`. Two quorums of
`nmajority` replicas then share more than `nfaulty` replicas, so an honest one, for every
number of replicas but two, and the replicas `start` sets up are a system of the agreement
theorem. With two replicas a quorum is one replica: two honest replicas that do not hear
from each other each commit their own block at height 1. A quorum is then also all the
replicas but at most one, and none of an odd number of them: one silent honest replica of
five keeps every new block from a certificate, though `nfaulty` is 2.
-/

namespace HotStuff

section Start

variable {α : Type} [DecidableEq α]

/-- `nfaulty` as `HotStuffBase::start` computes it: half the number of peers, the
addresses other than `listen_addr`. -/
def startNfaulty (addrs : List α) (listenAddr : α) : Nat :=
  (addrs.filter (· != listenAddr)).length / 2

variable (H : BlockData → Hash)

/-- The core `HotStuffBase::start` leaves: `add_replica(i, ..)` for the `i`-th address,
then `on_init(nfaulty)`. -/
def startCore (id : ReplicaID) (addrs : List α) (listenAddr : α) : Core :=
  Core.init H id (List.range addrs.length) (startNfaulty addrs listenAddr)

@[simp] theorem startCore_nmajority (id : ReplicaID) (addrs : List α) (listenAddr : α) :
    (startCore H id addrs listenAddr).nmajority = 2 * startNfaulty addrs listenAddr + 1 :=
  rfl

theorem startNfaulty_eq {addrs : List α} {self : α} (hn : addrs.Nodup) (hs : self ∈ addrs) :
    startNfaulty addrs self = (addrs.length - 1) / 2 := by
  rw [startNfaulty, ← hn.erase_eq_filter, List.length_erase_of_mem hs]

/-- Two quorums of the replicas `start` sets up share more than `nfaulty` replicas
exactly when there are not two replicas. -/
theorem start_quorums_intersect (id : ReplicaID) {addrs : List α} {self : α} (hn : addrs.Nodup)
    (hs : self ∈ addrs) :
    (∀ Q Q' : Finset ReplicaID, Q ⊆ Finset.range addrs.length → Q' ⊆ Finset.range addrs.length →
      (startCore H id addrs self).nmajority ≤ Q.card → (startCore H id addrs self).nmajority ≤ Q'.card →
      startNfaulty addrs self < (Q ∩ Q').card) ↔ addrs.length ≠ 2 := by
  rw [startCore_nmajority, startNfaulty_eq hn hs]
  constructor
  · intro h h2
    have h01 := h {0} {1} (by simp [h2]) (by simp [h2]) (by simp [h2]) (by simp [h2])
    simp [h2] at h01
  · intro h2 Q Q' hQ hQ' hq hq'
    have hu := Finset.card_le_card (Finset.union_subset hQ hQ')
    have hi := Finset.card_union_add_card_inter Q Q'
    rw [Finset.card_range] at hu
    omega

/-- With two replicas the quorum is one replica, and two honest replicas that hear nothing
from each other each propose three blocks and commit their own, different, block at
height 1. -/
theorem start_quorums_intersect_two :
    ¬ (∀ Q Q' : Finset ReplicaID, Q ⊆ Finset.range 2 → Q' ⊆ Finset.range 2 →
      (startCore encodeHash 0 [10, 11] 10).nmajority ≤ Q.card →
      (startCore encodeHash 0 [10, 11] 10).nmajority ≤ Q'.card →
      startNfaulty [10, 11] 10 < (Q ∩ Q').card) ∧
    ∃ c c', Reachable encodeHash Input.Valid (startCore encodeHash 0 [10, 11] 10) c ∧
      Reachable encodeHash Input.Valid (startCore encodeHash 1 [10, 11] 11) c' ∧
      (c.heap 1).decision = true ∧ (c'.heap 1).decision = true ∧
      (c.heap 1).height = 1 ∧ (c'.heap 1).height = 1 ∧ (c.heap 1).hash ≠ (c'.heap 1).hash :=
  ⟨(@start_quorums_intersect ℕ _ encodeHash 0 [10, 11] 10 (by decide) (by decide)).not.mpr (by decide), _, _,
    reachable_of_runFrom encodeHash _ [.propose [7] [0] [], .propose [7] [1] [], .propose [7] [2] []] rfl,
    reachable_of_runFrom encodeHash _ [.propose [8] [0] [], .propose [8] [1] [], .propose [8] [2] []] rfl,
    rfl, rfl, rfl, rfl, by decide⟩

/-- For other than two replicas, the replicas `start` sets up over distinct addresses,
with Byzantine replicas `faulty`, at most `nfaulty` of them, form a system of the
agreement theorem. -/
def startSystem {addrs : List α} {self : α} (hn : addrs.Nodup) (hs : self ∈ addrs)
    (h2 : addrs.length ≠ 2) (faulty : List ReplicaID) (hf : faulty.toFinset.card ≤ startNfaulty addrs self) :
    System :=
  ⟨List.range addrs.length, startNfaulty addrs self, faulty,
    by rw [List.toFinset_card_of_nodup (List.nodup_range _), List.length_range, startNfaulty_eq hn hs]; omega, hf⟩

theorem startSystem_start {addrs : List α} {self : α} (hn : addrs.Nodup) (hs : self ∈ addrs)
    (h2 : addrs.length ≠ 2) (faulty : List ReplicaID) (hf : faulty.toFinset.card ≤ startNfaulty addrs self)
    (r : ReplicaID) (hr : r < addrs.length) :
    (startSystem hn hs h2 faulty hf).start H r = startCore H r addrs (addrs.get ⟨r, hr⟩) := by
  simp only [System.start, startSystem, startCore, startNfaulty_eq hn hs,
    startNfaulty_eq hn (List.get_mem addrs r hr)]

/-- Five replicas on distinct addresses, none Byzantine: `nfaulty` is 2 and `nmajority` 5. -/
def five : System :=
  @startSystem ℕ _ [10, 11, 12, 13, 14] 10 (by decide) (by decide) (by decide) [] (by decide)

/-- The first `k` replicas of `five`, each after proposing command 7 on genesis; the
others as `start` leaves them. -/
def fiveProposed (k : Nat) : World := fun r =>
  if r < k then
    (exec encodeHash (five.start encodeHash r) (.propose [7] [0] [])).toOption.getD (five.start encodeHash r)
  else five.start encodeHash r

/-- Under the bound `start` computes, a quorum leaves out at most one replica, and none of
an odd number of them: every certificate names genesis or a block that every honest
replica but at most one voted for. So one silent honest replica of an odd number, or two
of an even one, keep every new block from a certificate, though `nfaulty` counts them
among the failures the system tolerates. -/
theorem start_certs_need_all_but_one {addrs : List α} {self : α} (hn : addrs.Nodup) (hs : self ∈ addrs)
    (h2 : addrs.length ≠ 2) (faulty : List ReplicaID) (hf : faulty.toFinset.card ≤ startNfaulty addrs self)
    {w : World} {h : Hash} (hc : (startSystem hn hs h2 faulty hf).RawCert H w h) :
    h = H genesisData ∨ ∃ S : Finset ReplicaID, S.card ≤ (addrs.length + 1) % 2 ∧
      ∀ v < addrs.length, v ∉ S → v ∉ faulty → Voted w v h := by
  rcases hc with hg | ⟨Q, ⟨hQ, hq⟩, hv⟩
  · exact .inl hg
  refine .inr ⟨(List.range addrs.length).toFinset \ Q, ?_, fun v hvn hvS hvf => hv v ?_ hvf⟩
  · change 2 * startNfaulty addrs self + 1 ≤ Q.card at hq
    change Q ⊆ (List.range addrs.length).toFinset at hQ
    rw [Finset.card_sdiff hQ, List.toFinset_card_of_nodup (List.nodup_range _), List.length_range]
    rw [startNfaulty_eq hn hs] at hq
    have := List.length_pos_of_mem hs
    omega
  · by_contra hvQ
    exact hvS (Finset.mem_sdiff.mpr ⟨List.mem_toFinset.mpr (List.mem_range.mpr hvn), hvQ⟩)

end Start

/-- With five replicas the block all five voted for is certified, but four votes of five
certify nothing. -/
theorem start_certs_need_all_but_one_five :
    let h := encodeHash ⟨[encodeHash genesisData], [7], some ⟨encodeHash genesisData, [], true⟩, []⟩
    five.RawCert encodeHash (fiveProposed 5) h ∧ (∀ v < 5, Voted (fiveProposed 5) v h) ∧
      (∀ v < 4, Voted (fiveProposed 4) v h) ∧ ¬ five.RawCert encodeHash (fiveProposed 4) h := by
  intro h
  have hv5 : ∀ v < 5, ∃ g ∈ (fiveProposed 5 v).votes, ((fiveProposed 5 v).heap g).hash = h := by decide
  have hc : five.RawCert encodeHash (fiveProposed 5) h :=
    .inr ⟨Finset.range 5, ⟨by decide, by decide⟩, fun v hv _ => hv5 v (Finset.mem_range.mp hv)⟩
  have hv4 : ∀ v < 4, ∃ g ∈ (fiveProposed 4 v).votes, ((fiveProposed 4 v).heap g).hash = h := by decide
  have hg : h ≠ encodeHash genesisData := by decide
  refine ⟨hc, ?_, hv4, fun hc4 => ?_⟩
  · rcases start_certs_need_all_but_one encodeHash _ _ _ [] _ hc with hg' | ⟨S, hS, hS'⟩
    · exact absurd hg' hg
    · rw [Finset.card_eq_zero.mp (Nat.le_zero.mp hS)] at hS'
      exact fun v hv => hS' v hv (Finset.not_mem_empty v) (List.not_mem_nil v)
  · rcases start_certs_need_all_but_one encodeHash _ _ _ [] _ hc4 with hg' | ⟨S, hS, hS'⟩
    · exact hg hg'
    · rw [Finset.card_eq_zero.mp (Nat.le_zero.mp hS)] at hS'
      have h4 : ∃ g ∈ (fiveProposed 4 4).votes, ((fiveProposed 4 4).heap g).hash = h :=
        hS' 4 (by decide) (Finset.not_mem_empty 4) (List.not_mem_nil 4)
      revert h4
      decide

end HotStuff
