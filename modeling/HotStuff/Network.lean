import HotStuff.Agreement
import HotStuff.Certificates
import HotStuff.Tails

/-!
# A network of replicas

Here the arguments of a call come from messages. A `MsgPropose` carries the proposer's new
block and a `MsgRespBlock` blocks from the responder's storage, so every block is a copy
of one an honest replica stores; a vote travels from `do_vote` to the proposer it answers,
and `vote_handler` checks its signature, so a Byzantine replica sends only votes of its
own. Byzantine replicas send no blocks: the pipeline ignores `blk->verify`, so a forged
certificate would be delivered. Every certificate a replica stores then stands for a
quorum, and every step of the network is a step of the system model of `Agreement`.
-/

namespace HotStuff

namespace Core

/-- Every certificate a stored block carries satisfies `C`. -/
def QcsOk (C : Hash → Prop) (s : Core) : Prop :=
  ∀ p < s.next, ∀ qc, (s.heap p).data.qc = some qc → C qc.objHash

variable {C C' : Hash → Prop}

theorem QcsOk.mono {s : Core} (hq : s.QcsOk C) (hC : ∀ h, C h → C' h) : s.QcsOk C' :=
  fun p hp qc h => hC _ (hq p hp qc h)

theorem QcsOk.keeps {s s' : Core} (hq : s.QcsOk C) (hk : Keeps s s') (hn : s'.next = s.next) :
    s'.QcsOk C :=
  fun p hp qc h => hq p (hn ▸ hp) qc (by rwa [(hk.obj p (hn ▸ hp)).2.1] at h)

theorem QcsOk.addBlk {s : Core} (hq : s.QcsOk C) (hw : s.Wf) {x : Block}
    (hx : ∀ qc, x.data.qc = some qc → C qc.objHash) : (s.addBlk x).1.QcsOk C := by
  cases hs : s.storage x.hash with
  | some p => rw [addBlk_of_some s x hs]; exact hq
  | none =>
    obtain ⟨-, hn, hnew, -⟩ := addBlk_alloc hw hs
    intro p hp qc h
    rcases Nat.lt_succ_iff_lt_or_eq.mp (hn ▸ hp) with hp | rfl
    · exact hq p hp qc (by rwa [((keeps_addBlk s x).obj p hp).2.1] at h)
    · rw [hnew] at h; exact hx qc h

theorem onDeliverBlk_next {s s' : Core} {b : Ptr} {r : Bool} (h : s.onDeliverBlk b = .ok (r, s')) :
    s'.next = s.next := by
  rcases onDeliverBlk_cases h with ⟨-, -, rfl⟩ | ⟨-, -, _, _, _, -, -, rfl⟩ <;> rfl

theorem proposeStored_next {s s' : Core} {bnew : Ptr} (h : s.proposeStored bnew = .ok s') :
    s'.next = s.next := by
  obtain ⟨r, s2, s3, s4, h2, h3, -, h4, rfl⟩ := proposeStored_cases h
  have h2' := onDeliverBlk_next h2
  exact (keepsLeaves_onReceiveVote h4).next.trans ((keepsLeaves_update h3).next.trans h2')

theorem QcsOk.exec {H : BlockData → Hash} {s s' : Core} (hq : s.QcsOk C) (hw : s.Wf) {i : Input}
    (hv : i.NoPrune s) (hf : ∀ d, i = .fetch d → ∀ qc, d.qc = some qc → C qc.objHash)
    (hp : ∀ p < s.next, s.nmajority ≤ (s.heap p).voted.length → ∀ qc, (s.heap p).selfQc = some qc →
      C qc.objHash)
    (h : exec H s i = .ok s') : s'.QcsOk C := by
  have hk := (tracks_exec hw hv h).keeps
  cases i with
  | fetch d => cases h; exact hq.addBlk hw (hf d rfl)
  | deliver b =>
    obtain ⟨⟨r, s''⟩, h', rfl⟩ := except_map_eq_ok.mp h
    exact hq.keeps hk (onDeliverBlk_next h')
  | propose cmds parents extra =>
    obtain ⟨p, rest, r, x, rfl, hr, rfl, hws, h'⟩ := onPropose_block hw hv.1 h
    have hx : ∀ qc, r.1 = some qc → C qc.objHash := by
      rcases proposalQc_ok hr with rfl | ⟨qc, rfl⟩
      · exact fun _ h => by cases h
      · obtain ⟨-, hmaj, hself⟩ := proposalQc_quorate hr
        exact fun q hq' => by cases hq'; exact hp p (hv.1 p (List.mem_cons_self _ _)) hmaj qc hself
    have h0 : ({ s with tails := s.tails.filter fun t => t ∉ p :: rest } : Core).QcsOk C := hq
    exact (h0.addBlk ⟨hw.obj, hw.roots⟩ hx).keeps
      (tracks_proposeStored (H := H) (fun h q hq => (hws.roots.storage h q hq).2) h').keeps (proposeStored_next h')
  | receiveProposal r b => exact hq.keeps hk (keepsLeaves_onReceiveProposal h).next
  | receiveVote v => exact hq.keeps hk (keepsLeaves_onReceiveVote h).next
  | prune k rel => exact absurd rfl (hv.2 k rel)

theorem qcsOk_init (H : BlockData → Hash) (id : ReplicaID) (rs : List ReplicaID) (nfaulty : Nat) :
    (init H id rs nfaulty).QcsOk (· = H genesisData) := by
  have hf : (init H id rs nfaulty).next = 1 ∧ (init H id rs nfaulty).b0 = 0 ∧
      ((init H id rs nfaulty).heap 0).qcRef = some 0 := by
    unfold init onInit; rw [foldl_addReplica_eq]; exact ⟨rfl, rfl, rfl⟩
  intro p hp qc h
  obtain rfl : p = 0 := Nat.lt_one_iff.mp (hf.1 ▸ hp)
  rw [(certOk_init H id rs nfaulty).qcRef 0 hp 0 hf.2.2 qc h, ← hf.2.1]
  exact (linked_init id rs nfaulty).b0_hash

end Core

namespace System

variable (sys : System) (H : BlockData → Hash)

/-- The content of a block an honest replica stores: what its `MsgPropose` or its
`MsgRespBlock` carries. -/
def Stored (w : World) (d : BlockData) : Prop :=
  ∃ r, sys.Honest r ∧ ∃ p < (w r).next, ((w r).heap p).data = d

/-- The message a call of replica `r` consumes has been sent: a block another replica
stores, or a vote an honest voter cast for a proposal of `r` (a Byzantine replica signs
votes of its own for anything). -/
def Sent (w : World) (r : ReplicaID) : Input → Prop
  | .fetch d => sys.Stored w d
  | .receiveVote v => v.voter ∈ sys.replicas ∧ (v.voter ∉ sys.faulty →
      ∃ g, Effect.vote g (some r) ∈ (w v.voter).out ∧ ((w v.voter).heap g).hash = v.blkHash)
  | _ => True

/-- One call of one honest replica on a message that was sent. -/
inductive NetStep : World → World → Prop
  | exec {w : World} {r : ReplicaID} {i : Input} {s' : Core} : sys.Honest r → i.NoPrune (w r) →
      sys.Sent w r i → exec H (w r) i = .ok s' → NetStep w (Function.update w r s')

inductive NetReachable : World → Prop
  | start : NetReachable (sys.start H)
  | step {w w' : World} : NetReachable w → sys.NetStep H w w' → NetReachable w'

/-- Every certificate an honest replica stores stands for a quorum. -/
def CertsOk (w : World) : Prop := ∀ r, sys.Honest r → (w r).QcsOk (sys.RawCert H w)

variable {sys H}

theorem Step.later (hH : Function.Injective H) {w w' : World} (hs : sys.Safe H w)
    (hst : sys.Step H w w') : sys.Later w w' := by
  cases hst with
  | @exec r i s' hr ha he =>
  intro v hv
  by_cases hvr : v = r
  · subst hvr
    have ho := hs.replica hH hr
    rw [Function.update_same]
    exact ⟨(Core.tracks_exec ho.mono.wf ha.1 he).keeps, (ho.mono.exec ha.1.1 he).1.votes⟩
  · rw [Function.update_noteq hvr]; exact ⟨.refl _, (hs.replica hH hv).mono.votes⟩

theorem certsOk_start : sys.CertsOk H (sys.start H) :=
  fun r _ => (Core.qcsOk_init H r sys.replicas sys.nfaulty).mono fun _ => .inl

theorem Sent.admits {w : World} (hc : sys.CertsOk H w) {r : ReplicaID} (hr : sys.Honest r) {i : Input}
    (hv : i.NoPrune (w r)) (hsent : sys.Sent w r i) : i.Admits (sys.VoteOk w) (sys.RawCert H w) (w r) := by
  refine ⟨hv, ?_⟩
  cases i with
  | receiveVote v =>
    refine ⟨hsent.1, fun hf => ?_⟩
    obtain ⟨g, hg, hh⟩ := hsent.2 hf
    exact ⟨g, List.mem_filterMap.mpr ⟨_, hg, rfl⟩, hh⟩
  | deliver b => exact hc r hr b hv.1
  | _ => trivial

/-- A network step is a system step, and it keeps every stored certificate standing for
a quorum: a fetched block is a copy of a stored one, and a proposal carries the `self_qc`
of a parent that gathered `nmajority` votes. -/
theorem NetStep.step (hH : Function.Injective H) {w w' : World} (hs : sys.Safe H w)
    (hc : sys.CertsOk H w) (hst : sys.NetStep H w w') : sys.Step H w w' ∧ sys.CertsOk H w' := by
  cases hst with
  | @exec r i s' hr hv hsent he =>
  have hstep : sys.Step H w (Function.update w r s') := .exec hr (hsent.admits hc hr hv) he
  have hl := hstep.later hH hs
  refine ⟨hstep, fun v hv' => ?_⟩
  by_cases hvr : v = r
  swap
  · rw [Function.update_noteq hvr]; exact (hc v hv').mono fun _ => hl.rawCert hH hs
  subst hvr
  have ho := hs.replica hH hr
  rw [Function.update_same]
  refine ((hc v hr).mono fun _ => hl.rawCert hH hs).exec ho.mono.wf hv (fun d hd qc hq => ?_)
    (fun p hp hmaj qc hq => ?_) he
  · subst hd
    obtain ⟨r', hr', p, hp, hpd⟩ := hsent
    exact hl.rawCert hH hs (hc r' hr' p hp qc (by rw [hpd]; exact hq))
  · rw [ho.linked.selfQc p hp qc hq]
    exact hl.rawCert hH hs (ho.rawCert hr hp (.inr (.inr hmaj)))

/-- A network of honest replicas, in which blocks travel as copies of blocks honest
replicas store and votes as the messages `do_vote` sends (Byzantine replicas sending votes
of their own for any block), is a run of the system model, in any order of deliveries,
with messages delayed, duplicated or lost: every world the network reaches, the system
reaches, so what holds of the system's runs holds of the network's. -/
theorem network_refines_system (hH : Function.Injective H) {w : World} (hw : sys.NetReachable H w) :
    sys.Reachable H w := by
  have : sys.Reachable H w ∧ sys.CertsOk H w := by
    induction hw with
    | start => exact ⟨.start, certsOk_start⟩
    | step _ hst ih =>
      obtain ⟨hstep, hc⟩ := hst.step hH (reachable_safe hH ih.1) ih.2
      exact ⟨ih.1.step hstep, hc⟩
  exact this.1

/-- Four replicas, one of them Byzantine: replica 0 proposes a block on genesis, replica 1
fetches it from replica 0's storage, delivers it and votes for it, and replica 0 counts
the vote. -/
theorem network_refines_system_vote :
    ∃ w, four.NetReachable encodeHash w ∧ ((w 0).heap 1).voted = [1, 0] ∧ four.Reachable encodeHash w :=
  have r1 := (NetReachable.start : four.NetReachable encodeHash (four.start encodeHash)).step
    (.exec (r := 0) (i := .propose [7] [0] []) ⟨by decide, by decide⟩ ⟨by decide, fun _ _ h => by cases h⟩
      trivial rfl)
  have r2 := r1.step (.exec (r := 1) (i := .fetch (_ : BlockData)) ⟨by decide, by decide⟩
    ⟨trivial, fun _ _ h => by cases h⟩ ⟨0, ⟨by decide, by decide⟩, 1, by decide, rfl⟩ rfl)
  have r3 := r2.step (.exec (r := 1) (i := .deliver 1) ⟨by decide, by decide⟩
    ⟨by decide, fun _ _ h => by cases h⟩ trivial rfl)
  have r4 := r3.step (.exec (r := 1) (i := .receiveProposal 0 1) ⟨by decide, by decide⟩
    ⟨by decide, fun _ _ h => by cases h⟩ trivial rfl)
  have r5 := r4.step (.exec (r := 0)
    (i := .receiveVote ⟨1, encodeHash ⟨[encodeHash genesisData], [7], some ⟨encodeHash genesisData, [], true⟩, []⟩⟩)
    ⟨by decide, by decide⟩ ⟨trivial, fun _ _ h => by cases h⟩ ⟨by decide, fun _ => ⟨1, by decide, rfl⟩⟩ rfl)
  ⟨_, r5, rfl, network_refines_system encodeHash_injective r5⟩

end System

end HotStuff
