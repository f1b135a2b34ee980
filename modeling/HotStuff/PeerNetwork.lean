import HotStuff.Network
import HotStuff.Replica

/-!
# A network of `HotStuffBase` replicas

Each honest replica is a `HotStuffBase` over its core (`Replica`), with the call of
`on_propose` the command pipeline makes when a `beat()` names it. A `Propose` or a
`RespBlock` carries a block an honest replica stores, and a `Vote` is one an honest voter
sent to this replica or one a Byzantine replica signed. A replica event reaches the core
only through its interface, on the block its message carried or on a vote waiting in
`votes`, so every world of cores the replicas reach is a world of the system model.
-/

namespace HotStuff

/-- The block the message of a pipeline event carries: a `Propose` or a `RespBlock`. -/
def Event.block : Event → Option BlockData
  | .propose d => some d
  | .respBlock d => some d
  | _ => none

def ReplicaEvent.block : ReplicaEvent → Option BlockData
  | .propose _ d => some d
  | .respBlock d => some d
  | _ => none

namespace Replica

variable (H : BlockData → Hash)

/-- What the network needs of a replica: the pipeline invariant, and the waiting proposals
on allocated objects. -/
structure Shape (s : Replica) : Prop where
  pipe : s.base.PipeInv
  proposals : ∀ x ∈ s.proposals, x.2 < s.base.core.next

/-- What one event does, as the network sees it: the replica keeps its shape; the core is
left alone or makes one call other than `prune`, on the block the event's message carried
or on a vote waiting in `votes`; and every waiting vote was waiting before or arrived with
the event. -/
structure Moves (s : Replica) (e : ReplicaEvent) (s' : Replica) : Prop where
  shape : s'.Shape
  core : s'.base.core = s.base.core ∨ ∃ i, i.NoPrune s.base.core ∧ exec H s.base.core i = .ok s'.base.core ∧
    (∀ d, i = .fetch d → e.block = some d) ∧ (∀ v, i = .receiveVote v → ∃ o, (v, o) ∈ s.votes)
  votes : ∀ x ∈ s'.votes, (∃ o, (x.1, o) ∈ s.votes) ∨ e = .vote x.1

variable {H}

theorem shape_init (id : ReplicaID) (rs : List ReplicaID) (nfaulty : Nat) : (init H id rs nfaulty).Shape :=
  ⟨Base.pipeInv_init H id rs nfaulty, fun _ h => absurd h (List.not_mem_nil _)⟩

theorem Shape.call {s : Replica} (hs : s.Shape) {i : Input} (hv : i.NoPrune s.base.core) {c : Core}
    (hc : exec H s.base.core i = .ok c) {s' : Replica} (hb : s'.base = { s.base with core := c })
    (hl : ∀ x ∈ s'.proposals, x ∈ s.proposals) : s'.Shape :=
  have hk := (Core.tracks_exec hs.pipe.wf hv hc).keeps
  ⟨hb ▸ hs.pipe.grow (Base.coreGrows_of_keeps hk) (hs.pipe.wf.exec hv.1 hc),
    fun x hx => lt_of_lt_of_le (hs.proposals x (hl x hx)) (hb ▸ hk.next_le)⟩

theorem Shape.base {s : Replica} (hs : s.Shape) {ev : Event} {b : Base} (hb : s.base.step H ev = .ok b)
    {e : ReplicaEvent} (he : ev.block = e.block) :
    b.PipeInv ∧ s.base.core.next ≤ b.core.next ∧ (b.core = s.base.core ∨ ∃ i, i.NoPrune s.base.core ∧
      exec H s.base.core i = .ok b.core ∧ (∀ d, i = .fetch d → e.block = some d) ∧
      ∀ v, i = .receiveVote v → ∃ o, (v, o) ∈ s.votes) := by
  refine ⟨hs.pipe.step H hb, ?_⟩
  rcases Base.step_call H hs.pipe hb with hc | ⟨i, hv, hx, hf, hnv⟩
  · exact ⟨hc ▸ le_rfl, .inl hc⟩
  · refine ⟨(Core.tracks_exec hs.pipe.wf hv hx).keeps.next_le, .inr ⟨i, hv, hx, fun d hd => ?_,
      fun v h => absurd h (hnv v)⟩⟩
    rw [← he]; rcases hf d hd with rfl | rfl <;> rfl

theorem Shape.pipe_step {s s' : Replica} (hs : s.Shape) {ev : Event} (h : s.pipe H ev = .ok s')
    {e : ReplicaEvent} (he : ev.block = e.block) : Moves H s e s' := by
  obtain ⟨b, hb, rfl⟩ := except_map_eq_ok.mp h
  obtain ⟨hp, hle, hc⟩ := hs.base hb he
  exact ⟨⟨hp, fun x hx => lt_of_lt_of_le (hs.proposals x hx) hle⟩, hc, fun x hx => .inl ⟨x.2, hx⟩⟩

theorem Shape.stay {s : Replica} (hs : s.Shape) (e : ReplicaEvent) : Moves H s e s :=
  ⟨hs, .inl rfl, fun x hx => .inl ⟨x.2, hx⟩⟩

theorem Shape.step {s s' : Replica} (hs : s.Shape) {e : ReplicaEvent} (h : s.step H e = .ok s') :
    Moves H s e s' := by
  cases e with
  | propose r d =>
    simp only [Replica.step] at h
    obtain ⟨b, hb, rfl⟩ := except_map_eq_ok.mp h
    obtain ⟨hp, hle, hc⟩ := hs.base hb (e := .propose r d) rfl
    have hbc : b.core = (s.base.core.addBlk (Block.ofData H d)).1 := by cases hb; simp
    refine ⟨⟨hp, fun x hx => ?_⟩, hc, fun x hx => .inl ⟨x.2, hx⟩⟩
    rcases List.mem_append.mp hx with hx | hx
    · exact lt_of_lt_of_le (hs.proposals x hx) hle
    · obtain rfl := List.mem_singleton.mp hx
      have hst := Core.addBlk_stored hs.pipe.wf (Block.ofData H d)
      rw [← hbc] at hst
      exact (hp.wf.roots.storage _ _ hst).1
  | vote v =>
    simp only [Replica.step] at h
    obtain ⟨b, hb, rfl⟩ := except_map_eq_ok.mp h
    obtain ⟨hp, hle, hc⟩ := hs.base hb (e := .vote v) rfl
    refine ⟨⟨hp, fun x hx => lt_of_lt_of_le (hs.proposals x hx) hle⟩, hc, fun x hx => ?_⟩
    rcases List.mem_append.mp hx with hx | hx
    · exact .inl ⟨x.2, hx⟩
    · obtain rfl := List.mem_singleton.mp hx; exact .inr rfl
  | respBlock d => exact hs.pipe_step h rfl
  | notify n => exact hs.pipe_step h rfl
  | fetched n => exact hs.pipe_step h rfl
  | verified n v => exact hs.pipe_step h rfl
  | allResolved n => exact hs.pipe_step h rfl
  | onPropose cmds ps extra => exact hs.pipe_step h rfl
  | proposalReady i =>
    simp only [Replica.step] at h
    split at h
    · rename_i r p hx
      split_ifs at h
      · obtain ⟨c, hc, rfl⟩ := except_map_eq_ok.mp h
        have hv : (Input.receiveProposal r p).NoPrune s.base.core :=
          ⟨hs.proposals _ (List.getElem?_mem hx), fun _ _ h => by cases h⟩
        exact ⟨hs.call (H := H) hv hc rfl fun x hx => List.mem_of_mem_eraseIdx hx,
          .inr ⟨_, hv, hc, fun _ h => (by cases h), fun _ h => by cases h⟩, fun x hx => .inl ⟨x.2, hx⟩⟩
      · cases h; exact hs.stay _
    · cases h; exact hs.stay _
  | voteVerified i ok =>
    simp only [Replica.step] at h
    split at h
    · rename_i v hx
      cases h
      refine ⟨⟨hs.pipe, hs.proposals⟩, .inl rfl, fun x hx' => .inl ?_⟩
      rcases List.mem_or_eq_of_mem_set hx' with hx' | rfl
      · exact ⟨x.2, hx'⟩
      · exact ⟨none, List.getElem?_mem hx⟩
    · cases h; exact hs.stay _
  | voteReady i =>
    simp only [Replica.step] at h
    split at h
    · rename_i v ok hx
      split_ifs at h
      · obtain ⟨c, hc, rfl⟩ := except_map_eq_ok.mp h
        have hv : (Input.receiveVote v).NoPrune s.base.core := ⟨trivial, fun _ _ h => by cases h⟩
        exact ⟨hs.call (H := H) hv hc rfl fun _ h => h, .inr ⟨_, hv, hc, fun _ h => (by cases h),
          fun v' h => by cases h; exact ⟨_, List.getElem?_mem hx⟩⟩,
          fun x hx' => .inl ⟨x.2, List.mem_of_mem_eraseIdx hx'⟩⟩
      · cases h
        exact ⟨⟨hs.pipe, hs.proposals⟩, .inl rfl, fun x hx' => .inl ⟨x.2, List.mem_of_mem_eraseIdx hx'⟩⟩
      · cases h; exact hs.stay _
    · cases h; exact hs.stay _

end Replica

namespace System

variable (sys : System) (H : BlockData → Hash)

def replicaStart : ReplicaID → Replica := fun r => Replica.init H r sys.replicas sys.nfaulty

def cores (W : ReplicaID → Replica) : World := fun r => (W r).base.core

/-- One step of one honest replica: an event whose message was sent, or the call of
`on_propose` the command pipeline makes when a `beat()` names the replica. -/
inductive RepStep : (ReplicaID → Replica) → (ReplicaID → Replica) → Prop
  | event {W : ReplicaID → Replica} {r : ReplicaID} {e : ReplicaEvent} {s' : Replica} : sys.Honest r →
      (∀ d, e.block = some d → sys.Stored (cores W) d) →
      (∀ v, e = .vote v → sys.Sent (cores W) r (.receiveVote v)) →
      (W r).step H e = .ok s' → RepStep W (Function.update W r s')
  | propose {W : ReplicaID → Replica} {r : ReplicaID} {cmds : List Hash} {parents : List Ptr}
      {extra : List Nat} {c : Core} : sys.Honest r → (∀ p ∈ parents, p < (W r).base.core.next) →
      (W r).base.core.onPropose H cmds parents extra = .ok c →
      RepStep W (Function.update W r ((W r).withCore c))

inductive RepReachable : (ReplicaID → Replica) → Prop
  | start : RepReachable (sys.replicaStart H)
  | step {W W' : ReplicaID → Replica} : RepReachable W → sys.RepStep H W W' → RepReachable W'

/-- What the replicas keep: their cores form a world of the system whose stored
certificates stand for quorums, each honest replica keeps its shape, and every vote
waiting at a replica was sent to it. -/
structure RepInv (W : ReplicaID → Replica) : Prop where
  reach : sys.Reachable H (cores W)
  certs : sys.CertsOk H (cores W)
  shape : ∀ r, sys.Honest r → (W r).Shape
  votes : ∀ r, sys.Honest r → ∀ x ∈ (W r).votes, sys.Sent (cores W) r (.receiveVote x.1)

variable {sys H}

theorem cores_update (W : ReplicaID → Replica) (r : ReplicaID) (s : Replica) :
    cores (Function.update W r s) = Function.update (cores W) r s.base.core := by
  funext x
  by_cases hx : x = r
  · subst hx; simp [cores]
  · simp [cores, hx]

theorem Later.sent (hH : Function.Injective H) {w w' : World} (hs : sys.Safe H w) (hl : sys.Later w w')
    {r : ReplicaID} {v : Vote} (h : sys.Sent w r (.receiveVote v)) : sys.Sent w' r (.receiveVote v) := by
  refine ⟨h.1, fun hf => ?_⟩
  obtain ⟨g, hg, hh⟩ := h.2 hf
  have hk := (hl v.voter ⟨h.1, hf⟩).1
  have hlt := (hs.replica hH ⟨h.1, hf⟩).mono.votes.lt g (List.mem_filterMap.mpr ⟨_, hg, rfl⟩)
  exact ⟨g, hk.out.subset hg, (hk.obj g hlt).1.trans hh⟩

theorem RepInv.call (hH : Function.Injective H) {W : ReplicaID → Replica} (hi : sys.RepInv H W)
    {r : ReplicaID} (hr : sys.Honest r) {i : Input} (hv : i.NoPrune (W r).base.core)
    (hsent : sys.Sent (cores W) r i) {s' : Replica} (hx : exec H (W r).base.core i = .ok s'.base.core)
    (hshape : s'.Shape) (hvotes : ∀ x ∈ s'.votes, sys.Sent (cores W) r (.receiveVote x.1)) :
    sys.RepInv H (Function.update W r s') := by
  have hs := reachable_safe hH hi.reach
  obtain ⟨hstep, hc⟩ := NetStep.step hH hs hi.certs (.exec hr hv hsent hx)
  have hl := hstep.later hH hs
  rw [← cores_update] at hstep hc hl
  refine ⟨hi.reach.step hstep, hc, fun v hv' => ?_, fun v hv' x hx' => ?_⟩
  · by_cases hvr : v = r
    · subst hvr; rw [Function.update_same]; exact hshape
    · rw [Function.update_noteq hvr]; exact hi.shape v hv'
  · by_cases hvr : v = r
    · subst hvr; rw [Function.update_same] at hx'; exact hl.sent hH hs (hvotes x hx')
    · rw [Function.update_noteq hvr] at hx'; exact hl.sent hH hs (hi.votes v hv' x hx')

theorem RepInv.step (hH : Function.Injective H) {W W' : ReplicaID → Replica} (hi : sys.RepInv H W)
    (hst : sys.RepStep H W W') : sys.RepInv H W' := by
  cases hst with
  | @event r e s' hr hb hvt he =>
    have hm := (hi.shape r hr).step he
    have hvotes : ∀ x ∈ s'.votes, sys.Sent (cores W) r (.receiveVote x.1) := fun x hx =>
      (hm.votes x hx).elim (fun ⟨o, ho⟩ => hi.votes r hr (x.1, o) ho) (hvt x.1)
    rcases hm.core with hc | ⟨i, hv, hx, hf, hrv⟩
    · have hw : cores (Function.update W r s') = cores W := by
        rw [cores_update, hc]; exact Function.update_eq_self r (cores W)
      refine ⟨hw ▸ hi.reach, hw ▸ hi.certs, fun v hv => ?_, fun v hv x hx => ?_⟩
      · by_cases hvr : v = r
        · subst hvr; rw [Function.update_same]; exact hm.shape
        · rw [Function.update_noteq hvr]; exact hi.shape v hv
      · rw [hw]
        by_cases hvr : v = r
        · subst hvr; rw [Function.update_same] at hx; exact hvotes x hx
        · rw [Function.update_noteq hvr] at hx; exact hi.votes v hv x hx
    · refine hi.call hH hr hv ?_ hx hm.shape hvotes
      cases i with
      | fetch d => exact hb d (hf d rfl)
      | receiveVote v => obtain ⟨o, ho⟩ := hrv v rfl; exact hi.votes r hr _ ho
      | _ => trivial
  | @propose r cmds parents extra c hr hps hc =>
    have hv : (Input.propose cmds parents extra).NoPrune (W r).base.core := ⟨hps, fun _ _ h => by cases h⟩
    exact hi.call hH hr hv trivial hc ((hi.shape r hr).call hv hc rfl fun _ h => h) (hi.votes r hr)

theorem repInv_start : sys.RepInv H (sys.replicaStart H) :=
  ⟨.start, certsOk_start, fun r _ => Replica.shape_init r sys.replicas sys.nfaulty,
    fun _ _ _ h => absurd h (List.not_mem_nil _)⟩

/-- A network of `HotStuffBase` replicas, with the delivery pipeline, the continuations of
`propose_handler` and `vote_handler`, and the proposals of the command pipeline, on
messages that were sent (blocks copied from honest replicas' storage, votes `do_vote`
sent or Byzantine replicas signed), is on its cores a run of the system model: in any
order of events, with messages delayed, duplicated or lost. -/
theorem replicas_refine_system (hH : Function.Injective H) {W : ReplicaID → Replica}
    (hW : sys.RepReachable H W) : sys.Reachable H fun r => (W r).base.core := by
  have : sys.RepInv H W := by
    induction hW with
    | start => exact repInv_start
    | step _ hst ih => exact ih.step hH hst
  exact this.reach

/-- Four replicas, one of them Byzantine: replica 0 proposes a block on genesis; replica 1
receives the `Propose`, delivers the block and votes; replica 0 receives the vote, verifies
it and counts it. -/
theorem replicas_refine_system_vote :
    ∃ W, four.RepReachable encodeHash W ∧ ((W 0).base.core.heap 1).voted = [1, 0] ∧
      four.Reachable encodeHash fun r => (W r).base.core :=
  have r1 := (RepReachable.start : four.RepReachable encodeHash (four.replicaStart encodeHash)).step
    (.propose (r := 0) ⟨by decide, by decide⟩ (by decide)
      (show (four.replicaStart encodeHash 0).base.core.onPropose encodeHash [7] [0] [] = .ok _ from rfl))
  have r2 := r1.step (.event (r := 1)
    (e := .propose 0 ⟨[encodeHash genesisData], [7], some ⟨encodeHash genesisData, [], true⟩, []⟩)
    ⟨by decide, by decide⟩ (fun _ h => by cases h; exact ⟨0, ⟨by decide, by decide⟩, 1, by decide, by decide⟩)
    (fun _ h => by cases h) rfl)
  have r3 := r2.step (.event (r := 1)
    (e := .fetched (encodeHash ⟨[encodeHash genesisData], [7], some ⟨encodeHash genesisData, [], true⟩, []⟩))
    ⟨by decide, by decide⟩ (fun _ h => by cases h) (fun _ h => by cases h) rfl)
  have r4 := r3.step (.event (r := 1)
    (e := .verified (encodeHash ⟨[encodeHash genesisData], [7], some ⟨encodeHash genesisData, [], true⟩, []⟩) true)
    ⟨by decide, by decide⟩ (fun _ h => by cases h) (fun _ h => by cases h) rfl)
  have r5 := r4.step (.event (r := 1)
    (e := .allResolved (encodeHash ⟨[encodeHash genesisData], [7], some ⟨encodeHash genesisData, [], true⟩, []⟩))
    ⟨by decide, by decide⟩ (fun _ h => by cases h) (fun _ h => by cases h) rfl)
  have r6 := r5.step (.event (r := 1) (e := .proposalReady 0) ⟨by decide, by decide⟩ (fun _ h => by cases h)
    (fun _ h => by cases h) rfl)
  have r7 := r6.step (.event (r := 0)
    (e := .vote ⟨1, encodeHash ⟨[encodeHash genesisData], [7], some ⟨encodeHash genesisData, [], true⟩, []⟩⟩)
    ⟨by decide, by decide⟩ (fun _ h => by cases h)
    (fun _ h => by cases h; exact ⟨by decide, fun _ => ⟨1, by decide, rfl⟩⟩) rfl)
  have r8 := r7.step (.event (r := 0) (e := .voteVerified 0 true) ⟨by decide, by decide⟩ (fun _ h => by cases h)
    (fun _ h => by cases h) rfl)
  have r9 := r8.step (.event (r := 0) (e := .voteReady 0) ⟨by decide, by decide⟩ (fun _ h => by cases h)
    (fun _ h => by cases h) rfl)
  ⟨_, r9, rfl, replicas_refine_system encodeHash_injective r9⟩

end System

end HotStuff
