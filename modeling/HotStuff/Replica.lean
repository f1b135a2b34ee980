import HotStuff.Delivery
import HotStuff.Commands
import HotStuff.Waiting

/-!
# `HotStuffBase` over its core

Every event of the delivery pipeline stores a block, delivers a stored one, proposes on
stored blocks or leaves the core alone, and every event of the command pipeline is a valid
call of the core or leaves it alone: their runs are runs of the core. `Replica` adds the
continuations of `propose_handler`, which waits on the delivery of the proposed block and
calls `on_receive_proposal`, and of `vote_handler`, which also waits on the vote's
`verify` and calls `on_receive_vote` only if it passed. Along every run, each vote sent to
a proposer answers a `Propose` it received, each self-vote is for a block the replica
proposed, and each voter counted on a block other than genesis passed `verify` or is the
replica itself on its own proposal.
-/

namespace HotStuff

namespace Base

variable (H : BlockData → Hash)

@[simp] theorem onFetched_core (s : Base) (h : Hash) : (s.onFetched h).core = s.core := by
  unfold onFetched
  split
  · rfl
  · refine (foldl_asyncDeliverBlk _ _).1.trans ?_
    split <;> simp

theorem step_core {s s' : Base} (hi : s.PipeInv) {e : Event} (h : s.step H e = .ok s') :
    s'.core = s.core ∨ (∃ d, (e = .propose d ∨ e = .respBlock d) ∧ exec H s.core (.fetch d) = .ok s'.core) ∨
      (∃ b < s.core.next, exec H s.core (.deliver b) = .ok s'.core) ∨
      ∃ cmds ps extra, (∀ p ∈ ps, p < s.core.next) ∧ exec H s.core (.propose cmds ps extra) = .ok s'.core := by
  cases e with
  | propose d => cases h; exact .inr (.inl ⟨d, .inl rfl, by rw [asyncDeliverBlk_core]; rfl⟩)
  | respBlock d => cases h; exact .inr (.inl ⟨d, .inr rfl, rfl⟩)
  | vote v => cases h; exact .inl (asyncDeliverBlk_core _ _)
  | notify n =>
    have h' : (s.asyncDeliverBlk n).verifyNotify n = .ok s' := h
    unfold verifyNotify at h'
    split at h'
    · cases h'; exact .inl (asyncDeliverBlk_core _ _)
    · cases h'
  | fetched n => cases h; left; split <;> simp
  | verified n v => cases h; exact .inl rfl
  | allResolved n =>
    simp only [Base.step] at h
    split at h
    · rename_i j hj
      split_ifs at h
      · obtain ⟨⟨r, c⟩, hd, rfl⟩ := except_map_eq_ok.mp h
        exact .inr (.inr (.inl ⟨j.blk, hi.jobs_lt j (List.mem_of_find?_eq_some hj),
          by simp only [exec, hd]; rfl⟩))
      · cases h; exact .inl rfl
    · cases h; exact .inl rfl
  | onPropose cmds ps extra =>
    simp only [Base.step] at h
    split_ifs at h with hps
    obtain ⟨c, hc, rfl⟩ := except_map_eq_ok.mp h
    exact .inr (.inr (.inr ⟨cmds, ps, extra, hps, hc⟩))

theorem step_call {s s' : Base} (hi : s.PipeInv) {e : Event} (h : s.step H e = .ok s') :
    s'.core = s.core ∨ ∃ i, i.NoPrune s.core ∧ exec H s.core i = .ok s'.core ∧
      (∀ d, i = .fetch d → e = .propose d ∨ e = .respBlock d) ∧ ∀ v, i ≠ .receiveVote v := by
  rcases step_core H hi h with hc | ⟨d, hd, hx⟩ | ⟨b, hb, hx⟩ | ⟨cmds, ps, extra, hps, hx⟩
  · exact .inl hc
  · exact .inr ⟨.fetch d, ⟨trivial, fun _ _ h => by cases h⟩, hx, fun _ h => by cases h; exact hd, fun _ h => by cases h⟩
  · exact .inr ⟨.deliver b, ⟨hb, fun _ _ h => by cases h⟩, hx, fun _ h => (by cases h), fun _ h => by cases h⟩
  · exact .inr ⟨.propose cmds ps extra, ⟨hps, fun _ _ h => by cases h⟩, hx, fun _ h => (by cases h),
      fun _ h => by cases h⟩

/-- Every run of the delivery pipeline is, on its core, a run of calls of the core other
than `prune`, each on an object that exists. -/
theorem reachable_core {id : ReplicaID} {rs : List ReplicaID} {nfaulty : Nat} {s : Base}
    (hr : Reachable H (init H id rs nfaulty) s) :
    HotStuff.Reachable H Input.NoPrune (Core.init H id rs nfaulty) s.core := by
  induction hr with
  | refl => exact .refl
  | tail e hr he ih =>
    rcases step_call H (reachable_pipeInv H hr) he with hc | ⟨i, hv, hx, -⟩
    · rwa [hc]
    · exact ih.tail i hv hx

end Base

namespace Commands

variable (H : BlockData → Hash)

@[simp] theorem cut_core (s : Commands) : s.cut.core = s.core := by
  unfold Commands.cut; split <;> rfl

@[simp] theorem dequeue_core (s : Commands) (proposer : ReplicaID) :
    (s.dequeue proposer).core = s.core := by
  unfold Commands.dequeue Commands.push
  split
  · rfl
  · split <;> simp

theorem step_core {s s' : Commands} {e : CmdEvent} (hv : e.Valid s) (h : s.step H e = .ok s') :
    s'.core = s.core ∨ ∃ i, i.Valid s.core ∧ exec H s.core i = .ok s'.core := by
  cases e with
  | execCommand cmdHash callback => cases h; exact .inl rfl
  | dequeue proposer => cases h; exact .inl (dequeue_core s proposer)
  | beat i proposer parents =>
    have h' : s.resolveBeat H i proposer parents = .ok s' := h
    unfold Commands.resolveBeat at h'
    split at h'
    · cases h'; exact .inl rfl
    · split_ifs at h'
      · obtain ⟨c, hc, rfl⟩ := except_map_eq_ok.mp h'
        exact .inr ⟨.propose _ parents [], hv, hc⟩
      · cases h'; exact .inl rfl
  | core i =>
    obtain ⟨c, hc, rfl⟩ := except_map_eq_ok.mp h
    exact .inr ⟨i, hv, hc⟩

end Commands

namespace Core

theorem Quiet.cast {s s' : Core} (hq : Quiet s s') :
    ∃ l, s'.out = s.out ++ l ∧ ∀ b r, Effect.vote b r ∉ l := by
  obtain ⟨l, hl⟩ := hq.1.out
  have hv := hq.2
  unfold votes at hv
  rw [← hl, List.filterMap_append, List.append_right_eq_self, List.filterMap_eq_nil_iff] at hv
  exact ⟨l, hl.symm, fun b r hm => by simpa [Effect.voteBlk] using hv _ hm⟩

theorem onReceiveProposal_cast {s s' : Core} (hw : s.Wf) {pr : ReplicaID} {bnew : Ptr} (hb : bnew < s.next)
    (h : s.onReceiveProposal pr bnew = .ok s') :
    ∃ l, s'.out = s.out ++ l ∧ ∀ b r, Effect.vote b r ∈ l → b = bnew ∧ r = some pr := by
  obtain ⟨-, s1, op, h1, -, rfl⟩ := onReceiveProposal_cases h
  obtain ⟨l, hl, hn⟩ := (quiet_update hw hb h1).cast
  refine ⟨l ++ _, by rw [hl, List.append_assoc, List.append_assoc], fun b r hm => ?_⟩
  simp only [List.mem_append, List.mem_map, Option.mem_toList] at hm
  rcases hm with hm | ⟨_, -, hm⟩ | hm
  · exact absurd hm (hn b r)
  · cases hm
  · split_ifs at hm
    · obtain ⟨rfl, rfl⟩ := by simpa using hm
      exact ⟨rfl, rfl⟩
    · cases hm

theorem proposeStored_cast {s s' : Core} {bnew : Ptr} (hs : s.WfBut bnew) (h : s.proposeStored bnew = .ok s') :
    ∃ l, s'.out = s.out ++ l ∧ Effect.propose bnew ∈ l ∧ ∀ b r, Effect.vote b r ∈ l → b = bnew ∧ r = none := by
  obtain ⟨r, s2, s3, s4, h2, h3, -, h4, rfl⟩ := proposeStored_cases h
  have hk := keepsShape_vote (fun l => l) fun _ => some (createQuorumCert (s.heap bnew).hash)
  have hq2 := quiet_onDeliverBlk (hk.roots hs.roots) h2
  have hn2 : bnew < s2.next := lt_of_lt_of_le hs.lt hq2.1.next_le
  have w3 := (hs.onDeliverBlk h2).update hn2 h3
  have w3' : { s3 with vheight := (s3.heap bnew).height }.Wf := ⟨w3.obj, w3.roots⟩
  obtain ⟨l1, hl1, hn1⟩ := (((quiet_keepsShape hs.roots (b := bnew) hk).trans hq2).trans
    (quiet_update (hs.onDeliverBlk h2) hn2 h3)).cast
  obtain ⟨l2, hl2, hn2⟩ := (quiet_onReceiveVote (w3'.emit _) h4).cast
  refine ⟨l1 ++ [.vote bnew none] ++ l2 ++ [.propose bnew], ?_, by simp, fun b r hm => ?_⟩
  · rw [emit_out, hl2, emit_out, hl1]; simp
  · simp only [List.mem_append, List.mem_singleton] at hm
    rcases hm with ((hm | hm) | hm) | hm
    · exact absurd hm (hn1 b r)
    · cases hm; exact ⟨rfl, rfl⟩
    · exact absurd hm (hn2 b r)
    · cases hm

theorem onPropose_self {H : BlockData → Hash} {s s' : Core} (hw : s.Wf) {cmds : List Hash}
    {parents : List Ptr} {extra : List Nat} (hps : ∀ p ∈ parents, p < s.next)
    (h : s.onPropose H cmds parents extra = .ok s') :
    ∃ bnew l, bnew < s'.next ∧ s'.out = s.out ++ l ∧ Effect.propose bnew ∈ l ∧
      (∀ b r, Effect.vote b r ∈ l → b = bnew ∧ r = none) ∧ Tally [⟨s.id, (s'.heap bnew).hash⟩] s s' := by
  obtain ⟨p, rest, r, x, rfl, -, hx, hws, h'⟩ := onPropose_block hw hps h
  have hxv : x.voted = [] := by rw [hx]; rfl
  have t0 : Tally [] s { s with tails := s.tails.filter fun t => t ∉ p :: rest } :=
    tally_of_heap rfl rfl rfl rfl rfl (List.prefix_refl _)
  have t1 := t0.trans (tally_addBlk _ hxv)
  have t2 := tally_proposeStored hws h'
  have ho : ({ s with tails := s.tails.filter fun t => t ∉ p :: rest }.addBlk x).1.out = s.out := by
    unfold addBlk; split <;> rfl
  obtain ⟨l, hl, hpl, hv⟩ := proposeStored_cast hws h'
  refine ⟨_, l, lt_of_lt_of_le hws.lt t2.next_le, ho ▸ hl, hpl, hv, ?_⟩
  rw [t1.id, ← t2.hash _ hws.lt] at t2
  exact t1.trans t2

end Core

/-! ## The message handlers -/

/-- `HotStuffBase` around one core: the delivery pipeline, and the continuations that
`propose_handler` and `vote_handler` leave behind. Beside the source's state it records the
`Propose` messages received and the votes handed to the core. -/
structure Replica where
  base : Base
  /-- `on_receive_proposal(prop)` waiting on the delivery of `prop.blk`: the proposer and
  the block object `postponed_parse` gave. -/
  proposals : List (ReplicaID × Ptr)
  /-- `on_receive_vote(v)` waiting on the delivery of the voted block and on `v->verify`,
  with how the verification stands. -/
  votes : List (Vote × Option Bool)
  /-- Every `Propose` received: its proposer and block. -/
  received : List (ReplicaID × BlockData)
  /-- Every vote handed to `on_receive_vote`, each once its `verify` resolved with `true`. -/
  accepted : List Vote

/-- What the network and the promises of a replica do. -/
inductive ReplicaEvent
  /-- `propose_handler`: a `Propose` of `proposer` carrying a block. -/
  | propose (proposer : ReplicaID) (d : BlockData)
  /-- `vote_handler`: a `Vote`. -/
  | vote (v : Vote)
  /-- An event of the delivery pipeline other than the two messages above. -/
  | respBlock (d : BlockData)
  | notify (h : Hash)
  | fetched (h : Hash)
  | verified (h : Hash) (v : Bool)
  | allResolved (h : Hash)
  /-- `promise::all` of the `i`-th waiting proposal resolved. -/
  | proposalReady (i : Nat)
  /-- `v->verify(vpool)` of the `i`-th waiting vote resolved with `ok`. -/
  | voteVerified (i : Nat) (ok : Bool)
  /-- `promise::all` of the `i`-th waiting vote resolved. -/
  | voteReady (i : Nat)
  /-- The continuation of `pmaker->beat()` when the beat names this replica. -/
  | onPropose (cmds : List Hash) (parents : List Ptr) (extra : List Nat)

namespace Replica

variable (H : BlockData → Hash)

def init (id : ReplicaID) (replicas : List ReplicaID) (nfaulty : Nat) : Replica :=
  ⟨Base.init H id replicas nfaulty, [], [], [], []⟩

def pipe (s : Replica) (e : Event) : Except Err Replica :=
  (s.base.step H e).map fun b => { s with base := b }

def withCore (s : Replica) (c : Core) : Replica := { s with base := { s.base with core := c } }

def step (s : Replica) : ReplicaEvent → Except Err Replica
  | .propose r d => (s.base.step H (.propose d)).map fun b =>
    { s with base := b, proposals := s.proposals ++ [(r, (s.base.core.addBlk (Block.ofData H d)).2)],
             received := s.received ++ [(r, d)] }
  | .vote v => (s.base.step H (.vote v)).map fun b => { s with base := b, votes := s.votes ++ [(v, none)] }
  | .respBlock d => s.pipe H (.respBlock d)
  | .notify h => s.pipe H (.notify h)
  | .fetched h => s.pipe H (.fetched h)
  | .verified h v => s.pipe H (.verified h v)
  | .allResolved h => s.pipe H (.allResolved h)
  | .proposalReady i =>
    match s.proposals[i]? with
    | some (r, p) =>
      if (s.base.core.heap p).delivered then
        (s.base.core.onReceiveProposal r p).map fun c =>
          { s.withCore c with proposals := s.proposals.eraseIdx i }
      else .ok s
    | none => .ok s
  | .voteVerified i ok =>
    match s.votes[i]? with
    | some (v, none) => .ok { s with votes := s.votes.set i (v, some ok) }
    | _ => .ok s
  | .voteReady i =>
    match s.votes[i]? with
    | some (v, some ok) =>
      if s.base.core.isBlkDelivered v.blkHash then
        if ok then
          (s.base.core.onReceiveVote v).map fun c =>
            { s.withCore c with votes := s.votes.eraseIdx i, accepted := s.accepted ++ [v] }
        else .ok { s with votes := s.votes.eraseIdx i }
      else .ok s
    | _ => .ok s
  | .onPropose cmds parents extra => s.pipe H (.onPropose cmds parents extra)

inductive Reachable (s0 : Replica) : Replica → Prop
  | refl : Reachable s0 s0
  | tail {s s' : Replica} (e : ReplicaEvent) : Reachable s0 s → s.step H e = .ok s' → Reachable s0 s'

def run (s : Replica) : List ReplicaEvent → Except Err Replica
  | [] => .ok s
  | e :: es => (s.step H e).bind fun s' => run s' es

theorem reachable_of_run {s0 s s' : Replica} (es : List ReplicaEvent) (h0 : Reachable H s0 s)
    (h : run H s es = .ok s') : Reachable H s0 s' := by
  induction es generalizing s with
  | nil => cases h; exact h0
  | cons e es ih =>
    obtain ⟨s1, h1, h2⟩ := except_bind_eq_ok.mp h
    exact ih (h0.tail e h1) h2

/-- What every run of a replica keeps: the pipeline invariant; each waiting proposal is for
the object stored under the hash of a block received from its proposer; each vote the core
sent answers a received proposal, and each other vote is the self-vote for a block it
proposed; each voter counted on a block other than genesis handed the core a vote for that
block, or is the replica itself on a block with the hash of one it proposed. -/
structure Inv (s : Replica) : Prop where
  pipe : s.base.PipeInv
  proposals : ∀ x ∈ s.proposals, ∃ d, (x.1, d) ∈ s.received ∧ s.base.core.storage (H d) = some x.2
  cast : ∀ b r, Effect.vote b r ∈ s.base.core.out →
    (∃ pr d, r = some pr ∧ (pr, d) ∈ s.received ∧ s.base.core.storage (H d) = some b) ∨
      r = none ∧ Effect.propose b ∈ s.base.core.out
  counted : ∀ p < s.base.core.next, p ≠ s.base.core.b0 → ∀ x ∈ (s.base.core.heap p).voted,
    ⟨x, (s.base.core.heap p).hash⟩ ∈ s.accepted ∨ x = s.base.core.id ∧
      ∃ q < s.base.core.next, Effect.propose q ∈ s.base.core.out ∧
        (s.base.core.heap q).hash = (s.base.core.heap p).hash

theorem inv_init (id : ReplicaID) (rs : List ReplicaID) (nfaulty : Nat) :
    (init H id rs nfaulty).Inv H := by
  have hf : (Core.init H id rs nfaulty).next = 1 ∧ (Core.init H id rs nfaulty).b0 = 0 ∧
      (Core.init H id rs nfaulty).out = [] := by
    unfold Core.init Core.onInit; rw [Core.foldl_addReplica_eq]; exact ⟨rfl, rfl, rfl⟩
  refine ⟨Base.pipeInv_init H id rs nfaulty, fun _ h => absurd h (List.not_mem_nil _),
    fun b r h => ?_, fun p hp hp0 => ?_⟩
  · change Effect.vote b r ∈ (Core.init H id rs nfaulty).out at h
    rw [hf.2.2] at h; cases h
  · change p < (Core.init H id rs nfaulty).next at hp
    change p ≠ (Core.init H id rs nfaulty).b0 at hp0
    rw [hf.1] at hp; rw [hf.2.1] at hp0; exact absurd (Nat.lt_one_iff.mp hp) hp0

variable {H}

theorem Inv.of_core {s s' : Replica} (hi : s.Inv H) (hp : s'.base.PipeInv)
    (hc : ∃ l, s'.base.core.out = s.base.core.out ++ l ∧ ∀ b r, Effect.vote b r ∈ l →
      (∃ pr d, r = some pr ∧ (pr, d) ∈ s'.received ∧ s'.base.core.storage (H d) = some b) ∨
        r = none ∧ Effect.propose b ∈ l)
    {vs : List Vote} (ht : Core.Tally vs s.base.core s'.base.core)
    (hvs : ∀ v ∈ vs, v ∈ s'.accepted ∨ v.voter = s.base.core.id ∧
      ∃ q < s'.base.core.next, Effect.propose q ∈ s'.base.core.out ∧ (s'.base.core.heap q).hash = v.blkHash)
    (hk : Core.Keeps s.base.core s'.base.core) (hrec : s.received ⊆ s'.received)
    (hacc : s.accepted ⊆ s'.accepted)
    (hprop : ∀ x ∈ s'.proposals, x ∈ s.proposals ∨
      ∃ d, (x.1, d) ∈ s'.received ∧ s'.base.core.storage (H d) = some x.2) : s'.Inv H := by
  obtain ⟨l, hl, hn⟩ := hc
  have ho : ∀ {e}, e ∈ s.base.core.out → e ∈ s'.base.core.out := fun he => by
    rw [hl]; exact List.mem_append_left _ he
  refine ⟨hp, fun x hx => ?_, fun b r hb => ?_, fun p hp' hp0 x hx => ?_⟩
  · rcases hprop x hx with hx | hx
    · obtain ⟨d, hd, hs⟩ := hi.proposals x hx
      exact ⟨d, hrec hd, hk.storage _ _ hs⟩
    · exact hx
  · rw [hl, List.mem_append] at hb
    rcases hb with hb | hb
    · rcases hi.cast b r hb with ⟨pr, d, hr, hd, hs⟩ | ⟨hr, hpb⟩
      · exact .inl ⟨pr, d, hr, hrec hd, hk.storage _ _ hs⟩
      · exact .inr ⟨hr, ho hpb⟩
    · exact (hn b r hb).imp id fun ⟨hr, hpb⟩ => ⟨hr, by rw [hl]; exact List.mem_append_right _ hpb⟩
  · rw [hk.id]
    rcases ht.voted p hp' x hx with ⟨hlt, hx'⟩ | hv
    · rw [ht.hash p hlt]
      refine (hi.counted p hlt (by rw [← ht.b0]; exact hp0) x hx').imp (hacc ·) fun ⟨hid, q, hq, hqo, hh⟩ =>
        ⟨hid, q, lt_of_lt_of_le hq hk.next_le, ho hqo, ((hk.obj q hq).1.trans hh)⟩
    · exact hvs _ hv

theorem Inv.step_pipe {s s' : Replica} (hi : s.Inv H) {e : Event} (h : s.base.step H e = .ok s'.base)
    (hrec : s.received ⊆ s'.received) (hacc : s.accepted ⊆ s'.accepted)
    (hprop : ∀ x ∈ s'.proposals, x ∈ s.proposals ∨
      ∃ d, (x.1, d) ∈ s'.received ∧ s'.base.core.storage (H d) = some x.2) : s'.Inv H := by
  have hw := hi.pipe.wf
  have hp := hi.pipe.step H h
  have ofQuiet : ∀ {i : Input}, exec H s.base.core i = .ok s'.base.core → i.NoPrune s.base.core →
      Core.Quiet s.base.core s'.base.core → Core.Tally [] s.base.core s'.base.core → s'.Inv H :=
    fun hx hv hq ht => hi.of_core hp (have ⟨l, hl, hn⟩ := hq.cast; ⟨l, hl, fun b r hm => absurd hm (hn b r)⟩)
      ht (fun _ h => absurd h (List.not_mem_nil _)) (Core.tracks_exec hw hv hx).keeps hrec hacc hprop
  rcases Base.step_core H hi.pipe h with hc | ⟨d, -, hx⟩ | ⟨b, hb, hx⟩ | ⟨cmds, ps, extra, hps, hx⟩
  · exact hi.of_core hp ⟨[], by rw [hc, List.append_nil], fun _ _ h => absurd h (List.not_mem_nil _)⟩
      (hc ▸ Core.Tally.refl _) (fun _ h => absurd h (List.not_mem_nil _)) (hc ▸ Core.Keeps.refl _) hrec hacc hprop
  · have hc : (s.base.core.addBlk (Block.ofData H d)).1 = s'.base.core := Except.ok.inj hx
    exact ofQuiet hx ⟨trivial, fun _ _ h => by cases h⟩ (hc ▸ Core.quiet_addBlk hw.roots _)
      (hc ▸ Core.tally_addBlk _ rfl)
  · obtain ⟨⟨r, c⟩, hd, hc⟩ := except_map_eq_ok.mp hx
    exact ofQuiet hx ⟨hb, fun _ _ h => by cases h⟩ (hc ▸ Core.quiet_onDeliverBlk hw.roots hd)
      (hc ▸ Core.tally_onDeliverBlk hd)
  · obtain ⟨bnew, l, hbn, hl, hpl, hv, ht⟩ := Core.onPropose_self hw hps hx
    refine hi.of_core hp ⟨l, hl, fun b r hm => .inr ⟨(hv b r hm).2, (hv b r hm).1 ▸ hpl⟩⟩ ht
      (fun v hm => .inr ?_) (Core.tracks_exec (i := .propose cmds ps extra) hw ⟨hps, fun _ _ h => by cases h⟩ hx).keeps
      hrec hacc hprop
    obtain rfl := List.mem_singleton.mp hm
    exact ⟨rfl, bnew, hbn, by rw [hl]; exact List.mem_append_right _ hpl, rfl⟩

variable (H) in
/-- The core is left alone, or makes one call other than `prune` on an object that
exists. -/
def CoreStep (c c' : Core) : Prop := c' = c ∨ ∃ i, i.NoPrune c ∧ exec H c i = .ok c'

theorem coreStep_base {b b' : Base} (hi : b.PipeInv) {e : Event} (h : b.step H e = .ok b') :
    CoreStep H b.core b'.core :=
  (Base.step_call H hi h).imp_right fun ⟨i, hv, hx, _⟩ => ⟨i, hv, hx⟩

theorem Inv.ofPipe {s s' : Replica} (hi : s.Inv H) {e : Event} (h : s.pipe H e = .ok s') :
    s'.Inv H ∧ CoreStep H s.base.core s'.base.core := by
  obtain ⟨b, hb, rfl⟩ := except_map_eq_ok.mp h
  exact ⟨hi.step_pipe hb (List.Subset.refl _) (List.Subset.refl _) fun x hx => .inl hx,
    coreStep_base hi.pipe hb⟩

theorem Inv.receiveProposal {s : Replica} (hi : s.Inv H) {r : ReplicaID} {p : Ptr}
    (hx : (r, p) ∈ s.proposals) {c : Core} (hc : s.base.core.onReceiveProposal r p = .ok c)
    {l : List (ReplicaID × Ptr)} (hl : ∀ x ∈ l, x ∈ s.proposals) :
    { s.withCore c with proposals := l }.Inv H ∧ CoreStep H s.base.core c := by
  have hw := hi.pipe.wf
  obtain ⟨d, hrd, hst⟩ := hi.proposals _ hx
  have hp : p < s.base.core.next := (hw.roots.storage _ _ hst).1
  have hnp : (Input.receiveProposal r p).NoPrune s.base.core := ⟨hp, fun _ _ h => by cases h⟩
  have hk := (Core.tracks_exec (H := H) hw hnp hc).keeps
  obtain ⟨l', hl', hn⟩ := Core.onReceiveProposal_cast hw hp hc
  refine ⟨hi.of_core (hi.pipe.grow (Base.coreGrows_of_keeps hk) (hw.exec (H := H) hnp.1 hc))
    ⟨l', hl', fun b r' hb => .inl ?_⟩ (Core.tally_onReceiveProposal hc) (fun _ h => absurd h (List.not_mem_nil _))
    hk (List.Subset.refl _) (List.Subset.refl _) fun x hx => .inl (hl x hx), .inr ⟨_, hnp, hc⟩⟩
  obtain ⟨rfl, rfl⟩ := hn b r' hb
  exact ⟨r, d, rfl, hrd, hk.storage _ _ hst⟩

theorem Inv.receiveVote {s : Replica} (hi : s.Inv H) {v : Vote} {c : Core}
    (hc : s.base.core.onReceiveVote v = .ok c) (l : List (Vote × Option Bool)) :
    { s.withCore c with votes := l, accepted := s.accepted ++ [v] }.Inv H ∧ CoreStep H s.base.core c := by
  have hw := hi.pipe.wf
  have hnp : (Input.receiveVote v).NoPrune s.base.core := ⟨trivial, fun _ _ h => by cases h⟩
  have hk := (Core.tracks_exec (H := H) hw hnp hc).keeps
  obtain ⟨l', hl', hn⟩ := (Core.quiet_onReceiveVote hw hc).cast
  refine ⟨hi.of_core (hi.pipe.grow (Base.coreGrows_of_keeps hk) (hw.exec (H := H) hnp.1 hc))
    ⟨l', hl', fun b r hm => absurd hm (hn b r)⟩ (Core.tally_onReceiveVote hw hc) (fun v' hv' => .inl ?_) hk
    (List.Subset.refl _) (List.subset_append_left _ _) (fun x hx => .inl hx), .inr ⟨_, hnp, hc⟩⟩
  rw [List.mem_singleton.mp hv']
  exact List.mem_append_right _ (List.mem_singleton_self _)

theorem Inv.step {s s' : Replica} (hi : s.Inv H) {e : ReplicaEvent} (h : s.step H e = .ok s') :
    s'.Inv H ∧ CoreStep H s.base.core s'.base.core := by
  cases e with
  | propose r d =>
    simp only [Replica.step] at h
    obtain ⟨b, hb, rfl⟩ := except_map_eq_ok.mp h
    have hc : b.core = (s.base.core.addBlk (Block.ofData H d)).1 := by cases hb; simp
    refine ⟨hi.step_pipe hb (List.subset_append_left _ _) (List.Subset.refl _) fun x hx => ?_,
      coreStep_base hi.pipe hb⟩
    rcases List.mem_append.mp hx with hx | hx
    · exact .inl hx
    · obtain rfl := List.mem_singleton.mp hx
      refine .inr ⟨d, List.mem_append_right _ (List.mem_singleton_self _), ?_⟩
      have hst := Core.addBlk_stored hi.pipe.wf (Block.ofData H d)
      rw [Core.addBlk_hash hi.pipe.wf] at hst
      exact hc ▸ hst
  | vote v =>
    simp only [Replica.step] at h
    obtain ⟨b, hb, rfl⟩ := except_map_eq_ok.mp h
    exact ⟨hi.step_pipe hb (List.Subset.refl _) (List.Subset.refl _) fun x hx => .inl hx,
      coreStep_base hi.pipe hb⟩
  | respBlock d => exact hi.ofPipe h
  | notify n => exact hi.ofPipe h
  | fetched n => exact hi.ofPipe h
  | verified n v => exact hi.ofPipe h
  | allResolved n => exact hi.ofPipe h
  | onPropose cmds ps extra => exact hi.ofPipe h
  | proposalReady i =>
    simp only [Replica.step] at h
    split at h
    · rename_i r p hx
      split_ifs at h
      · obtain ⟨c, hc, rfl⟩ := except_map_eq_ok.mp h
        exact hi.receiveProposal (List.getElem?_mem hx) hc fun x hx => List.mem_of_mem_eraseIdx hx
      · cases h; exact ⟨hi, .inl rfl⟩
    · cases h; exact ⟨hi, .inl rfl⟩
  | voteVerified i ok =>
    simp only [Replica.step] at h
    split at h
    · cases h; exact ⟨⟨hi.pipe, hi.proposals, hi.cast, hi.counted⟩, .inl rfl⟩
    · cases h; exact ⟨hi, .inl rfl⟩
  | voteReady i =>
    simp only [Replica.step] at h
    split at h
    · split_ifs at h
      · obtain ⟨c, hc, rfl⟩ := except_map_eq_ok.mp h
        exact hi.receiveVote hc _
      · cases h; exact ⟨⟨hi.pipe, hi.proposals, hi.cast, hi.counted⟩, .inl rfl⟩
      · cases h; exact ⟨hi, .inl rfl⟩
    · cases h; exact ⟨hi, .inl rfl⟩

variable (H)

theorem reachable_inv {id : ReplicaID} {rs : List ReplicaID} {nfaulty : Nat} {s : Replica}
    (hr : Reachable H (init H id rs nfaulty) s) :
    s.Inv H ∧ HotStuff.Reachable H Input.NoPrune (Core.init H id rs nfaulty) s.base.core := by
  induction hr with
  | refl => exact ⟨inv_init H id rs nfaulty, .refl⟩
  | tail e _ he ih =>
    obtain ⟨hi', hc⟩ := ih.1.step he
    refine ⟨hi', ?_⟩
    rcases hc with hc | ⟨i, hv, hx⟩
    · rw [hc]; exact ih.2
    · exact ih.2.tail i hv hx

/-- Every run of a replica, its message handlers and their continuations included, is on
its core a run of calls other than `prune`, each on an object that exists. -/
theorem refines_core_noPrune {id : ReplicaID} {rs : List ReplicaID} {nfaulty : Nat} {s : Replica}
    (hr : Reachable H (init H id rs nfaulty) s) :
    HotStuff.Reachable H Input.NoPrune (Core.init H id rs nfaulty) s.base.core :=
  (reachable_inv H hr).2

/-- Replica 0 of four receives a `Propose` of replica 1 for a block `B` on genesis that
carries genesis's certificate, delivers `B` and votes for it, then counts the verified vote
of replica 2 for `B`. -/
theorem refines_core_noPrune_vote :
    ∃ s, Reachable extraHash (init extraHash 0 [0, 1, 2, 3] 1) s ∧ Effect.vote 1 (some 1) ∈ s.base.core.out ∧
      (s.base.core.heap 1).voted = [2] ∧
      HotStuff.Reachable extraHash Input.NoPrune (Core.init extraHash 0 [0, 1, 2, 3] 1) s.base.core :=
  have hr : Reachable extraHash (init extraHash 0 [0, 1, 2, 3] 1) _ := reachable_of_run extraHash
    [.propose 1 ⟨[0], [10], some ⟨0, [], true⟩, [1]⟩, .fetched 1, .verified 1 true, .allResolved 1,
      .proposalReady 0, .vote ⟨2, 1⟩, .voteVerified 0 true, .voteReady 0] .refl rfl
  ⟨_, hr, by decide, rfl, refines_core_noPrune extraHash hr⟩

/-- Every vote a replica sends answers a `Propose` it received: it goes to that message's
proposer, and is for the object stored under the hash of the block the message carried.
Its other votes are the self-votes of `on_propose`, each for a block it proposed. -/
theorem votes_answer_proposals {id : ReplicaID} {rs : List ReplicaID} {nfaulty : Nat} {s : Replica}
    (hr : Reachable H (init H id rs nfaulty) s) :
    (∀ b pr, Effect.vote b (some pr) ∈ s.base.core.out →
      ∃ d, (pr, d) ∈ s.received ∧ s.base.core.storage (H d) = some b) ∧
    ∀ b, Effect.vote b none ∈ s.base.core.out → Effect.propose b ∈ s.base.core.out := by
  have hc := (reachable_inv H hr).1.cast
  refine ⟨fun b pr hv => ?_, fun b hv => ?_⟩
  · rcases hc b _ hv with ⟨_, d, he, hd, hs⟩ | ⟨he, -⟩
    · cases he; exact ⟨d, hd, hs⟩
    · cases he
  · rcases hc b _ hv with ⟨_, _, he, -, -⟩ | ⟨-, hp⟩
    · cases he
    · exact hp

/-- Replica 0 of four proposes block 1 on genesis and votes for it itself; then it receives
a `Propose` of replica 1 for block 2 on block 1, delivers it and sends its vote to replica 1. -/
theorem votes_answer_proposals_vote :
    ∃ s, Reachable extraHash (init extraHash 0 [0, 1, 2, 3] 1) s ∧ Effect.vote 1 none ∈ s.base.core.out ∧
      Effect.vote 2 (some 1) ∈ s.base.core.out ∧
      (∀ b pr, Effect.vote b (some pr) ∈ s.base.core.out →
        ∃ d, (pr, d) ∈ s.received ∧ s.base.core.storage (extraHash d) = some b) ∧
      ∀ b, Effect.vote b none ∈ s.base.core.out → Effect.propose b ∈ s.base.core.out :=
  have hr : Reachable extraHash (init extraHash 0 [0, 1, 2, 3] 1) _ := reachable_of_run extraHash
    [.onPropose [7] [0] [2], .propose 1 ⟨[2], [8], some ⟨2, [], true⟩, [3]⟩, .fetched 3, .verified 3 true,
      .allResolved 3, .proposalReady 0] .refl rfl
  ⟨_, hr, by decide, by decide, votes_answer_proposals extraHash hr⟩

/-- Only verified votes are counted: every voter in the `voted` set of a block other than
genesis handed the replica a vote for that block's hash whose `verify` resolved with
`true`, or is the replica itself on a block it proposed. -/
theorem counted_votes_verified {id : ReplicaID} {rs : List ReplicaID} {nfaulty : Nat} {s : Replica}
    (hr : Reachable H (init H id rs nfaulty) s) :
    ∀ p < s.base.core.next, p ≠ s.base.core.b0 → ∀ x ∈ (s.base.core.heap p).voted,
      ⟨x, (s.base.core.heap p).hash⟩ ∈ s.accepted ∨ x = s.base.core.id ∧ Effect.propose p ∈ s.base.core.out := by
  obtain ⟨hi, hc⟩ := reachable_inv H hr
  have hl := Core.reachable_linked (fun _ _ h => h) hc
  intro p hp hp0 x hx
  refine (hi.counted p hp hp0 x hx).imp_right fun ⟨hid, q, hq, hqo, hh⟩ => ⟨hid, ?_⟩
  have hs := hl.stored q hq
  rw [hh] at hs
  rwa [Option.some.inj (hs.symm.trans (hl.stored p hp))] at hqo

/-- Block 1, which replica 0 proposed, counts the replica's own vote and the verified vote
of replica 2. -/
theorem counted_votes_verified_vote :
    ∃ s, Reachable extraHash (init extraHash 0 [0, 1, 2, 3] 1) s ∧ (s.base.core.heap 1).voted = [2, 0] ∧
      ∀ p < s.base.core.next, p ≠ s.base.core.b0 → ∀ x ∈ (s.base.core.heap p).voted,
        ⟨x, (s.base.core.heap p).hash⟩ ∈ s.accepted ∨ x = s.base.core.id ∧ Effect.propose p ∈ s.base.core.out :=
  have hr : Reachable extraHash (init extraHash 0 [0, 1, 2, 3] 1) _ := reachable_of_run extraHash
    [.onPropose [7] [0] [2], .vote ⟨2, 2⟩, .voteVerified 0 true, .voteReady 0] .refl rfl
  ⟨_, hr, rfl, counted_votes_verified extraHash hr⟩

end Replica

end HotStuff
