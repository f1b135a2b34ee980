import HotStuff.Monotone

/-!
# Votes, certificates and blocks without one

`update` starts with `if (blk == nullptr) throw std::runtime_error("empty qc_ref")`, so
a block with no certificate cannot go through `on_receive_proposal`, and `on_propose`
on a parent that has not gathered `nmajority` votes builds such a block and then
raises on it.

Of the two vote paths only `do_vote` in `on_receive_proposal` checks that the block
extends `hqc.first`; the self-vote of `on_propose` follows whatever parent the
pacemaker passes. And `on_propose` sets `self_qc` of the block `add_blk` returns, which
is the stored block when one with the same content exists, so the partial
certificates gathered for it are dropped while `voted` keeps their voters.
-/

namespace HotStuff
namespace Core

/-! ## Blocks without a certificate -/

theorem proposeStored_fresh_raises {s s' : Core} {bnew : Ptr}
    (hd : (s.heap bnew).delivered = false) (hq : (s.heap bnew).data.qc = none)
    (hr : (s.heap bnew).qcRef = none) : s.proposeStored bnew ≠ .ok s' := by
  intro h
  obtain ⟨r, s2, s3, -, h2, h3, -⟩ := proposeStored_cases h
  obtain ⟨blk, -, hblk, -⟩ := update_cases h3
  rcases onDeliverBlk_cases h2 with ⟨hd', -⟩ | ⟨-, -, p0, rest, qcRef, -, hres, rfl⟩
  · simp [hd] at hd'
  · rcases resolveQcRef_ok hres with ⟨-, rfl⟩ | ⟨qc, q, hqc, -⟩
    · simp [setDelivered, hr] at hblk
    · simp [hq] at hqc

/-- In every reachable state, a proposal of a delivered block whose data carries no
certificate raises `empty qc_ref`, and `on_propose` on a primary parent with fewer than
`nmajority` votes never returns when the block it builds is new. -/
theorem qcless_block_raises {H : BlockData → Hash} {id : ReplicaID} {rs : List ReplicaID}
    {nfaulty : Nat} {s : Core} (hr : Reachable H Input.Valid (init H id rs nfaulty) s) :
    (∀ (r : ReplicaID) (b : Ptr), b < s.next → (s.heap b).delivered = true →
      (s.heap b).data.qc = none → s.onReceiveProposal r b = .error (.runtimeError "empty qc_ref")) ∧
    (∀ (cmds : List Hash) (p : Ptr) (rest : List Ptr) (extra : List Nat) (s' : Core),
      s.storage (H ⟨(p :: rest).map fun q => (s.heap q).hash, cmds, none, extra⟩) = none →
      (s.heap p).voted.length < s.nmajority → s.onPropose H cmds (p :: rest) extra ≠ .ok s') := by
  refine ⟨fun r b hb hd hq => ?_, fun cmds p rest extra s' hs hv h => ?_⟩
  · have hn := ((reachable_wf (fun _ _ h => h) hr).obj b hb).qc_none hq
    simp [onReceiveProposal, hd, update, hn, Except.bind]
  · obtain ⟨p', rest', r, heq, hr', h'⟩ := onPropose_cases h
    obtain ⟨rfl, rfl⟩ := List.cons.inj heq
    have hr0 : r = (none, none) := by
      unfold proposalQc at hr'
      rw [if_neg (by simpa using hv)] at hr'
      cases hr'; rfl
    subst hr0
    rw [addBlk_of_none _ _ hs] at h'
    exact proposeStored_fresh_raises (by simp [Block.new, Block.ofData])
      (by simp [Block.new, Block.ofData]) (by simp [Block.new, Block.ofData]) h'

/-- Block 1, fetched without a certificate and delivered, raises `empty qc_ref` when
proposed, and `on_propose` on it, with no votes counted, never returns. -/
theorem qcless_block_raises_fetched :
    ∃ s, Reachable extraHash Input.Valid (init extraHash 0 [0, 1, 2, 3] 1) s ∧
    (s.heap 1).delivered = true ∧ (s.heap 1).data.qc = none ∧
    s.onReceiveProposal 1 1 = .error (.runtimeError "empty qc_ref") ∧
    (∀ s', s.onPropose extraHash [11] [1] [2] ≠ .ok s') ∧
    (∀ (r : ReplicaID) (b : Ptr), b < s.next → (s.heap b).delivered = true →
      (s.heap b).data.qc = none → s.onReceiveProposal r b = .error (.runtimeError "empty qc_ref")) ∧
    (∀ (cmds : List Hash) (p : Ptr) (rest : List Ptr) (extra : List Nat) (s' : Core),
      s.storage (extraHash ⟨(p :: rest).map fun q => (s.heap q).hash, cmds, none, extra⟩) = none →
      (s.heap p).voted.length < s.nmajority → s.onPropose extraHash cmds (p :: rest) extra ≠ .ok s') :=
  have hr := reachable_of_runFrom extraHash (init extraHash 0 [0, 1, 2, 3] 1)
    ([.fetch ⟨[0], [10], none, [1]⟩, .deliver 1]) rfl
  have h := qcless_block_raises hr
  ⟨_, hr, rfl, rfl, h.1 1 1 (by decide) rfl rfl, fun s' => h.2 [11] 1 [] [2] s' rfl (by decide), h⟩

/-! ## The two vote paths -/

/-- `do_vote` only votes for a block whose primary chain meets the height of
`hqc.first` at `hqc.first`, as `hqc` stands when the vote is sent. -/
theorem receiveProposal_vote_extends_hqc {H : BlockData → Hash} {id : ReplicaID}
    {rs : List ReplicaID} {nfaulty : Nat} {s s' : Core} {r : ReplicaID} {b : Ptr}
    (hr : Reachable H Input.Valid (init H id rs nfaulty) s) (hb : b < s.next)
    (h : s.onReceiveProposal r b = .ok s') :
    s'.votes = s.votes ∨ s'.votes = s.votes ++ [b] ∧ ∃ q, WalkPath s' s'.hqcHeight b s'.hqc.1 q := by
  obtain ⟨-, s1, op, h1, h2, rfl⟩ := onReceiveProposal_cases h
  have hv1 := (quiet_update (reachable_wf (fun _ _ h => h) hr) hb h1).2
  have hvotes : ∀ (v : Nat) (l : List Effect), l.filterMap Effect.voteBlk = [] →
      votes { s1 with vheight := v, out := s1.out ++ l } = s.votes := fun v l hl => by
    rw [← hv1]; simp [votes, hl]
  cases op with
  | false =>
    exact .inl (by
      simpa [List.append_assoc] using hvotes _ _ (by cases (s1.heap b).qcRef <;> simp [Effect.voteBlk]))
  | true =>
    unfold opinion at h2
    split_ifs at h2 with hlt
    · obtain ⟨w, hw, hw1⟩ := except_map_eq_ok.mp h2
      have hpath : WalkPath s1 s1.hqcHeight b s1.hqc.1 w.2 := by
        have := walk_path hw; rwa [of_decide_eq_true hw1] at this
      cases hn : s1.negVote
      · refine .inr ⟨?_, w.2, hpath.transfer fun _ _ => ⟨rfl, rfl⟩⟩
        rw [← hv1]
        cases (s1.heap b).qcRef <;> simp [votes, hn, Effect.voteBlk]
      · refine .inl ?_
        simpa [List.append_assoc, hn] using
          hvotes _ _ (by cases (s1.heap b).qcRef <;> simp [Effect.voteBlk])
    · cases h2

theorem receiveProposal_vote_extends_hqc_run :
    ∃ s s', Reachable extraHash Input.Valid (init extraHash 0 [0, 1, 2, 3] 1) s ∧ 2 < s.next ∧
      s.onReceiveProposal 1 2 = .ok s' ∧
      (s'.votes = s.votes ∨ s'.votes = s.votes ++ [2] ∧ ∃ q, WalkPath s' s'.hqcHeight 2 s'.hqc.1 q) :=
  have hr := reachable_of_runFrom extraHash (init extraHash 0 [0, 1, 2, 3] 1)
    ([.fetch ⟨[0], [10], some ⟨0, [], true⟩, [1]⟩, .deliver 1,
      .fetch ⟨[1], [11], some ⟨1, [1, 2, 3], true⟩, [2]⟩, .deliver 2]) rfl
  ⟨_, _, hr, by decide, rfl, receiveProposal_vote_extends_hqc hr (by decide) rfl⟩

/-- The self-vote of `on_propose` can be for a block off the branch of `hqc.first`:
three votes certify a block `A` at height 1, so `hqc.first = A`, and the pacemaker then
proposes on `b0`. -/
theorem self_vote_off_hqc_branch :
    ∃ s s', Reachable extraHash Input.Valid (init extraHash 0 [0, 1, 2, 3] 1) s ∧
      s.onPropose extraHash [20] [0] [2] = .ok s' ∧ s'.votes = s.votes ++ [2] ∧
      ¬ ∃ q, WalkPath s' s'.hqcHeight 2 s'.hqc.1 q := by
  have hr := reachable_of_runFrom extraHash (init extraHash 0 [0, 1, 2, 3] 1)
    ([.fetch ⟨[0], [10], some ⟨0, [], true⟩, [1]⟩, .deliver 1, .receiveVote ⟨1, 1⟩,
      .receiveVote ⟨2, 1⟩, .receiveVote ⟨3, 1⟩]) rfl
  exact ⟨_, _, hr, rfl, rfl, not_walkPath_of_walk rfl (by decide)⟩

/-! ## Re-proposing a stored block -/

/-- `on_propose` with the content of a block already stored, which two replicas voted
for, resets its `self_qc`: the self-vote then completes a certificate holding one part
while `voted` names three replicas. -/
theorem repropose_resets_selfQc :
    ∃ s s', Reachable extraHash Input.Valid (init extraHash 0 [0, 1, 2, 3] 1) s ∧
      (s.heap 1).voted = [2, 1] ∧ (s.heap 1).selfQc = some ⟨1, [1, 2], false⟩ ∧
      s.onPropose extraHash [10] [0] [1] = .ok s' ∧
      (s'.heap 1).voted = [0, 2, 1] ∧ (s'.heap 1).selfQc = some ⟨1, [0], true⟩ :=
  ⟨_, _, reachable_of_runFrom extraHash (init extraHash 0 [0, 1, 2, 3] 1)
    ([.fetch ⟨[0], [10], some ⟨0, [], true⟩, [1]⟩, .deliver 1, .receiveVote ⟨1, 1⟩,
      .receiveVote ⟨2, 1⟩]) rfl, rfl, rfl, rfl, rfl, rfl⟩

end Core
end HotStuff
