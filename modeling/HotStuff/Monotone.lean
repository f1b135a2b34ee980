import HotStuff.Ancestry

/-!
# Monotone state and increasing votes

Every call of a replica `Grows` its state: objects are only added, delivered blocks
keep their height, `vheight`, the height of `hqc.first` and the height of `bexec` do
not go down, effects are only appended, and `bexec` stays at or below `hqc.first`.
Only `on_propose` and `on_receive_proposal` cast votes, each at most one and each for
a block above `vheight`, which then moves up to it; so the heights of the blocks the
replica voted for increase strictly along every run.
-/

namespace HotStuff

def Effect.voteBlk : Effect → Option Ptr
  | .vote b _ => some b
  | _ => none

namespace Core

def hqcHeight (s : Core) : Nat := (s.heap s.hqc.1).height

def bexecHeight (s : Core) : Nat := (s.heap s.bexec).height

def votes (s : Core) : List Ptr := s.out.filterMap Effect.voteBlk

def voteHeights (s : Core) : List Nat := s.votes.map fun b => (s.heap b).height

/-- What a call does to the quantities that only grow. -/
structure Grows (s s' : Core) : Prop where
  next_le : s.next ≤ s'.next
  keep : ∀ a < s.next, (s.heap a).delivered = true →
    (s'.heap a).delivered = true ∧ (s'.heap a).height = (s.heap a).height
  vheight_le : s.vheight ≤ s'.vheight
  hqc_le : s.hqcHeight ≤ s'.hqcHeight
  bexec_le : s.bexecHeight ≤ s'.bexecHeight
  below : s.bexecHeight ≤ s.hqcHeight → s'.bexecHeight ≤ s'.hqcHeight
  out : s.out <+: s'.out

/-- A call that grows the state and casts no vote. -/
def Quiet (s s' : Core) : Prop := Grows s s' ∧ s'.votes = s.votes

theorem Grows.refl (s : Core) : Grows s s :=
  ⟨le_rfl, fun _ _ h => ⟨h, rfl⟩, le_rfl, le_rfl, le_rfl, fun h => h, List.prefix_refl _⟩

theorem Grows.trans {s1 s2 s3 : Core} (h1 : Grows s1 s2) (h2 : Grows s2 s3) : Grows s1 s3 where
  next_le := h1.next_le.trans h2.next_le
  keep a ha hd := by
    obtain ⟨hd2, hh2⟩ := h1.keep a ha hd
    obtain ⟨hd3, hh3⟩ := h2.keep a (lt_of_lt_of_le ha h1.next_le) hd2
    exact ⟨hd3, hh3.trans hh2⟩
  vheight_le := h1.vheight_le.trans h2.vheight_le
  hqc_le := h1.hqc_le.trans h2.hqc_le
  bexec_le := h1.bexec_le.trans h2.bexec_le
  below h := h2.below (h1.below h)
  out := h1.out.trans h2.out

theorem Quiet.refl (s : Core) : Quiet s s := ⟨.refl s, rfl⟩

theorem Quiet.trans {s1 s2 s3 : Core} (h1 : Quiet s1 s2) (h2 : Quiet s2 s3) : Quiet s1 s3 :=
  ⟨h1.1.trans h2.1, h2.2.trans h1.2⟩

theorem Grows.of_frame {s s' : Core} (hr : Roots s.heap s.next s.storage s.b0 s.bexec s.hqc.1) (hn : s.next ≤ s'.next)
    (hk : ∀ a < s.next, (s.heap a).delivered = true →
      (s'.heap a).delivered = true ∧ (s'.heap a).height = (s.heap a).height)
    (hv : s.vheight ≤ s'.vheight) (hq : s'.hqc.1 = s.hqc.1) (hb : s'.bexec = s.bexec)
    (ho : s.out <+: s'.out) : Grows s s' := by
  have hqh : s'.hqcHeight = s.hqcHeight := by
    rw [hqcHeight, hq]; exact (hk _ hr.hqc_lt hr.hqc_delivered).2
  have hbh : s'.bexecHeight = s.bexecHeight := by
    rw [bexecHeight, hb]; exact (hk _ hr.bexec_lt hr.bexec_delivered).2
  exact ⟨hn, hk, hv, hqh.ge, hbh.ge, fun h => by rw [hqh, hbh]; exact h, ho⟩

@[simp] theorem votes_emit (s : Core) (e : Effect) : (s.emit e).votes = s.votes ++ e.voteBlk.toList := by
  cases e <;> simp [votes, Effect.voteBlk]

theorem quiet_emit {s : Core} (hr : Roots s.heap s.next s.storage s.b0 s.bexec s.hqc.1) {e : Effect} (he : e.voteBlk = none) : Quiet s (s.emit e) :=
  ⟨.of_frame hr le_rfl (fun _ _ h => ⟨h, rfl⟩) le_rfl rfl rfl (List.prefix_append _ _),
    by simp [he]⟩

theorem quiet_modBlk {s : Core} (hr : Roots s.heap s.next s.storage s.b0 s.bexec s.hqc.1) {b : Ptr} {f : Block → Block}
    (hf : (s.heap b).delivered = true →
      (f (s.heap b)).delivered = true ∧ (f (s.heap b)).height = (s.heap b).height) :
    Quiet s (s.modBlk b f) := by
  refine ⟨.of_frame hr le_rfl (fun a _ ha => ?_) le_rfl rfl rfl (List.prefix_refl _), rfl⟩
  by_cases hab : a = b
  · subst hab; simpa using hf ha
  · simpa [hab] using ha

theorem quiet_keepsShape {s : Core} (hr : Roots s.heap s.next s.storage s.b0 s.bexec s.hqc.1) {b : Ptr} {f : Block → Block} (hf : KeepsShape f) :
    Quiet s (s.modBlk b f) :=
  quiet_modBlk hr fun hd => ⟨by rw [hf.delivered]; exact hd, hf.height _⟩

/-! ## `update_hqc` and `update` -/

theorem updateHqc_hqcHeight {s s' : Core} {blk : Ptr} {qc : Option QuorumCert}
    (h : s.updateHqc blk qc = .ok s') : (s.heap blk).height ≤ s'.hqcHeight ∧ s.hqcHeight ≤ s'.hqcHeight := by
  unfold updateHqc at h
  split at h
  · split at h
    · cases h; exact ⟨le_rfl, (by assumption : s.hqcHeight < _).le⟩
    · cases h
  · cases h; exact ⟨by unfold hqcHeight; omega, le_rfl⟩

theorem quiet_updateHqc {s s' : Core} (hw : s.Wf) {blk : Ptr} {qc : Option QuorumCert}
    (h : s.updateHqc blk qc = .ok s') : Quiet s s' := by
  have hh := (updateHqc_hqcHeight h).2
  rcases updateHqc_cases h with rfl | ⟨-, q, -, rfl⟩
  · exact .refl _
  · refine ⟨⟨le_rfl, fun _ _ h => ⟨h, rfl⟩, le_rfl, hh, le_rfl, fun hb => hb.trans hh,
      List.prefix_append _ _⟩, by simp [votes, Effect.voteBlk]⟩

theorem WalkPath.height_le {s : Core} {h : Nat} {b e : Ptr} {q : List Ptr}
    (hp : WalkPath s h b e q) : e = b ∨ h < (s.heap b).height := by
  cases hp with
  | stop => exact .inl rfl
  | step hlt => exact .inr hlt

theorem foldl_commitBlk_eq (s : Core) (l : List Ptr) :
    l.foldl commitBlk s = { s with heap := (l.foldl commitBlk s).heap, out := (l.foldl commitBlk s).out } := by
  induction l generalizing s with
  | nil => rfl
  | cons b l ih => rw [List.foldl_cons, ih]; rfl

theorem foldl_commitBlk_votes (s : Core) (l : List Ptr) : (l.foldl commitBlk s).votes = s.votes := by
  induction l generalizing s with
  | nil => rfl
  | cons b l ih =>
    rw [List.foldl_cons, ih]
    simp [commitBlk, votes, List.filterMap_map, Effect.voteBlk]

theorem foldl_commitBlk_out (s : Core) (l : List Ptr) : s.out <+: (l.foldl commitBlk s).out := by
  induction l generalizing s with
  | nil => exact List.prefix_refl _
  | cons b l ih => exact (List.prefix_append _ _).trans (ih (s.commitBlk b))

theorem quiet_checkCommit {s s' : Core} (hw : s.Wf) {blk : Ptr} (hb : blk < s.next)
    (hh : (s.heap blk).height ≤ s.hqcHeight) (h : s.checkCommit blk = .ok s') : Quiet s s' := by
  rcases checkCommit_cases h with rfl | ⟨p, rest, r, -, -, hp, -, hr, he, rfl⟩
  · exact .refl _
  have hkeep : ∀ x, ((s.commit r.2 p).heap x).height = (s.heap x).height ∧
      ((s.commit r.2 p).heap x).delivered = (s.heap x).delivered := fun x => by
    obtain ⟨d, hd⟩ := foldl_commitBlk_heap s r.2.reverse x
    change ((r.2.reverse.foldl commitBlk s).heap x).height = _ ∧
      ((r.2.reverse.foldl commitBlk s).heap x).delivered = _
    rw [hd]; exact ⟨rfl, rfl⟩
  have hfields : (s.commit r.2 p).hqc = s.hqc ∧ (s.commit r.2 p).vheight = s.vheight := by
    unfold commit; rw [foldl_commitBlk_eq]; exact ⟨rfl, rfl⟩
  have hqh : (s.commit r.2 p).hqcHeight = s.hqcHeight := by
    unfold hqcHeight; rw [hfields.1]; exact (hkeep _).1
  have hbh : (s.commit r.2 p).bexecHeight = (s.heap p).height := (hkeep p).1
  have hpb : (s.heap blk).height = (s.heap p).height + 1 := (hw.parent hb hp).2.2
  have hpe : s.bexecHeight ≤ (s.heap p).height := by
    rcases (walk_path hr).height_le with h' | h'
    · rw [← h', he]; exact le_rfl
    · exact h'.le
  refine ⟨⟨(foldl_commitBlk_next s _).ge, fun a _ ha => ⟨(hkeep a).2.trans ha, (hkeep a).1⟩,
    hfields.2.ge, hqh.ge, hbh ▸ hpe, fun _ => by omega, foldl_commitBlk_out s _⟩,
    foldl_commitBlk_votes s _⟩

theorem quiet_update {s s' : Core} (hw : s.Wf) {nblk : Ptr} (hn : nblk < s.next)
    (h : s.update nblk = .ok s') : Quiet s s' := by
  obtain ⟨blk, s1, hblk, h1, h2⟩ := update_cases h
  have hb := (hw.obj nblk hn).qcRef_lt blk hblk
  obtain ⟨hheap, hnext, -⟩ := updateHqc_heap h1
  refine (quiet_updateHqc hw h1).trans (quiet_checkCommit (hw.updateHqc hb h1) (hnext ▸ hb) ?_ h2)
  rw [hheap]; exact (updateHqc_hqcHeight h1).1

/-! ## The calls -/

theorem quiet_onReceiveVote {s s' : Core} (hw : s.Wf) {v : Vote} (h : s.onReceiveVote v = .ok s') :
    Quiet s s' := by
  obtain ⟨b, -, hc⟩ := onReceiveVote_cases h
  rcases hc with rfl | ⟨qc, -, -, rfl | ⟨-, h'⟩⟩
  · exact .refl _
  · exact quiet_keepsShape hw.roots (keepsShape_vote (v.voter :: ·) fun _ => some qc)
  · have hk := keepsShape_vote (v.voter :: ·) fun _ => some qc
    have w1 := (hk.wf (b := b) hw).emit (.qcFinish b)
    exact (quiet_keepsShape hw.roots hk).trans ((quiet_emit (hk.wf hw).roots (e := .qcFinish b) rfl).trans
      (quiet_updateHqc w1 h'))

theorem quiet_onDeliverBlk {s s' : Core} (hr : Roots s.heap s.next s.storage s.b0 s.bexec s.hqc.1) {b : Ptr} {r : Bool}
    (h : s.onDeliverBlk b = .ok (r, s')) : Quiet s s' := by
  rcases onDeliverBlk_cases h with ⟨-, -, rfl⟩ | ⟨hd, -, p0, rest, qcRef, -, -, rfl⟩
  · exact .refl _
  · have := quiet_modBlk hr (b := b) (f := setDelivered (p0 :: rest) ((s.heap p0).height + 1) qcRef)
      (fun h' => by rw [hd] at h'; cases h')
    exact ⟨.of_frame hr le_rfl this.1.keep le_rfl rfl rfl (List.prefix_refl _), this.2⟩

theorem quiet_addBlk {s : Core} (hr : Roots s.heap s.next s.storage s.b0 s.bexec s.hqc.1) (x : Block) : Quiet s (s.addBlk x).1 := by
  cases hs : s.storage x.hash with
  | some p => rw [addBlk_of_some s x hs]; exact .refl _
  | none =>
    rw [addBlk_of_none s x hs]
    exact ⟨.of_frame hr (Nat.le_succ _) (fun a ha hd => by simp [ha.ne, hd]) le_rfl rfl rfl
      (List.prefix_refl _), rfl⟩

theorem Trims.quiet {f : Block → Block} (hf : Trims f) {s : Core} (hw : s.Wf) (b : Ptr) :
    Quiet s (s.modBlk b f) :=
  quiet_modBlk hw.roots fun hd => ⟨by rw [hf.delivered]; exact hd, hf.height _⟩

theorem quiet_pruneLoop {rel : Ptr → Bool} :
    ∀ {fuel : Nat} {s s' : Core} {stk : List Ptr}, s.Wf → pruneLoop rel fuel s stk = .ok s' → Quiet s s'
  | 0, _, _, _, _, h => by cases h
  | fuel + 1, s, s', [], hw, h => by cases h; exact .refl _
  | fuel + 1, s, s', b :: stk, hw, h => by
    unfold Core.pruneLoop at h
    split at h
    · have hrel : Quiet s (tryReleaseBlk rel s b) ∧ (tryReleaseBlk rel s b).Wf := by
        unfold tryReleaseBlk
        split_ifs
        · exact ⟨⟨.of_frame hw.roots le_rfl (fun _ _ h => ⟨h, rfl⟩) le_rfl rfl rfl (List.prefix_refl _),
            rfl⟩, hw.releaseBlk _⟩
        · exact ⟨.refl s, hw⟩
      exact hrel.1.trans (quiet_pruneLoop hrel.2 h)
    · exact (trims_pop.quiet hw b).trans (quiet_pruneLoop (trims_pop.wf hw b) h)

theorem quiet_prune {s s' : Core} (hw : s.Wf) {rel : Ptr → Bool} {k : Nat}
    (h : s.prune rel k = .ok s') : Quiet s s' := by
  unfold Core.prune at h
  split at h
  · cases h; exact .refl _
  · exact (trims_clear.quiet hw _).trans (quiet_pruneLoop (trims_clear.wf hw _) h)

/-- `prune` follows uncle edges too, so it can empty the parents of a fork block above
`bexec`. Blocks `F1 ← F2 ← F3 ← F4` form a fork of `b0`; `M` (height 1) has parents
`[b0, F3]`; `N` and `O` extend `M`, and the proposal of `O` commits `M`. `prune(0)` from
`M` empties the parents of `F3`, still at height 3, and releases `F1` and `F2`; `F4`
keeps `F3` in the storage. A proposal of `G` on `F3`, whose certificate names `b0`,
then walks from `G` down to the height of `hqc.first = N` and reads `parents[0]` of
`F3`. -/
theorem pruned_uncle_walk_falls_off :
    ∃ s0, Reachable extraHash Input.Valid (init extraHash 0 [0, 1, 2, 3] 1) s0 ∧
      ¬ s0.Held 1 ∧ ¬ s0.Held 2 ∧ ∃ s s1, Reachable extraHash Input.Valid s0 s ∧
      s.bexec = 5 ∧ (s.heap 3).delivered = true ∧ (s.heap 3).parents = [] ∧
      (s.heap 3).height = 3 ∧ s.update 8 = .ok s1 ∧ s1.vheight < (s1.heap 8).height ∧
      s1.walk 8 s1.hqcHeight = .error .emptyParents ∧
      exec extraHash s (.receiveProposal 1 8) = .error .emptyParents :=
  ⟨_, reachable_of_runFrom extraHash (init extraHash 0 [0, 1, 2, 3] 1)
    [.fetch ⟨[0], [], some ⟨0, [], true⟩, [1]⟩, .deliver 1,
      .fetch ⟨[1], [], some ⟨1, [], true⟩, [2]⟩, .deliver 2,
      .fetch ⟨[2], [], some ⟨2, [], true⟩, [3]⟩, .deliver 3,
      .fetch ⟨[3], [], some ⟨3, [], true⟩, [4]⟩, .deliver 4,
      .fetch ⟨[0, 3], [], some ⟨0, [], true⟩, [5]⟩, .deliver 5,
      .fetch ⟨[5], [], some ⟨5, [], true⟩, [6]⟩, .deliver 6,
      .fetch ⟨[6], [], some ⟨6, [], true⟩, [7]⟩, .deliver 7, .receiveProposal 1 7,
      .prune 0 fun b => decide (b = 1 ∨ b = 2)] rfl,
    by decide, by decide,
    _, _, reachable_of_runFrom extraHash _ [.fetch ⟨[3], [], some ⟨0, [], true⟩, [8]⟩, .deliver 8] rfl,
    rfl, rfl, rfl, rfl, rfl, by decide, rfl, rfl⟩

/-! ## Votes -/

/-- The votes cast so far are for delivered blocks of strictly increasing height, none
above `vheight`. -/
structure VoteInv (s : Core) : Prop where
  lt : ∀ b ∈ s.votes, b < s.next
  delivered : ∀ b ∈ s.votes, (s.heap b).delivered = true
  le_vheight : ∀ b ∈ s.votes, (s.heap b).height ≤ s.vheight
  sorted : s.voteHeights.Pairwise (· < ·)

theorem Grows.voteHeights {s s' : Core} (hg : Grows s s') (hv : VoteInv s) (he : s'.votes = s.votes) :
    s'.voteHeights = s.voteHeights := by
  unfold Core.voteHeights
  rw [he]
  exact List.map_congr_left fun b hb => (hg.keep b (hv.lt b hb) (hv.delivered b hb)).2

theorem Quiet.voteInv {s s' : Core} (hq : Quiet s s') (hv : VoteInv s) : VoteInv s' where
  lt b hb := lt_of_lt_of_le (hv.lt b (hq.2 ▸ hb)) hq.1.next_le
  delivered b hb := (hq.1.keep b (hv.lt b (hq.2 ▸ hb)) (hv.delivered b (hq.2 ▸ hb))).1
  le_vheight b hb := by
    rw [(hq.1.keep b (hv.lt b (hq.2 ▸ hb)) (hv.delivered b (hq.2 ▸ hb))).2]
    exact (hv.le_vheight b (hq.2 ▸ hb)).trans hq.1.vheight_le
  sorted := by rw [hq.1.voteHeights hv hq.2]; exact hv.sorted

theorem VoteInv.cast {s : Core} (hv : VoteInv s) {b : Ptr} (hb : b < s.next)
    (hd : (s.heap b).delivered = true) (hlt : s.vheight < (s.heap b).height) {l : List Effect}
    (hes : l.filterMap Effect.voteBlk = [] ∨ l.filterMap Effect.voteBlk = [b]) :
    VoteInv { s with vheight := (s.heap b).height, out := s.out ++ l } := by
  have hvotes : ({ s with vheight := (s.heap b).height, out := s.out ++ l } : Core).votes =
      s.votes ++ l.filterMap Effect.voteBlk := List.filterMap_append s.out l _
  have hmem : ∀ x ∈ s.votes ++ l.filterMap Effect.voteBlk, x ∈ s.votes ∨ x = b := by
    intro x hx
    rcases hes with h | h <;> rw [h] at hx
    · exact .inl (by simpa using hx)
    · simpa using hx
  refine ⟨fun x hx => ?_, fun x hx => ?_, fun x hx => ?_, ?_⟩
  · rw [hvotes] at hx; rcases hmem x hx with hx | rfl; exacts [hv.lt x hx, hb]
  · rw [hvotes] at hx; rcases hmem x hx with hx | rfl; exacts [hv.delivered x hx, hd]
  · rw [hvotes] at hx
    rcases hmem x hx with hx | rfl
    · exact (hv.le_vheight x hx).trans hlt.le
    · exact le_rfl
  · unfold Core.voteHeights
    rw [hvotes, List.map_append]
    refine List.pairwise_append.mpr ⟨hv.sorted, ?_, fun x hx y hy => ?_⟩
    · rcases hes with h | h <;> simp [h]
    · obtain ⟨x', hx', rfl⟩ := List.mem_map.mp hx
      obtain ⟨y', hy', rfl⟩ := List.mem_map.mp hy
      have : y' = b := by rcases hes with h | h <;> simp_all
      subst this
      exact lt_of_le_of_lt (hv.le_vheight x' hx') hlt

theorem opinion_vheight {s : Core} {bnew : Ptr} (h : s.opinion bnew = .ok true) :
    s.vheight < (s.heap bnew).height := by
  unfold opinion at h
  split_ifs at h with hlt
  · exact hlt
  · cases h

theorem onReceiveProposal_grows {s s' : Core} (hw : s.Wf) {r : ReplicaID} {bnew : Ptr}
    (hb : bnew < s.next) (h : s.onReceiveProposal r bnew = .ok s') :
    Grows s s' ∧ (VoteInv s → VoteInv s') := by
  obtain ⟨hd, s1, op, h1, h2, rfl⟩ := onReceiveProposal_cases h
  have hq1 := quiet_update hw hb h1
  have w1 := hw.update hb h1
  have hd1 := (hq1.1.keep bnew hb hd).1
  have hb1 := lt_of_lt_of_le hb hq1.1.next_le
  cases op with
  | false =>
    simp only [Bool.false_eq_true, ↓reduceIte, false_and, List.append_nil]
    have hq : Quiet s1 { s1 with out := s1.out ++ (s1.heap bnew).qcRef.toList.map .qcFinish } :=
      ⟨.of_frame w1.roots le_rfl (fun _ _ h => ⟨h, rfl⟩) le_rfl rfl rfl (List.prefix_append _ _),
        by cases (s1.heap bnew).qcRef <;> simp [votes, Effect.voteBlk]⟩
    exact ⟨hq1.1.trans hq.1, fun hv => hq.voteInv (hq1.voteInv hv)⟩
  | true =>
    have hlt := opinion_vheight h2
    simp only [if_true, true_and, List.append_assoc]
    refine ⟨hq1.1.trans (.of_frame w1.roots le_rfl (fun _ _ h => ⟨h, rfl⟩) hlt.le rfl rfl
      (List.prefix_append _ _)), fun hv => (hq1.voteInv hv).cast hb1 hd1 hlt ?_⟩
    cases (s1.heap bnew).qcRef <;> cases s1.negVote <;> simp [Effect.voteBlk]

theorem proposeStored_grows {s s' : Core} {bnew : Ptr} (hs : s.WfBut bnew)
    (h : s.proposeStored bnew = .ok s') : Grows s s' ∧ (VoteInv s → VoteInv s') ∧
      s'.votes = s.votes ++ [bnew] ∧ s.vheight < (s'.heap bnew).height ∧
      (s'.heap bnew).delivered = true := by
  obtain ⟨r, s2, s3, s4, h2, h3, hlt, h4, rfl⟩ := proposeStored_cases h
  have hk := keepsShape_vote (fun l => l) fun _ => some (createQuorumCert (s.heap bnew).hash)
  have hq1 := quiet_keepsShape hs.roots (b := bnew) hk
  have hq2 := quiet_onDeliverBlk (hk.roots hs.roots) h2
  have w2 := hs.onDeliverBlk h2
  have hn2 : bnew < s2.next := lt_of_lt_of_le hs.lt hq2.1.next_le
  have hq3 := quiet_update w2 hn2 h3
  have w3 := w2.update hn2 h3
  have hd3 : (s3.heap bnew).delivered = true := by
    rcases onDeliverBlk_cases h2 with ⟨hd, -, rfl⟩ | ⟨-, -, _, _, _, -, -, rfl⟩
    · exact (hq3.1.keep bnew hn2 hd).1
    · exact (hq3.1.keep bnew hn2 (by simp [setDelivered])).1
  have w3' : { s3 with vheight := (s3.heap bnew).height }.Wf := ⟨w3.obj, w3.roots⟩
  have hq4 := quiet_onReceiveVote (w3'.emit _) h4
  have hq5 := quiet_emit ((w3'.emit _).onReceiveVote h4).roots (e := .propose bnew) rfl
  have hg3 : Grows s3 ({ s3 with vheight := (s3.heap bnew).height }.emit (.vote bnew none)) :=
    .of_frame w3.roots le_rfl (fun _ _ h => ⟨h, rfl⟩) hlt.le rfl rfl (List.prefix_append _ _)
  have hq13 := (hq1.trans hq2).trans hq3
  have hk5 := (hq4.trans hq5).1.keep bnew (lt_of_lt_of_le hn2 hq3.1.next_le) hd3
  refine ⟨(hq13.1.trans hg3).trans (hq4.trans hq5).1, fun hv => ?_, ?_,
    by rw [hk5.2]; exact lt_of_le_of_lt hq13.1.vheight_le hlt, hk5.1⟩
  · refine (hq4.trans hq5).voteInv ?_
    exact (hq13.voteInv hv).cast (lt_of_lt_of_le hn2 hq3.1.next_le) hd3 hlt
      (l := [.vote bnew none]) (.inr rfl)
  · rw [(hq4.trans hq5).2, votes_emit, ← hq13.2]; rfl

theorem onPropose_grows {H : BlockData → Hash} {s s' : Core} (hw : s.Wf) {cmds : List Hash}
    {parents : List Ptr} {extra : List Nat} (hps : ∀ p ∈ parents, p < s.next)
    (h : s.onPropose H cmds parents extra = .ok s') : Grows s s' ∧ (VoteInv s → VoteInv s') := by
  obtain ⟨x, -, hs, h'⟩ := onPropose_stored hw hps h
  have hq0 : Quiet s { s with tails := s.tails.filter fun t => t ∉ parents } :=
    ⟨.of_frame hw.roots le_rfl (fun _ _ h => ⟨h, rfl⟩) le_rfl rfl rfl (List.prefix_refl _), rfl⟩
  have hq := hq0.trans (quiet_addBlk (s := { s with tails := s.tails.filter fun t => t ∉ parents })
    hw.roots x)
  have g := proposeStored_grows hs h'
  exact ⟨hq.1.trans g.1, fun hv => g.2.1 (hq.voteInv hv)⟩

/-- Every call grows the state and keeps the votes increasing. -/
theorem exec_grows {H : BlockData → Hash} {s s' : Core} (hw : s.Wf) {i : Input} (hv : i.Valid s)
    (h : exec H s i = .ok s') : Grows s s' ∧ (VoteInv s → VoteInv s') := by
  have ofQuiet : Quiet s s' → Grows s s' ∧ (VoteInv s → VoteInv s') := fun hq => ⟨hq.1, hq.voteInv⟩
  cases i with
  | fetch d => cases h; exact ofQuiet (quiet_addBlk hw.roots _)
  | deliver b =>
    obtain ⟨⟨r, s''⟩, h', rfl⟩ := except_map_eq_ok.mp h
    exact ofQuiet (quiet_onDeliverBlk hw.roots h')
  | propose cmds parents extra => exact onPropose_grows hw hv h
  | receiveProposal r b => exact onReceiveProposal_grows hw hv h
  | receiveVote v => exact ofQuiet (quiet_onReceiveVote hw h)
  | prune k rel => exact ofQuiet (quiet_prune hw h)

theorem Grows.voteHeights_prefix {s s' : Core} (hg : Grows s s') (hv : VoteInv s) :
    s.voteHeights <+: s'.voteHeights := by
  obtain ⟨t, ht⟩ := hg.out
  refine ⟨(t.filterMap Effect.voteBlk).map fun b => (s'.heap b).height, ?_⟩
  unfold Core.voteHeights votes
  rw [← ht, List.filterMap_append, List.map_append]
  congr 1
  exact (List.map_congr_left fun b hb => (hg.keep b (hv.lt b hb) (hv.delivered b hb)).2).symm

/-! ## Runs -/

theorem foldl_addReplica_eq (rs : List ReplicaID) (s : Core) :
    rs.foldl addReplica s = { s with heap := (rs.foldl addReplica s).heap } := by
  induction rs generalizing s with
  | nil => rfl
  | cons r rs ih => rw [List.foldl_cons, ih]; rfl

structure MonoInv (s : Core) : Prop where
  wf : s.Wf
  below : s.bexecHeight ≤ s.hqcHeight
  votes : s.VoteInv

theorem monoInv_init (H : BlockData → Hash) (id : ReplicaID) (rs : List ReplicaID) (nfaulty : Nat) :
    (init H id rs nfaulty).MonoInv := by
  have hout : (init H id rs nfaulty).votes = [] := by
    unfold init votes onInit; rw [foldl_addReplica_eq]; rfl
  refine ⟨wf_init H id rs nfaulty, ?_, ⟨by simp [hout], by simp [hout], by simp [hout], ?_⟩⟩
  · unfold init bexecHeight hqcHeight onInit; rw [foldl_addReplica_eq]; exact le_rfl
  · unfold voteHeights; rw [hout]; exact List.Pairwise.nil

theorem MonoInv.exec {H : BlockData → Hash} {s s' : Core} (hm : s.MonoInv) {i : Input}
    (hv : i.Valid s) (h : exec H s i = .ok s') : s'.MonoInv ∧ Grows s s' :=
  have hg := exec_grows hm.wf hv h
  ⟨⟨hm.wf.exec hv h, hg.1.below hm.below, hg.2 hm.votes⟩, hg.1⟩

theorem reachable_monoInv {H : BlockData → Hash} {id : ReplicaID} {rs : List ReplicaID}
    {nfaulty : Nat} {s : Core} (hr : Reachable H Input.Valid (init H id rs nfaulty) s) : s.MonoInv :=
  hr.induct_on H (monoInv_init H id rs nfaulty) fun _ _ _ _ hm hv he => (hm.exec hv he).1

/-- Along every run `vheight`, the height of `hqc.first` and the height of `bexec` never
go down, `bexec` is never above `hqc.first`, and each vote is for a block strictly
higher than every block voted for before it. -/
theorem exec_monotone {H : BlockData → Hash} {id : ReplicaID} {rs : List ReplicaID}
    {nfaulty : Nat} {s s' : Core} {i : Input}
    (hr : Reachable H Input.Valid (init H id rs nfaulty) s) (hv : i.Valid s)
    (h : exec H s i = .ok s') :
    s.vheight ≤ s'.vheight ∧ s.hqcHeight ≤ s'.hqcHeight ∧ s.bexecHeight ≤ s'.bexecHeight ∧
      s'.bexecHeight ≤ s'.hqcHeight ∧ s.voteHeights <+: s'.voteHeights ∧
      s'.voteHeights.Pairwise (· < ·) := by
  have hm := reachable_monoInv hr
  obtain ⟨hm', hg⟩ := hm.exec hv h
  exact ⟨hg.vheight_le, hg.hqc_le, hg.bexec_le, hm'.below, hg.voteHeights_prefix hm.votes,
    hm'.votes.sorted⟩

/-- The proposal of `A6` on the delivered chain `A1 … A6` raises `vheight` to 6, `hqc` to
`A5` and `bexec` to `A4`, and adds a vote at height 6. -/
theorem exec_monotone_commit :
    ∃ s s', Reachable extraHash Input.Valid (init extraHash 0 [0, 1, 2, 3] 1) s ∧
      exec extraHash s (.receiveProposal 1 6) = .ok s' ∧ s.vheight = 0 ∧ s.hqcHeight = 0 ∧ s.bexecHeight = 0 ∧
      s'.vheight = 6 ∧ s'.hqcHeight = 5 ∧ s'.bexecHeight = 4 ∧ s'.voteHeights = [6] ∧
      s.vheight ≤ s'.vheight ∧ s.hqcHeight ≤ s'.hqcHeight ∧ s.bexecHeight ≤ s'.bexecHeight ∧
      s'.bexecHeight ≤ s'.hqcHeight ∧ s.voteHeights <+: s'.voteHeights ∧
      s'.voteHeights.Pairwise (· < ·) :=
  have hr := reachable_of_runFrom extraHash (init extraHash 0 [0, 1, 2, 3] 1) (chainInputs 6) rfl
  ⟨_, _, hr, rfl, rfl, rfl, rfl, rfl, rfl, rfl, rfl, exec_monotone (i := .receiveProposal 1 6) hr (by decide) rfl⟩

end Core
end HotStuff
