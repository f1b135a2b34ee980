import HotStuff.Monotone

/-!
# The committed log is the primary chain

In a run without `prune`, the `Finality` records handed to `do_decide` are, block by
block, the primary chain from `b0` (exclusive) up to `bexec` (inclusive), oldest
block first and each block's commands in order; the blocks whose decision flag is set
are `b0` and the blocks of that chain, and no flag is ever cleared.

The chain is the one the code itself walks: `WalkPath s 0 bexec b0 q` is the loop
`for (b = bexec; b->height > 0; b = b->parents[0])` ending on `b0` after visiting `q`.
A commit extends it by the queue of the commit walk, which stops on the old `bexec`.
Every other write keeps the objects of the chain as they are (`Idle`).
-/

namespace HotStuff

/-- The block a `decide` effect reports on, with everything but the command's index. -/
structure Decided where
  rid : ReplicaID
  decision : Int
  height : Nat
  cmd : Hash
  blk : Hash
deriving DecidableEq, Repr

def Finality.decided (f : Finality) : Decided := ⟨f.rid, f.decision, f.cmdHeight, f.cmdHash, f.blkHash⟩

def Effect.decideFin : Effect → Option Finality
  | .decide f => some f
  | _ => none

namespace Core

def decides (s : Core) : List Finality := s.out.filterMap Effect.decideFin

/-- What the commit of `b` hands to `do_decide`: `Finality(id, 1, idx, height, cmd, hash)`
for each of its commands in order, with `idx` as the loop of `update` leaves it, `0`. -/
def decideRecords (s : Core) (b : Ptr) : List Finality :=
  (s.heap b).data.cmds.map fun c => ⟨s.id, 1, 0, (s.heap b).height, c, (s.heap b).hash⟩

/-- What the commit of `b` reports: one record per command, in order. -/
def blockLog (s : Core) (b : Ptr) : List Decided :=
  (s.heap b).data.cmds.map fun c => ⟨s.id, 1, (s.heap b).height, c, (s.heap b).hash⟩

@[simp] theorem decides_emit (s : Core) (e : Effect) :
    (s.emit e).decides = s.decides ++ e.decideFin.toList := by
  cases e <;> simp [decides, Effect.decideFin]

/-! ## The primary chain -/

theorem WalkPath.heights {s : Core} (hw : s.Wf) {b e : Ptr} {q : List Ptr}
    (hp : WalkPath s 0 b e q) (hb : b < s.next) :
    (q.reverse.map fun x => (s.heap x).height) = List.range' 1 (s.heap b).height := by
  induction hp with
  | stop hle => rw [Nat.le_zero.mp hle]; rfl
  | step _ hpar _ ih =>
    obtain ⟨ha, -, hh⟩ := hw.parent hb hpar
    rw [List.reverse_cons, List.map_append, ih ha, hh, List.range'_1_concat]
    simp [hh, Nat.add_comm]

/-! ## Writes that leave the log alone -/

/-- A delivered block after a call that neither prunes nor commits. -/
structure Frozen (x y : Block) : Prop where
  delivered : y.delivered = x.delivered
  height : y.height = x.height
  parents : y.parents = x.parents
  hash : y.hash = x.hash
  data : y.data = x.data

theorem Frozen.refl (x : Block) : Frozen x x := ⟨rfl, rfl, rfl, rfl, rfl⟩

theorem Frozen.trans {x y z : Block} (h1 : Frozen x y) (h2 : Frozen y z) : Frozen x z :=
  ⟨h2.delivered.trans h1.delivered, h2.height.trans h1.height, h2.parents.trans h1.parents,
    h2.hash.trans h1.hash, h2.data.trans h1.data⟩

/-- A call, or a part of one, that commits nothing and keeps every delivered block. -/
structure Idle (s s' : Core) : Prop where
  next_le : s.next ≤ s'.next
  keep : ∀ a < s.next, (s.heap a).delivered = true → Frozen (s.heap a) (s'.heap a)
  decision : ∀ a < s'.next, (s'.heap a).decision = true ↔ a < s.next ∧ (s.heap a).decision = true
  decides : s'.decides = s.decides
  bexec : s'.bexec = s.bexec
  b0 : s'.b0 = s.b0
  id : s'.id = s.id

theorem Idle.refl (s : Core) : Idle s s :=
  ⟨le_rfl, fun _ _ _ => .refl _, fun _ ha => ⟨fun h => ⟨ha, h⟩, fun h => h.2⟩, rfl, rfl, rfl, rfl⟩

theorem Idle.trans {s1 s2 s3 : Core} (h1 : Idle s1 s2) (h2 : Idle s2 s3) : Idle s1 s3 where
  next_le := h1.next_le.trans h2.next_le
  keep a ha hd := by
    have k1 := h1.keep a ha hd
    exact k1.trans (h2.keep a (lt_of_lt_of_le ha h1.next_le) (k1.delivered.trans hd))
  decision a ha := by
    rw [h2.decision a ha]
    constructor
    · rintro ⟨ha2, hd⟩
      exact (h1.decision a ha2).mp hd
    · rintro ⟨ha1, hd⟩
      have ha2 := lt_of_lt_of_le ha1 h1.next_le
      exact ⟨ha2, (h1.decision a ha2).mpr ⟨ha1, hd⟩⟩
  decides := h2.decides.trans h1.decides
  bexec := h2.bexec.trans h1.bexec
  b0 := h2.b0.trans h1.b0
  id := h2.id.trans h1.id

theorem Idle.of_heap {s s' : Core} (hh : s'.heap = s.heap) (hn : s'.next = s.next)
    (hb : s'.bexec = s.bexec) (h0 : s'.b0 = s.b0) (hi : s'.id = s.id)
    (hd : s'.decides = s.decides) : Idle s s' :=
  ⟨hn.ge, fun a _ _ => by rw [hh]; exact .refl _,
    fun a ha => by rw [hh, ← hn]; exact ⟨fun h => ⟨ha, h⟩, fun h => h.2⟩, hd, hb, h0, hi⟩

theorem idle_setVheight (s : Core) (v : Nat) {l : List Effect} (hl : l.filterMap Effect.decideFin = []) :
    Idle s { s with vheight := v, out := s.out ++ l } :=
  .of_heap rfl rfl rfl rfl rfl (by simp [decides, hl])

theorem idle_emit (s : Core) {e : Effect} (he : e.decideFin = none) : Idle s (s.emit e) :=
  .of_heap rfl rfl rfl rfl rfl (by simp [he])

theorem idle_modBlk (s : Core) {b : Ptr} {f : Block → Block}
    (hdec : (f (s.heap b)).decision = (s.heap b).decision)
    (hf : (s.heap b).delivered = true → Frozen (s.heap b) (f (s.heap b))) : Idle s (s.modBlk b f) := by
  refine ⟨le_rfl, fun a _ ha => ?_, fun a ha => ?_, rfl, rfl, rfl, rfl⟩
  · by_cases hab : a = b
    · subst hab; simpa using hf ha
    · simpa [hab] using Frozen.refl (s.heap a)
  · have ha' : a < s.next := ha
    by_cases hab : a = b
    · subst hab; simp [hdec, ha']
    · simp [hab, ha']

theorem idle_keepsShape (s : Core) {b : Ptr} {f : Block → Block} (hf : KeepsShape f)
    (hdec : ∀ x, (f x).decision = x.decision) (hdata : ∀ x, (f x).data = x.data) :
    Idle s (s.modBlk b f) :=
  idle_modBlk s (hdec _) fun _ => ⟨hf.delivered _, hf.height _, hf.parents _, hf.hash _, hdata _⟩

theorem idle_vote (s : Core) (b : Ptr) (g : List ReplicaID → List ReplicaID)
    (c : Option QuorumCert → Option QuorumCert) :
    Idle s (s.modBlk b fun x => { x with voted := g x.voted, selfQc := c x.selfQc }) :=
  idle_keepsShape s (keepsShape_vote g c) (fun _ => rfl) fun _ => rfl

theorem idle_updateHqc {s s' : Core} {blk : Ptr} {qc : Option QuorumCert}
    (h : s.updateHqc blk qc = .ok s') : Idle s s' := by
  rcases updateHqc_cases h with rfl | ⟨-, q, -, rfl⟩
  · exact .refl _
  · exact .of_heap rfl rfl rfl rfl rfl (by simp [decides, Effect.decideFin])

theorem idle_onReceiveVote {s s' : Core} {v : Vote} (h : s.onReceiveVote v = .ok s') : Idle s s' := by
  obtain ⟨b, -, hc⟩ := onReceiveVote_cases h
  rcases hc with rfl | ⟨qc, -, -, rfl | ⟨-, h'⟩⟩
  · exact .refl _
  · exact idle_vote s b (v.voter :: ·) fun _ => some qc
  · exact (idle_vote s b (v.voter :: ·) fun _ => some qc).trans
      ((idle_emit _ (e := .qcFinish b) rfl).trans (idle_updateHqc h'))

theorem idle_onDeliverBlk {s s' : Core} {b : Ptr} {r : Bool} (h : s.onDeliverBlk b = .ok (r, s')) :
    Idle s s' := by
  rcases onDeliverBlk_cases h with ⟨-, -, rfl⟩ | ⟨hd, -, p0, rest, qcRef, -, -, rfl⟩
  · exact .refl _
  · have := idle_modBlk s (b := b) (f := setDelivered (p0 :: rest) ((s.heap p0).height + 1) qcRef)
      rfl fun h' => by rw [hd] at h'; cases h'
    exact ⟨this.1, this.2, this.3, this.4, this.5, this.6, this.7⟩

theorem idle_addBlk (s : Core) {x : Block} (hx : x.decision = false) : Idle s (s.addBlk x).1 := by
  cases hs : s.storage x.hash with
  | some p => rw [addBlk_of_some s x hs]; exact .refl _
  | none =>
    rw [addBlk_of_none s x hs]
    refine ⟨Nat.le_succ _, fun a ha _ => by simpa [ha.ne] using Frozen.refl (s.heap a),
      fun a ha => ?_, rfl, rfl, rfl, rfl⟩
    by_cases han : a = s.next
    · subst han; simp [hx]
    · simp only [han, if_false]
      exact ⟨fun h => ⟨Nat.lt_of_le_of_ne (Nat.le_of_lt_succ ha) han, h⟩, fun h => h.2⟩

/-! ## The invariant -/

/-- The chain below `bexec` is `q`, the log reports its blocks oldest first, and only
`b0` and its blocks are decided. -/
structure ChainLog (s : Core) (q : List Ptr) : Prop where
  path : WalkPath s 0 s.bexec s.b0 q
  live : ∀ x ∈ s.b0 :: q, x < s.next ∧ (s.heap x).delivered = true
  log : s.decides.map Finality.decided = q.reverse.flatMap s.blockLog
  decided : ∀ x < s.next, (s.heap x).decision = true → x = s.b0 ∨ x ∈ q

theorem blockLog_congr {s s' : Core} (hi : s'.id = s.id) {x : Ptr} (hx : Frozen (s.heap x) (s'.heap x)) :
    s'.blockLog x = s.blockLog x := by
  simp only [blockLog, hi, hx.height, hx.hash, hx.data]

theorem ChainLog.idle {s s' : Core} {q : List Ptr} (hc : s.ChainLog q) (hi : Idle s s') :
    s'.ChainLog q := by
  have hk : ∀ x ∈ s.b0 :: q, Frozen (s.heap x) (s'.heap x) := fun x hx =>
    hi.keep x (hc.live x hx).1 (hc.live x hx).2
  refine ⟨?_, fun x hx => ?_, ?_, fun x hx hd => ?_⟩
  · rw [hi.bexec, hi.b0]
    exact hc.path.transfer fun x hx => ⟨(hk x hx).height, (hk x hx).parents⟩
  · rw [hi.b0] at hx
    exact ⟨lt_of_lt_of_le (hc.live x hx).1 hi.next_le, (hk x hx).delivered.trans (hc.live x hx).2⟩
  · rw [hi.decides, hc.log]
    exact List.flatMap_congr fun x hx => (blockLog_congr hi.id (hk x (by simp_all))).symm
  · rw [hi.b0]
    obtain ⟨hx', hd'⟩ := (hi.decision x hx).mp hd
    exact hc.decided x hx' hd'

theorem chainLog_init (H : BlockData → Hash) (id : ReplicaID) (rs : List ReplicaID) (nfaulty : Nat) :
    (Core.init H id rs nfaulty).ChainLog [] := by
  have hw := wf_init H id rs nfaulty
  have hb : (init H id rs nfaulty).bexec = (init H id rs nfaulty).b0 := by
    unfold init onInit; rw [foldl_addReplica_eq]; rfl
  have hn : (init H id rs nfaulty).next = 1 := by unfold init onInit; rw [foldl_addReplica_eq]; rfl
  have h0 : (init H id rs nfaulty).b0 = 0 := by unfold init onInit; rw [foldl_addReplica_eq]; rfl
  refine ⟨?_, ?_, ?_, fun x hx _ => .inl ?_⟩
  · rw [hb]; exact .stop (by rw [hw.roots.b0_height])
  · simpa using ⟨hw.roots.b0_lt, hw.roots.b0_delivered⟩
  · have : (init H id rs nfaulty).out = [] := by unfold init onInit; rw [foldl_addReplica_eq]; rfl
    simp [decides, this]
  · rw [h0]; rw [hn] at hx; exact Nat.lt_one_iff.mp hx

/-! ## Commits -/

theorem commitBlk_records (s : Core) (b : Ptr) :
    (s.commitBlk b).decides = s.decides ++ s.decideRecords b := by
  simp only [commitBlk, decides, decideRecords, List.filterMap_append, modBlk_out, modBlk_heap_self,
    List.filterMap_map]
  exact congrArg _ (congrFun (List.filterMap_eq_map _) _)

theorem foldl_commitBlk_records (s : Core) (l : List Ptr) :
    (l.foldl commitBlk s).decides = s.decides ++ l.flatMap s.decideRecords := by
  induction l generalizing s with
  | nil => simp
  | cons b l ih =>
    have hl : (s.commitBlk b).decideRecords = s.decideRecords := funext fun x => by
      unfold decideRecords; rw [commitBlk_heap]; split_ifs <;> rfl
    rw [List.foldl_cons, ih, hl, commitBlk_records, List.flatMap_cons, List.append_assoc]

theorem decideRecords_decided (s : Core) (b : Ptr) :
    (s.decideRecords b).map Finality.decided = s.blockLog b := by
  simp only [decideRecords, blockLog, List.map_map]
  rfl

theorem foldl_commitBlk_decides (s : Core) (l : List Ptr) :
    (l.foldl commitBlk s).decides.map Finality.decided =
      s.decides.map Finality.decided ++ l.flatMap s.blockLog := by
  rw [foldl_commitBlk_records, List.map_append, List.map_flatMap]
  simp only [decideRecords_decided]

/-- The records `update` hands to `do_decide`: for each block of its commit queue, oldest
first, one `Finality` per command in order, each with `cmd_idx` `0`. -/
theorem update_finality_records {s s' : Core} {nblk : Ptr} (h : s.update nblk = .ok s') :
    ∃ q : List Ptr, (∀ b ∈ q, (s'.heap b).decision = true) ∧
      s'.decides = s.decides ++ q.flatMap fun b =>
        (s.heap b).data.cmds.map fun c => ⟨s.id, 1, 0, (s.heap b).height, c, (s.heap b).hash⟩ := by
  obtain ⟨blk, s1, -, h1, h2⟩ := update_cases h
  have hi := idle_updateHqc h1
  rcases checkCommit_cases h2 with rfl | ⟨p, rest, r, -, -, -, -, -, -, rfl⟩
  · exact ⟨[], by simp, by rw [hi.decides, List.flatMap_nil, List.append_nil]⟩
  refine ⟨r.2.reverse, fun b hb => foldl_commitBlk_decision.mpr (.inl hb), ?_⟩
  have hr : s1.decideRecords = s.decideRecords := by
    unfold decideRecords; rw [(updateHqc_heap h1).1, hi.id]
  change (r.2.reverse.foldl commitBlk s1).decides = _
  rw [foldl_commitBlk_records, hi.decides, hr]
  rfl

theorem update_finality_records_two_cmds :
    ∃ s s', runFrom extraHash (init extraHash 0 [0, 1, 2, 3] 1)
        [.fetch ⟨[0], [7, 8], some ⟨0, [], true⟩, [1]⟩, .deliver 1,
          .fetch ⟨[1], [], some ⟨1, [], true⟩, [2]⟩, .deliver 2,
          .fetch ⟨[2], [], some ⟨2, [], true⟩, [3]⟩, .deliver 3] = some s ∧
      s.update 3 = .ok s' ∧ s'.decides.map (fun f => (f.cmdHash, f.cmdIdx)) = [(7, 0), (8, 0)] ∧
      ∃ q : List Ptr, (∀ b ∈ q, (s'.heap b).decision = true) ∧
        s'.decides = s.decides ++ q.flatMap fun b =>
          (s.heap b).data.cmds.map fun c => ⟨s.id, 1, 0, (s.heap b).height, c, (s.heap b).hash⟩ :=
  ⟨_, _, rfl, rfl, rfl, @update_finality_records _ _ 3 rfl⟩

theorem ChainLog.commit {s : Core} {q : List Ptr} (hc : s.ChainLog q) (hw : s.Wf) {p : Ptr}
    {r : Ptr × List Ptr} (hp : p < s.next) (hpd : (s.heap p).delivered = true)
    (hr : s.walk p (s.heap s.bexec).height = .ok r) (he : r.1 = s.bexec) :
    (s.commit r.2 p).ChainLog (r.2 ++ q) := by
  have hwp := walk_path hr
  rw [he] at hwp
  have hkeep : ∀ x, Frozen (s.heap x) ((s.commit r.2 p).heap x) := fun x => by
    obtain ⟨d, hd⟩ := foldl_commitBlk_heap s r.2.reverse x
    change Frozen (s.heap x) ((r.2.reverse.foldl commitBlk s).heap x)
    rw [hd]; exact ⟨rfl, rfl, rfl, rfl, rfl⟩
  have hfields : (s.commit r.2 p).b0 = s.b0 ∧ (s.commit r.2 p).id = s.id ∧
      (s.commit r.2 p).next = s.next := by
    unfold Core.commit; rw [foldl_commitBlk_eq]; exact ⟨rfl, rfl, rfl⟩
  have hq := (hwp.wf hw hp hpd).2.2.2
  refine ⟨?_, fun x hx => ?_, ?_, fun x hx hd => ?_⟩
  · rw [hfields.1]
    exact (hwp.append (Nat.zero_le _) hc.path).transfer fun x _ => ⟨(hkeep x).height, (hkeep x).parents⟩
  · rw [hfields.1, List.mem_cons, List.mem_append] at hx
    rw [hfields.2.2, (hkeep x).delivered]
    rcases hx with rfl | hx | hx
    · exact hc.live _ (List.mem_cons_self _ _)
    · exact ⟨(hq x hx).1, (hq x hx).2.1⟩
    · exact hc.live x (List.mem_cons_of_mem _ hx)
  · have hbl : (s.commit r.2 p).blockLog = s.blockLog := funext fun x =>
      blockLog_congr hfields.2.1 (hkeep x)
    rw [hbl, List.reverse_append, List.flatMap_append, ← hc.log]
    exact foldl_commitBlk_decides s r.2.reverse
  · rw [hfields.1]
    rw [hfields.2.2] at hx
    rcases foldl_commitBlk_decision.mp hd with h | h
    · exact .inr (List.mem_append_left _ (List.mem_reverse.mp h))
    · rcases hc.decided x hx h with h' | h'
      · exact .inl h'
      · exact .inr (List.mem_append_right _ h')

def KeepsDecided (s s' : Core) : Prop :=
  s.next ≤ s'.next ∧ ∀ a < s.next, (s.heap a).decision = true → (s'.heap a).decision = true

theorem KeepsDecided.trans {s1 s2 s3 : Core} (h1 : KeepsDecided s1 s2) (h2 : KeepsDecided s2 s3) :
    KeepsDecided s1 s3 :=
  ⟨h1.1.trans h2.1, fun a ha hd => h2.2 a (lt_of_lt_of_le ha h1.1) (h1.2 a ha hd)⟩

theorem Idle.keepsDecided {s s' : Core} (hi : Idle s s') : KeepsDecided s s' :=
  ⟨hi.next_le, fun a ha hd => (hi.decision a (lt_of_lt_of_le ha hi.next_le)).mpr ⟨ha, hd⟩⟩

theorem ChainLog.checkCommit {s s' : Core} {q : List Ptr} (hc : s.ChainLog q) (hw : s.Wf)
    {blk : Ptr} (hb : blk < s.next) (h : s.checkCommit blk = .ok s') :
    (∃ q', s'.ChainLog q') ∧ KeepsDecided s s' := by
  rcases checkCommit_cases h with rfl | ⟨p, rest, r, -, -, hp, -, hr, he, rfl⟩
  · exact ⟨⟨q, hc⟩, (Idle.refl _).keepsDecided⟩
  obtain ⟨hplt, hpd, -⟩ := hw.parent hb hp
  refine ⟨⟨_, hc.commit hw hplt hpd hr he⟩, ?_, fun a _ hd => ?_⟩
  · exact (foldl_commitBlk_next s _).ge
  · exact foldl_commitBlk_decision.mpr (.inr hd)

theorem ChainLog.update {s s' : Core} {q : List Ptr} (hc : s.ChainLog q) (hw : s.Wf)
    {nblk : Ptr} (hn : nblk < s.next) (h : s.update nblk = .ok s') :
    (∃ q', s'.ChainLog q') ∧ KeepsDecided s s' := by
  obtain ⟨blk, s1, hblk, h1, h2⟩ := update_cases h
  have hb := (hw.obj nblk hn).qcRef_lt blk hblk
  have hi := idle_updateHqc h1
  obtain ⟨hc', hk⟩ := (hc.idle hi).checkCommit (hw.updateHqc hb h1)
    (by rw [(updateHqc_heap h1).2.1]; exact hb) h2
  exact ⟨hc', hi.keepsDecided.trans hk⟩

/-! ## The calls -/

theorem ChainLog.onReceiveProposal {s s' : Core} {q : List Ptr} (hc : s.ChainLog q) (hw : s.Wf)
    {r : ReplicaID} {bnew : Ptr} (hb : bnew < s.next) (h : s.onReceiveProposal r bnew = .ok s') :
    (∃ q', s'.ChainLog q') ∧ KeepsDecided s s' := by
  obtain ⟨-, s1, op, h1, -, rfl⟩ := onReceiveProposal_cases h
  obtain ⟨⟨q1, hc1⟩, hk⟩ := hc.update hw hb h1
  simp only [List.append_assoc]
  have hi := idle_setVheight s1 (if op = true then (s1.heap bnew).height else s1.vheight)
    (l := (s1.heap bnew).qcRef.toList.map .qcFinish ++
      if op = true ∧ s1.negVote = false then [.vote bnew (some r)] else [])
    (by cases (s1.heap bnew).qcRef <;> split_ifs <;> simp [Effect.decideFin])
  exact ⟨⟨q1, hc1.idle hi⟩, hk.trans hi.keepsDecided⟩

theorem ChainLog.proposeStored {s s' : Core} {q : List Ptr} (hc : s.ChainLog q) {bnew : Ptr}
    (hs : s.WfBut bnew) (h : s.proposeStored bnew = .ok s') :
    (∃ q', s'.ChainLog q') ∧ KeepsDecided s s' := by
  obtain ⟨r, s2, s3, s4, h2, h3, -, h4, rfl⟩ := proposeStored_cases h
  have hi2 := (idle_vote s bnew (fun l => l) fun _ => some (createQuorumCert (s.heap bnew).hash)).trans
    (idle_onDeliverBlk h2)
  obtain ⟨⟨q3, hc3⟩, hk3⟩ := (hc.idle hi2).update (hs.onDeliverBlk h2)
    (lt_of_lt_of_le hs.lt hi2.next_le) h3
  have hi4 : Idle s3 (s4.emit (.propose bnew)) :=
    ((idle_setVheight s3 _ (l := [.vote bnew none]) rfl).trans (idle_onReceiveVote h4)).trans
      (idle_emit _ (e := .propose bnew) rfl)
  exact ⟨⟨q3, hc3.idle hi4⟩, (hi2.keepsDecided.trans hk3).trans hi4.keepsDecided⟩

theorem ChainLog.onPropose {H : BlockData → Hash} {s s' : Core} {q : List Ptr} (hc : s.ChainLog q)
    (hw : s.Wf) {cmds : List Hash} {parents : List Ptr} {extra : List Nat}
    (hps : ∀ p ∈ parents, p < s.next) (h : s.onPropose H cmds parents extra = .ok s') :
    (∃ q', s'.ChainLog q') ∧ KeepsDecided s s' := by
  obtain ⟨x, hx, hs, h'⟩ := onPropose_stored hw hps h
  have hi0 : Idle s { s with tails := s.tails.filter fun t => t ∉ parents } :=
    .of_heap rfl rfl rfl rfl rfl rfl
  have hi := hi0.trans (idle_addBlk _ hx)
  obtain ⟨hc', hk⟩ := (hc.idle hi).proposeStored hs h'
  exact ⟨hc', hi.keepsDecided.trans hk⟩

theorem ChainLog.exec {H : BlockData → Hash} {s s' : Core} {q : List Ptr} (hc : s.ChainLog q)
    (hw : s.Wf) {i : Input} (hv : i.NoPrune s) (h : exec H s i = .ok s') :
    (∃ q', s'.ChainLog q') ∧ KeepsDecided s s' := by
  have ofIdle : Idle s s' → (∃ q', s'.ChainLog q') ∧ KeepsDecided s s' :=
    fun hi => ⟨⟨q, hc.idle hi⟩, hi.keepsDecided⟩
  cases i with
  | fetch d => cases h; exact ofIdle (idle_addBlk s rfl)
  | deliver b =>
    obtain ⟨⟨r, s''⟩, h', rfl⟩ := except_map_eq_ok.mp h
    exact ofIdle (idle_onDeliverBlk h')
  | propose cmds parents extra => exact hc.onPropose hw hv.1 h
  | receiveProposal r b => exact hc.onReceiveProposal hw hv.1 h
  | receiveVote v => exact ofIdle (idle_onReceiveVote h)
  | prune k rel => exact absurd rfl (hv.2 k rel)

theorem reachable_chainLog {H : BlockData → Hash} {id : ReplicaID} {rs : List ReplicaID}
    {nfaulty : Nat} {s : Core} (hr : Reachable H Input.NoPrune (init H id rs nfaulty) s) :
    s.Wf ∧ ∃ q, s.ChainLog q :=
  hr.induct_on H (P := fun s => s.Wf ∧ ∃ q, s.ChainLog q)
    ⟨wf_init H id rs nfaulty, _, chainLog_init H id rs nfaulty⟩
    fun _ _ _ _ ⟨hw, _, hc⟩ hv he => ⟨hw.exec hv.1 he, (hc.exec hw hv he).1⟩

/-- In a run without `prune` the records passed to `do_decide` are the primary chain
from `b0` (exclusive) to `bexec`, one block per height, oldest first, each block's
commands in order; the decided blocks are `b0` and that chain, and a call never clears
a decision. -/
theorem committed_log_is_chain {H : BlockData → Hash} {id : ReplicaID} {rs : List ReplicaID}
    {nfaulty : Nat} {s : Core} (hr : Reachable H Input.NoPrune (init H id rs nfaulty) s) :
    ∃ q, WalkPath s 0 s.bexec s.b0 q ∧
      (q.reverse.map fun b => (s.heap b).height) = List.range' 1 (s.heap s.bexec).height ∧
      s.decides.map Finality.decided = q.reverse.flatMap s.blockLog ∧
      (∀ x < s.next, (s.heap x).decision = true → x = s.b0 ∨ x ∈ q) ∧
      ∀ (i : Input) (s' : Core), i.NoPrune s → exec H s i = .ok s' →
        ∀ x < s.next, (s.heap x).decision = true → (s'.heap x).decision = true := by
  obtain ⟨hw, q, hc⟩ := reachable_chainLog hr
  exact ⟨q, hc.path, hc.path.heights hw hw.roots.bexec_lt, hc.log, hc.decided,
    fun i s' hv he => ((hc.exec hw hv he).2).2⟩

/-- The proposal of `A6` on the delivered chain `A1 … A6` commits `A1 … A4`. -/
theorem committed_log_is_chain_run :
    ∃ s, Reachable extraHash Input.NoPrune (init extraHash 0 [0, 1, 2, 3] 1) s ∧ s.bexec = 4 ∧
      (∀ x ∈ [1, 2, 3, 4], (s.heap x).decision = true) ∧
      ∃ q, WalkPath s 0 s.bexec s.b0 q ∧
        (q.reverse.map fun b => (s.heap b).height) = List.range' 1 (s.heap s.bexec).height ∧
        s.decides.map Finality.decided = q.reverse.flatMap s.blockLog ∧
        (∀ x < s.next, (s.heap x).decision = true → x = s.b0 ∨ x ∈ q) ∧
        ∀ (i : Input) (s' : Core), i.NoPrune s → exec extraHash s i = .ok s' →
          ∀ x < s.next, (s.heap x).decision = true → (s'.heap x).decision = true :=
  have hr := reachable_noPrune_of_runFrom extraHash (init extraHash 0 [0, 1, 2, 3] 1)
    (chainInputs 6 ++ [Input.receiveProposal 1 6]) (fun i hi k rel => by
      rcases List.mem_append.mp hi with hi | hi
      · exact chainInputs_ne_prune hi k rel
      · rw [List.mem_singleton.mp hi]; exact Input.noConfusion) rfl
  ⟨_, hr, rfl, by decide, committed_log_is_chain hr⟩

/-- With `prune` the commit walk can breach. The chain `A1 … A6` is delivered and the
proposal of `A6` commits `A1 … A4`; `prune(1)` runs from `A3` and releases `A1` and
`A2`, which nothing holds any more. They are fetched and delivered again as fresh,
undecided objects `A1'` and `A2'`. A block `Y` on `A2'` carrying the certificate of `A2`
then meets the commit rule at `A2'`, and the walk from `A1'` stops below `bexec = A4`
on `A1'`. -/
theorem commit_walk_breach_after_prune :
    ∃ s0, Reachable extraHash Input.Valid (init extraHash 0 [0, 1, 2, 3] 1) s0 ∧
      ¬ s0.Held 1 ∧ ¬ s0.Held 2 ∧ ∃ s, Reachable extraHash Input.Valid s0 s ∧
      s.bexec = 4 ∧ (s.heap 1).decision = true ∧ (s.heap 7).hash = (s.heap 1).hash ∧
      (s.heap 7).decision = false ∧ (s.heap 8).parents = [7] ∧ (s.heap 8).qcRef = some 7 ∧
      (s.heap 9).qcRef = some 8 ∧
      exec extraHash s (.receiveProposal 1 9) = .error (.runtimeError "safety breached :( ") :=
  ⟨_, reachable_of_runFrom extraHash (init extraHash 0 [0, 1, 2, 3] 1)
    [.fetch ⟨[0], [11], some ⟨0, [], true⟩, [1]⟩, .deliver 1,
      .fetch ⟨[1], [12], some ⟨1, [], true⟩, [2]⟩, .deliver 2,
      .fetch ⟨[2], [13], some ⟨2, [], true⟩, [3]⟩, .deliver 3,
      .fetch ⟨[3], [14], some ⟨3, [], true⟩, [4]⟩, .deliver 4,
      .fetch ⟨[4], [15], some ⟨4, [], true⟩, [5]⟩, .deliver 5,
      .fetch ⟨[5], [16], some ⟨5, [], true⟩, [6]⟩, .deliver 6, .receiveProposal 1 6,
      .prune 1 (fun b => decide (b = 1 ∨ b = 2))] rfl,
    by decide, by decide,
    _, reachable_of_runFrom extraHash _
      [.fetch ⟨[0], [11], some ⟨0, [], true⟩, [1]⟩, .deliver 7,
        .fetch ⟨[1], [12], some ⟨1, [], true⟩, [2]⟩, .deliver 8,
        .fetch ⟨[2], [20], some ⟨2, [], true⟩, [9]⟩, .deliver 9] rfl,
    rfl, rfl, rfl, rfl, rfl, rfl, rfl, rfl⟩

end Core
end HotStuff
