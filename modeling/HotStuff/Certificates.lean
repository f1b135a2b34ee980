import HotStuff.Monotone

/-!
# Certificates name their blocks

A replica pairs blocks with quorum certificates in `hqc`, in `qc_ref` (the block the
certificate of a delivered block is for) and in `self_qc` (the certificate `on_propose`
creates and `on_receive_vote` extends). Along every run, `prune` included and whatever the
hash function, each of them names the hash of the block it is paired with (`CertOk`).
-/

namespace HotStuff
namespace Core

/-- Every certificate the replica pairs with a block names that block's hash. -/
structure CertOk (s : Core) : Prop where
  selfQc : ∀ p < s.next, ∀ qc, (s.heap p).selfQc = some qc → qc.objHash = (s.heap p).hash
  qcRef : ∀ p < s.next, ∀ a, (s.heap p).qcRef = some a → ∀ qc, (s.heap p).data.qc = some qc →
    qc.objHash = (s.heap a).hash
  hqc : s.hqc.2.objHash = (s.heap s.hqc.1).hash

theorem CertOk.transfer {s s' : Core} (hc : s.CertOk) (hn : s'.next = s.next) (hq : s'.hqc = s.hqc)
    (hh : ∀ p, (s'.heap p).hash = (s.heap p).hash)
    (hk : ∀ p < s.next, (s'.heap p).selfQc = (s.heap p).selfQc ∧ (s'.heap p).qcRef = (s.heap p).qcRef ∧
      (s'.heap p).data = (s.heap p).data) : s'.CertOk := by
  refine ⟨fun p hp qc h => ?_, fun p hp a ha qc h => ?_, by rw [hq, hh]; exact hc.hqc⟩
  · rw [hn] at hp; rw [(hk p hp).1] at h; rw [hh]; exact hc.selfQc p hp qc h
  · rw [hn] at hp; rw [(hk p hp).2.1] at ha; rw [(hk p hp).2.2] at h; rw [hh]
    exact hc.qcRef p hp a ha qc h

theorem CertOk.of_heap {s s' : Core} (hc : s.CertOk) (hh : s'.heap = s.heap) (hn : s'.next = s.next)
    (hq : s'.hqc = s.hqc) : s'.CertOk :=
  hc.transfer hn hq (fun p => by rw [hh]) fun p _ => by rw [hh]; exact ⟨rfl, rfl, rfl⟩

theorem CertOk.emit {s : Core} (hc : s.CertOk) (e : Effect) : (s.emit e).CertOk := hc.of_heap rfl rfl rfl

theorem CertOk.modBlk {s : Core} (hc : s.CertOk) (b : Ptr) (f : Block → Block)
    (hh : ∀ x, (f x).hash = x.hash)
    (hs : b < s.next → ∀ qc, (f (s.heap b)).selfQc = some qc → qc.objHash = (s.heap b).hash)
    (hr : b < s.next → ∀ a, (f (s.heap b)).qcRef = some a → ∀ qc, (f (s.heap b)).data.qc = some qc →
      qc.objHash = (s.heap a).hash) : (s.modBlk b f).CertOk := by
  have hh' := modBlk_heap_field Block.hash hh s b
  refine ⟨fun p hp qc h => ?_, fun p hp a ha qc h => ?_, by rw [modBlk_hqc, hh']; exact hc.hqc⟩
  · rw [hh']
    by_cases hpb : p = b
    · subst hpb; rw [modBlk_heap_self] at h; exact hs hp qc h
    · rw [modBlk_heap_of_ne s f hpb] at h; exact hc.selfQc p hp qc h
  · rw [hh']
    by_cases hpb : p = b
    · subst hpb; rw [modBlk_heap_self] at ha h; exact hr hp a ha qc h
    · rw [modBlk_heap_of_ne s f hpb] at ha h; exact hc.qcRef p hp a ha qc h

theorem CertOk.modBlk_keep {s : Core} (hc : s.CertOk) (b : Ptr) (f : Block → Block)
    (hh : ∀ x, (f x).hash = x.hash) (hs : ∀ x, (f x).selfQc = x.selfQc) (hd : ∀ x, (f x).data = x.data)
    (hq : ∀ x, (f x).qcRef = none ∨ (f x).qcRef = x.qcRef) : (s.modBlk b f).CertOk :=
  hc.modBlk b f hh (fun hb qc h => hc.selfQc b hb qc (by rwa [hs] at h)) fun hb a ha qc h => by
    rcases hq (s.heap b) with hn | he
    · rw [hn] at ha; cases ha
    · rw [he] at ha; rw [hd] at h; exact hc.qcRef b hb a ha qc h

theorem CertOk.selfQc_getD {s : Core} (hc : s.CertOk) {b : Ptr} (hb : b < s.next) :
    ((s.heap b).selfQc.getD (createQuorumCert (s.heap b).hash)).objHash = (s.heap b).hash := by
  cases hq : (s.heap b).selfQc with
  | none => rfl
  | some q => exact hc.selfQc b hb q hq

theorem CertOk.addBlk {s : Core} (hc : s.CertOk) (hw : s.Wf) {x : Block}
    (hxs : ∀ qc, x.selfQc = some qc → qc.objHash = x.hash)
    (hxr : ∀ a, x.qcRef = some a → a < s.next ∧ ∀ qc, x.data.qc = some qc → qc.objHash = (s.heap a).hash) :
    (s.addBlk x).1.CertOk := by
  cases hs : s.storage x.hash with
  | some p => rw [addBlk_of_some s x hs]; exact hc
  | none =>
    rw [addBlk_of_none s x hs]
    have hold : ∀ q < s.next, (if q = s.next then x else s.heap q) = s.heap q := fun q hq => if_neg hq.ne
    refine ⟨fun p hp qc h => ?_, fun p hp a ha qc h => ?_, ?_⟩
    · rcases Nat.lt_succ_iff_lt_or_eq.mp hp with hp | rfl
      · simp only [hold p hp] at h ⊢; exact hc.selfQc p hp qc h
      · simp only [eq_self_iff_true, if_true] at h ⊢; exact hxs qc h
    · rcases Nat.lt_succ_iff_lt_or_eq.mp hp with hp | rfl
      · simp only [hold p hp] at ha h
        simp only [hold a ((hw.obj p hp).qcRef_lt a ha)]
        exact hc.qcRef p hp a ha qc h
      · simp only [eq_self_iff_true, if_true] at ha h
        obtain ⟨hlt, hx⟩ := hxr a ha
        simp only [hold a hlt]; exact hx qc h
    · simp only [hold _ hw.roots.hqc_lt]; exact hc.hqc

theorem CertOk.updateHqc {s s' : Core} (hc : s.CertOk) {blk : Ptr} {qc : Option QuorumCert}
    (hq : ∀ q, qc = some q → q.objHash = (s.heap blk).hash) (h : s.updateHqc blk qc = .ok s') :
    s'.CertOk := by
  rcases updateHqc_cases h with rfl | ⟨-, q, rfl, rfl⟩
  · exact hc
  · exact ⟨hc.selfQc, hc.qcRef, hq q rfl⟩

theorem CertOk.commit {s : Core} (hc : s.CertOk) (queue : List Ptr) (p : Ptr) : (s.commit queue p).CertOk := by
  have hx : ∀ a, ∃ d, (s.commit queue p).heap a = { s.heap a with decision := d } :=
    foldl_commitBlk_heap s queue.reverse
  refine hc.transfer (foldl_commitBlk_next s _) (by unfold Core.commit; rw [foldl_commitBlk_eq])
    (fun a => ?_) fun a _ => ?_
  · obtain ⟨d, hd⟩ := hx a; rw [hd]
  · obtain ⟨d, hd⟩ := hx a; rw [hd]; exact ⟨rfl, rfl, rfl⟩

theorem CertOk.checkCommit {s s' : Core} (hc : s.CertOk) {blk : Ptr} (h : s.checkCommit blk = .ok s') :
    s'.CertOk := by
  rcases checkCommit_cases h with rfl | ⟨p, rest, r, -, -, -, -, -, -, rfl⟩
  · exact hc
  · exact hc.commit r.2 p

theorem CertOk.update {s s' : Core} (hc : s.CertOk) {nblk : Ptr} (hn : nblk < s.next)
    (h : s.update nblk = .ok s') : s'.CertOk := by
  obtain ⟨blk, s1, hblk, h1, h2⟩ := update_cases h
  exact (hc.updateHqc (fun q hq => hc.qcRef nblk hn blk hblk q hq) h1).checkCommit h2

theorem CertOk.onReceiveVote {s s' : Core} (hc : s.CertOk) (hw : s.Wf) {v : Vote}
    (h : s.onReceiveVote v = .ok s') : s'.CertOk := by
  obtain ⟨b, hb, hcs⟩ := onReceiveVote_cases h
  have hblt := (hw.roots.storage _ _ (getDeliveredBlk_ok hb).1).1
  rcases hcs with rfl | ⟨qc, -, hqc, hs'⟩
  · exact hc
  have hm := hc.modBlk b (fun x => { x with voted := v.voter :: x.voted, selfQc := some qc }) (fun _ => rfl)
    (fun _ q hq => by cases hq; exact hqc.trans (hc.selfQc_getD hblt))
    fun hb' a ha q hq => hc.qcRef b hb' a ha q hq
  rcases hs' with rfl | ⟨-, h'⟩
  · exact hm
  · exact (hm.emit _).updateHqc (fun q hq => by cases hq; simpa using hqc.trans (hc.selfQc_getD hblt)) h'

theorem CertOk.onReceiveProposal {s s' : Core} (hc : s.CertOk) {r : ReplicaID} {bnew : Ptr}
    (hb : bnew < s.next) (h : s.onReceiveProposal r bnew = .ok s') : s'.CertOk := by
  obtain ⟨-, s1, op, h1, -, rfl⟩ := onReceiveProposal_cases h
  exact (hc.update hb h1).of_heap rfl rfl rfl

theorem CertOk.onDeliverBlk {s s' : Core} (hc : s.CertOk)
    (hst : ∀ h p, s.storage h = some p → (s.heap p).hash = h) {b : Ptr} {r : Bool}
    (h : s.onDeliverBlk b = .ok (r, s')) : s'.CertOk := by
  rcases onDeliverBlk_cases h with ⟨-, -, rfl⟩ | ⟨-, -, p0, rest, qcRef, -, hq, rfl⟩
  · exact hc
  refine (hc.modBlk b (setDelivered (p0 :: rest) ((s.heap p0).height + 1) qcRef) (fun _ => rfl)
    (fun hb qc hd => hc.selfQc b hb qc hd) fun hb a ha qc hd => ?_).of_heap rfl rfl rfl
  change (s.heap b).data.qc = some qc at hd
  rcases resolveQcRef_ok hq with ⟨hn, -⟩ | ⟨qc', q, hqc, hs, rfl⟩
  · rw [hn] at hd; cases hd
  · cases ha
    rw [hqc] at hd; cases hd
    exact (hst _ _ hs).symm

theorem CertOk.proposeStored {s s' : Core} (hc : s.CertOk) {bnew : Ptr} (hs : s.WfBut bnew)
    (h : s.proposeStored bnew = .ok s') : s'.CertOk := by
  obtain ⟨r, s2, s3, s4, h2, h3, -, h4, rfl⟩ := proposeStored_cases h
  have hk := keepsShape_vote (fun l => l) fun _ => some (createQuorumCert (s.heap bnew).hash)
  have c1 := hc.modBlk bnew (fun x => { x with selfQc := some (createQuorumCert (s.heap bnew).hash) })
    (fun _ => rfl) (fun _ q hq => by cases hq; rfl) fun hb a ha q hq => hc.qcRef bnew hb a ha q hq
  have c2 := c1.onDeliverBlk (fun h p hp => ((hk.roots hs.roots).storage h p hp).2) h2
  have w2 := hs.onDeliverBlk h2
  have hn2 : bnew < s2.next := by
    rcases onDeliverBlk_cases h2 with ⟨-, -, rfl⟩ | ⟨-, -, _, _, _, -, -, rfl⟩ <;> exact hs.lt
  have w3 := w2.update hn2 h3
  have c3 : ({ s3 with vheight := (s3.heap bnew).height }.emit (.vote bnew none)).CertOk :=
    (c2.update hn2 h3).of_heap rfl rfl rfl
  exact (c3.onReceiveVote ⟨w3.obj, w3.roots⟩ h4).emit _

theorem CertOk.onPropose {H : BlockData → Hash} {s s' : Core} (hc : s.CertOk) (hw : s.Wf)
    {cmds : List Hash} {parents : List Ptr} {extra : List Nat} (hps : ∀ p ∈ parents, p < s.next)
    (h : s.onPropose H cmds parents extra = .ok s') : s'.CertOk := by
  obtain ⟨p, rest, r, x, rfl, hr, rfl, hws, h'⟩ := onPropose_block hw hps h
  have hw0 : ({ s with tails := s.tails.filter fun t => t ∉ p :: rest } : Core).Wf := ⟨hw.obj, hw.roots⟩
  have c0 : ({ s with tails := s.tails.filter fun t => t ∉ p :: rest } : Core).CertOk :=
    hc.of_heap rfl rfl rfl
  refine (c0.addBlk hw0 (fun qc h => by cases h) fun a ha => ?_).proposeStored hws h'
  rcases proposalQc_ok hr with rfl | ⟨qc, rfl⟩
  · cases ha
  · cases ha
    obtain ⟨-, -, hq⟩ := proposalQc_quorate hr
    have hp := hps p (List.mem_cons_self _ _)
    exact ⟨hp, fun q hq' => by cases hq'; exact hc.selfQc p hp qc hq⟩

theorem CertOk.pruneLoop {rel : Ptr → Bool} :
    ∀ {fuel : Nat} {s s' : Core} {stk : List Ptr}, s.CertOk → pruneLoop rel fuel s stk = .ok s' →
      s'.CertOk
  | 0, _, _, _, _, h => by cases h
  | fuel + 1, s, s', [], hc, h => by cases h; exact hc
  | fuel + 1, s, s', b :: stk, hc, h => by
    unfold Core.pruneLoop at h
    split at h
    · refine CertOk.pruneLoop ?_ h
      unfold tryReleaseBlk
      split_ifs
      · exact hc.of_heap rfl rfl rfl
      · exact hc
    · exact CertOk.pruneLoop (hc.modBlk_keep b (fun x => { x with qcRef := none, parents := x.parents.dropLast })
        (fun _ => rfl) (fun _ => rfl) (fun _ => rfl) fun _ => .inl rfl) h

theorem CertOk.prune {s s' : Core} (hc : s.CertOk) {rel : Ptr → Bool} {k : Nat}
    (h : s.prune rel k = .ok s') : s'.CertOk := by
  unfold Core.prune at h
  split at h
  · cases h; exact hc
  · exact (hc.modBlk_keep _ (fun x => { x with qcRef := none }) (fun _ => rfl) (fun _ => rfl) (fun _ => rfl)
      fun _ => .inl rfl).pruneLoop h

theorem CertOk.exec {H : BlockData → Hash} {s s' : Core} (hc : s.CertOk) (hw : s.Wf) {i : Input}
    (hv : i.Valid s) (h : exec H s i = .ok s') : s'.CertOk := by
  cases i with
  | fetch d =>
    cases h
    exact hc.addBlk hw (fun qc h => by cases h) fun a h => by cases h
  | deliver b =>
    obtain ⟨⟨r, s''⟩, h', rfl⟩ := except_map_eq_ok.mp h
    exact hc.onDeliverBlk (fun h p hp => (hw.roots.storage h p hp).2) h'
  | propose cmds parents extra => exact hc.onPropose hw hv h
  | receiveProposal r b => exact hc.onReceiveProposal hv h
  | receiveVote v => exact hc.onReceiveVote hw h
  | prune k rel => exact hc.prune h

theorem CertOk.onInit {s : Core} (hc : s.CertOk) (nfaulty : Nat) : (s.onInit nfaulty).CertOk := by
  have c1 := hc.modBlk s.b0
    (fun x => { x with data := { x.data with qc := some (createQuorumCert (s.heap s.b0).hash).compute },
                       selfQc := some (createQuorumCert (s.heap s.b0).hash).compute, qcRef := some s.b0 })
    (fun _ => rfl) (fun _ q hq => by cases hq; rfl) fun _ a ha q hq => by cases ha; cases hq; rfl
  exact ⟨c1.selfQc, c1.qcRef, by simp [Core.onInit, createQuorumCert]⟩

theorem certOk_init (H : BlockData → Hash) (id : ReplicaID) (rs : List ReplicaID) (nfaulty : Nat) :
    (init H id rs nfaulty).CertOk := by
  have hnew : (new H id).CertOk := ⟨fun _ _ qc h => (by cases h), fun _ _ a h => (by cases h), rfl⟩
  have hadd : ∀ s : Core, s.CertOk → (rs.foldl addReplica s).CertOk := by
    induction rs with
    | nil => exact fun s hs => hs
    | cons r rs ih =>
      exact fun s hs => ih _ (hs.modBlk_keep s.b0
        (fun x => { x with voted := if r ∈ x.voted then x.voted else r :: x.voted })
        (fun _ => rfl) (fun _ => rfl) (fun _ => rfl) fun _ => .inr rfl)
  exact (hadd _ hnew).onInit nfaulty

/-- Along every run of a replica, `prune` included and whatever the hash function: `hqc`
pairs a block with a certificate for that block's hash, the certificate a block carries
names the hash of the block its `qc_ref` points to, and each `self_qc` names its own
block. -/
theorem certificates_name_blocks {H : BlockData → Hash} {id : ReplicaID} {rs : List ReplicaID}
    {nfaulty : Nat} {s : Core} (hr : Reachable H Input.Valid (init H id rs nfaulty) s) :
    s.hqc.2.objHash = (s.heap s.hqc.1).hash ∧
      (∀ p < s.next, ∀ a, (s.heap p).qcRef = some a → ∀ qc, (s.heap p).data.qc = some qc →
        qc.objHash = (s.heap a).hash) ∧
      ∀ p < s.next, ∀ qc, (s.heap p).selfQc = some qc → qc.objHash = (s.heap p).hash := by
  have h := hr.induct_on H (P := fun s => s.Wf ∧ s.CertOk) ⟨wf_init H id rs nfaulty, certOk_init H id rs nfaulty⟩
    fun _ _ _ _ hs hv he => ⟨hs.1.exec hv he, hs.2.exec hs.1 hv he⟩
  exact ⟨h.2.hqc, h.2.qcRef, h.2.selfQc⟩

/-- Replica 0 of four delivers `B1` on genesis and `B2` on `B1`, each with the certificate
of its parent; the proposal of `B2` moves `hqc` to `B1`; then `prune(0)` clears the
`qc_ref` of genesis. -/
theorem certificates_name_blocks_prune :
    ∃ s, Reachable extraHash Input.Valid (init extraHash 0 [0, 1, 2, 3] 1) s ∧ s.hqc.1 = 1 ∧
      s.hqc.2.objHash = (s.heap s.hqc.1).hash ∧
      (∀ p < s.next, ∀ a, (s.heap p).qcRef = some a → ∀ qc, (s.heap p).data.qc = some qc →
        qc.objHash = (s.heap a).hash) ∧
      ∀ p < s.next, ∀ qc, (s.heap p).selfQc = some qc → qc.objHash = (s.heap p).hash :=
  have hr : Reachable extraHash Input.Valid (init extraHash 0 [0, 1, 2, 3] 1) _ :=
    reachable_of_runFrom extraHash _ [.fetch ⟨[0], [], some ⟨0, [], true⟩, [1]⟩, .deliver 1,
      .fetch ⟨[1], [], some ⟨1, [], true⟩, [2]⟩, .deliver 2, .receiveProposal 1 2,
      .prune 0 fun _ => false] rfl
  ⟨_, hr, rfl, certificates_name_blocks hr⟩

end Core
end HotStuff
