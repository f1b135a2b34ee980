import HotStuff.Backing

/-!
# The quorum waits of `HotStuffCore`

`async_qc_finish(blk)` gives a promise that resolves once `blk` holds `nmajority` votes:
at once, or through the entry of `blk` in `qc_waiting`, which `on_qc_finish(blk)` resolves
and erases. A call emits `qcFinish blk` where the source calls `on_qc_finish(blk)`, and
the layer settles those entries when the call returns. Every call counts at most the votes
it is handed (`Tally`) and announces the block whose count it completes, so no entry of
`qc_waiting` outlives the certificate it waits for, `prune` included. Every call raises
`hqc` at most where it announces so (`Notifies`).
-/

namespace HotStuff

namespace Core

/-- What a call does to the vote counts: objects keep their hash, a voter of an object
was there before or cast one of the votes `vs` for the object's hash, and an object the
call brings to `nmajority` votes is announced by `qcFinish`. -/
structure Tally (vs : List Vote) (s s' : Core) : Prop where
  next_le : s.next ≤ s'.next
  b0 : s'.b0 = s.b0
  id : s'.id = s.id
  nmajority : s'.nmajority = s.nmajority
  out : s.out <+: s'.out
  hash : ∀ p < s.next, (s'.heap p).hash = (s.heap p).hash
  voted : ∀ p < s'.next, ∀ x ∈ (s'.heap p).voted,
    p < s.next ∧ x ∈ (s.heap p).voted ∨ ⟨x, (s'.heap p).hash⟩ ∈ vs
  finish : ∀ p < s.next, (s.heap p).voted.length < s.nmajority →
    s.nmajority ≤ (s'.heap p).voted.length → ∃ l, s'.out = s.out ++ l ∧ Effect.qcFinish p ∈ l

theorem Tally.mono {vs vs' : List Vote} {s s' : Core} (h : Tally vs s s') (hv : vs ⊆ vs') :
    Tally vs' s s' :=
  { h with voted := fun p hp x hx => (h.voted p hp x hx).imp_right fun h' => hv h' }

theorem Tally.trans {vs1 vs2 : List Vote} {s1 s2 s3 : Core} (h1 : Tally vs1 s1 s2)
    (h2 : Tally vs2 s2 s3) : Tally (vs1 ++ vs2) s1 s3 where
  next_le := h1.next_le.trans h2.next_le
  b0 := h2.b0.trans h1.b0
  id := h2.id.trans h1.id
  nmajority := h2.nmajority.trans h1.nmajority
  out := h1.out.trans h2.out
  hash p hp := (h2.hash p (lt_of_lt_of_le hp h1.next_le)).trans (h1.hash p hp)
  voted p hp x hx := by
    rcases h2.voted p hp x hx with ⟨hp2, hx2⟩ | hv
    · rcases h1.voted p hp2 x hx2 with h | hv
      · exact .inl h
      · exact .inr (List.mem_append_left _ (by rwa [h2.hash p hp2]))
    · exact .inr (List.mem_append_right _ hv)
  finish p hp hlt hge := by
    have hp2 := lt_of_lt_of_le hp h1.next_le
    obtain ⟨l1, hl1⟩ := h1.out
    obtain ⟨l2, hl2⟩ := h2.out
    by_cases hm : (s2.heap p).voted.length < s2.nmajority
    · obtain ⟨l, hl, hf⟩ := h2.finish p hp2 hm (by rw [h1.nmajority]; exact hge)
      exact ⟨l1 ++ l, by rw [hl, ← hl1, List.append_assoc], List.mem_append_right _ hf⟩
    · obtain ⟨l, hl, hf⟩ := h1.finish p hp hlt (by rw [← h1.nmajority]; exact not_lt.mp hm)
      exact ⟨l ++ l2, by rw [← hl2, hl, List.append_assoc], List.mem_append_left _ hf⟩

theorem tally_frame {s s' : Core} (hn : s.next ≤ s'.next) (hb : s'.b0 = s.b0) (hi : s'.id = s.id)
    (hm : s'.nmajority = s.nmajority) (ho : s.out <+: s'.out)
    (hh : ∀ p < s.next, (s'.heap p).hash = (s.heap p).hash)
    (hv : ∀ p < s'.next, p < s.next ∧ (s'.heap p).voted = (s.heap p).voted ∨ (s'.heap p).voted = []) :
    Tally [] s s' := by
  refine ⟨hn, hb, hi, hm, ho, hh, fun p hp x hx => ?_, fun p hp hlt hge => ?_⟩
  · rcases hv p hp with ⟨hp', he⟩ | he
    · exact .inl ⟨hp', he ▸ hx⟩
    · rw [he] at hx; cases hx
  · rcases hv p (lt_of_lt_of_le hp hn) with ⟨-, he⟩ | he
    · rw [he] at hge; omega
    · rw [he, List.length_nil] at hge; omega

theorem tally_of_heap {s s' : Core} (hh : s'.heap = s.heap) (hn : s'.next = s.next)
    (hb : s'.b0 = s.b0) (hi : s'.id = s.id) (hm : s'.nmajority = s.nmajority) (ho : s.out <+: s'.out) :
    Tally [] s s' :=
  tally_frame hn.ge hb hi hm ho (fun p _ => by rw [hh]) fun p hp => .inl ⟨hn ▸ hp, by rw [hh]⟩

theorem Tally.refl (s : Core) : Tally [] s s :=
  tally_of_heap rfl rfl rfl rfl rfl (List.prefix_refl _)

theorem tally_emit (s : Core) (e : Effect) : Tally [] s (s.emit e) :=
  tally_of_heap rfl rfl rfl rfl rfl (List.prefix_append _ _)

theorem tally_modBlk (s : Core) (b : Ptr) (f : Block → Block) (hh : ∀ x, (f x).hash = x.hash)
    (hv : ∀ x, (f x).voted = x.voted) : Tally [] s (s.modBlk b f) :=
  tally_frame le_rfl rfl rfl rfl (List.prefix_refl _) (fun p _ => modBlk_heap_field _ hh s b p)
    fun p hp => .inl ⟨hp, modBlk_heap_field _ hv s b p⟩

theorem tally_addBlk (s : Core) {x : Block} (hx : x.voted = []) : Tally [] s (s.addBlk x).1 := by
  cases hs : s.storage x.hash with
  | some p => rw [addBlk_of_some s x hs]; exact .refl s
  | none =>
    rw [addBlk_of_none s x hs]
    refine tally_frame (Nat.le_succ _) rfl rfl rfl (List.prefix_refl _) (fun p hp => by simp [hp.ne])
      fun p hp => ?_
    by_cases hpn : p = s.next
    · subst hpn; exact .inr (by simp [hx])
    · exact .inl ⟨Nat.lt_of_le_of_ne (Nat.le_of_lt_succ hp) hpn, by simp [hpn]⟩

theorem tally_count {s s' : Core} {v : Vote} {b : Ptr} (hb : b < s.next)
    (hbh : (s.heap b).hash = v.blkHash) {qc : QuorumCert}
    (hh : s'.heap = (s.modBlk b fun x => { x with voted := v.voter :: x.voted, selfQc := some qc }).heap)
    (hn : s'.next = s.next) (hb0 : s'.b0 = s.b0) (hi : s'.id = s.id) (hm : s'.nmajority = s.nmajority)
    (ho : s.out <+: s'.out)
    (hl : s.nmajority ≤ (s.heap b).voted.length + 1 → (s.heap b).voted.length < s.nmajority →
      ∃ l, s'.out = s.out ++ l ∧ Effect.qcFinish b ∈ l) : Tally [v] s s' := by
  refine ⟨hn.ge, hb0, hi, hm, ho, fun p _ => ?_, fun p hp x hx => ?_, fun p hp hlt hge => ?_⟩
  · rw [hh]; by_cases hpb : p = b <;> simp [hpb]
  · rw [hn] at hp
    rw [hh] at hx ⊢
    by_cases hpb : p = b
    · subst hpb
      rcases List.mem_cons.mp (by simpa using hx) with rfl | hx
      · exact .inr (List.mem_singleton.mpr (by simp [hbh]))
      · exact .inl ⟨hp, hx⟩
    · exact .inl ⟨hp, by simpa [hpb] using hx⟩
  · rw [hh] at hge
    by_cases hpb : p = b
    · subst hpb
      rw [modBlk_heap_self, List.length_cons] at hge
      exact hl hge hlt
    · rw [modBlk_heap_of_ne s _ hpb] at hge; omega

theorem tally_updateHqc {s s' : Core} {blk : Ptr} {qc : Option QuorumCert}
    (h : s.updateHqc blk qc = .ok s') : Tally [] s s' := by
  rcases updateHqc_cases h with rfl | ⟨-, q, -, rfl⟩
  · exact .refl _
  · exact tally_of_heap rfl rfl rfl rfl rfl (List.prefix_append _ _)

theorem tally_commit (s : Core) (queue : List Ptr) (p : Ptr) : Tally [] s (s.commit queue p) := by
  have hk := keeps_commit s queue p
  have hn : (s.commit queue p).next = s.next := foldl_commitBlk_next s _
  refine tally_frame hk.next_le hk.b0 hk.id hk.nmajority hk.out (fun a ha => (hk.obj a ha).1)
    fun a ha => .inl ⟨hn ▸ ha, ?_⟩
  obtain ⟨d, hd⟩ := foldl_commitBlk_heap s queue.reverse a
  change ((queue.reverse.foldl commitBlk s).heap a).voted = _
  rw [hd]

theorem tally_checkCommit {s s' : Core} {blk : Ptr} (h : s.checkCommit blk = .ok s') :
    Tally [] s s' := by
  rcases checkCommit_cases h with rfl | ⟨p, rest, r, -, -, -, -, -, -, rfl⟩
  · exact .refl _
  · exact tally_commit s r.2 p

theorem tally_update {s s' : Core} {nblk : Ptr} (h : s.update nblk = .ok s') : Tally [] s s' := by
  obtain ⟨blk, s1, -, h1, h2⟩ := update_cases h
  exact (tally_updateHqc h1).trans (tally_checkCommit h2)

theorem tally_onDeliverBlk {s s' : Core} {b : Ptr} {r : Bool} (h : s.onDeliverBlk b = .ok (r, s')) :
    Tally [] s s' := by
  rcases onDeliverBlk_cases h with ⟨-, -, rfl⟩ | ⟨-, -, p0, rest, qcRef, -, -, rfl⟩
  · exact .refl _
  · exact (tally_modBlk s b (setDelivered (p0 :: rest) ((s.heap p0).height + 1) qcRef)
      (fun _ => rfl) fun _ => rfl).trans
      (tally_of_heap rfl rfl rfl rfl rfl (List.prefix_refl _))

theorem tally_onReceiveVote {s s' : Core} (hw : s.Wf) {v : Vote} (h : s.onReceiveVote v = .ok s') :
    Tally [v] s s' := by
  obtain ⟨b, hb, h'⟩ := except_bind_eq_ok.mp h
  obtain ⟨hblt, hbh⟩ := hw.roots.storage _ _ (getDeliveredBlk_ok hb).1
  dsimp only at h'
  split_ifs at h' with h1 h2
  · cases h'; exact (Tally.refl s).mono (List.nil_subset _)
  · refine @Tally.trans [v] [] _ _ _ ?_ (tally_updateHqc h')
    exact tally_count hblt hbh rfl rfl rfl rfl rfl (List.prefix_append _ _)
      fun _ _ => ⟨_, rfl, List.mem_singleton_self _⟩
  · cases h'
    exact tally_count hblt hbh rfl rfl rfl rfl rfl (List.prefix_refl _) fun h3 _ => absurd (by omega) h2

theorem tally_onReceiveProposal {s s' : Core} {r : ReplicaID} {bnew : Ptr}
    (h : s.onReceiveProposal r bnew = .ok s') : Tally [] s s' := by
  obtain ⟨-, s1, op, h1, -, rfl⟩ := onReceiveProposal_cases h
  exact (tally_update h1).trans
    (tally_of_heap rfl rfl rfl rfl rfl ((List.prefix_append _ _).trans (List.prefix_append _ _)))

theorem tally_proposeStored {s s' : Core} {bnew : Ptr} (hs : s.WfBut bnew)
    (h : s.proposeStored bnew = .ok s') : Tally [⟨s.id, (s.heap bnew).hash⟩] s s' := by
  obtain ⟨r, s2, s3, s4, h2, h3, -, h4, rfl⟩ := proposeStored_cases h
  have t2 := tally_onDeliverBlk h2
  have w3 := (hs.onDeliverBlk h2).update (lt_of_lt_of_le hs.lt t2.next_le) h3
  have t3 : Tally [] s s3 :=
    ((tally_modBlk s bnew (fun x => { x with selfQc := some (createQuorumCert (s.heap bnew).hash) })
      (fun _ => rfl) fun _ => rfl).trans t2).trans (tally_update h3)
  have w3' : ({ s3 with vheight := (s3.heap bnew).height }.emit (.vote bnew none)).Wf := ⟨w3.obj, w3.roots⟩
  have t35 : Tally [] s3 ({ s3 with vheight := (s3.heap bnew).height }.emit (.vote bnew none)) :=
    tally_of_heap rfl rfl rfl rfl rfl (List.prefix_append _ _)
  exact (((t3.trans t35).trans (tally_onReceiveVote w3' h4)).trans (tally_emit _ _)).mono
    (by simp [t3.id])

theorem tally_onPropose {H : BlockData → Hash} {s s' : Core} (hw : s.Wf) {cmds : List Hash}
    {parents : List Ptr} {extra : List Nat} (hps : ∀ p ∈ parents, p < s.next)
    (h : s.onPropose H cmds parents extra = .ok s') : ∃ hash, Tally [⟨s.id, hash⟩] s s' := by
  obtain ⟨p, rest, r, x, rfl, -, hx, hws, h'⟩ := onPropose_block hw hps h
  have hxv : x.voted = [] := by rw [hx]; rfl
  have t0 : Tally [] s { s with tails := s.tails.filter fun t => t ∉ p :: rest } :=
    tally_of_heap rfl rfl rfl rfl rfl (List.prefix_refl _)
  have t1 := t0.trans (tally_addBlk _ hxv)
  have t2 := tally_proposeStored hws h'
  rw [t1.id] at t2
  exact ⟨_, t1.trans t2⟩

theorem tally_tryReleaseBlk (rel : Ptr → Bool) (s : Core) (b : Ptr) :
    Tally [] s (tryReleaseBlk rel s b) := by
  unfold tryReleaseBlk
  split_ifs
  · exact tally_of_heap rfl rfl rfl rfl rfl (List.prefix_refl _)
  · exact .refl s

theorem tally_pruneLoop {rel : Ptr → Bool} :
    ∀ {fuel : Nat} {s s' : Core} {stk : List Ptr}, pruneLoop rel fuel s stk = .ok s' → Tally [] s s'
  | 0, _, _, _, h => by cases h
  | fuel + 1, s, s', [], h => by cases h; exact .refl s
  | fuel + 1, s, s', b :: stk, h => by
    unfold Core.pruneLoop at h
    split at h
    · exact (tally_tryReleaseBlk rel s b).trans (tally_pruneLoop h)
    · exact (tally_modBlk s b (fun x => { x with qcRef := none, parents := x.parents.dropLast })
        (fun _ => rfl) fun _ => rfl).trans (tally_pruneLoop h)

theorem tally_prune {s s' : Core} {rel : Ptr → Bool} {k : Nat} (h : s.prune rel k = .ok s') :
    Tally [] s s' := by
  unfold Core.prune at h
  split at h
  · cases h; exact .refl s
  · exact (tally_modBlk s _ (fun x => { x with qcRef := none }) (fun _ => rfl) fun _ => rfl).trans
      (tally_pruneLoop h)

theorem tally_exec {H : BlockData → Hash} {s s' : Core} (hw : s.Wf) {i : Input} (hv : i.Valid s)
    (h : exec H s i = .ok s') : ∃ vs, Tally vs s s' ∧
      ∀ v ∈ vs, i = .receiveVote v ∨ v.voter = s.id ∧ ∃ cmds ps extra, i = .propose cmds ps extra := by
  cases i with
  | fetch d => cases h; exact ⟨[], tally_addBlk s rfl, fun _ h => absurd h (List.not_mem_nil _)⟩
  | deliver b =>
    obtain ⟨⟨r, s''⟩, h', rfl⟩ := except_map_eq_ok.mp h
    exact ⟨[], tally_onDeliverBlk h', fun _ h => absurd h (List.not_mem_nil _)⟩
  | propose cmds parents extra =>
    obtain ⟨hash, ht⟩ := tally_onPropose hw hv h
    exact ⟨_, ht, fun v hv' => .inr ⟨by rw [List.mem_singleton.mp hv'], cmds, parents, extra, rfl⟩⟩
  | receiveProposal r b => exact ⟨[], tally_onReceiveProposal h, fun _ h => absurd h (List.not_mem_nil _)⟩
  | receiveVote v =>
    exact ⟨[v], tally_onReceiveVote hw h, fun v' hv' => .inl (by rw [List.mem_singleton.mp hv'])⟩
  | prune k rel => exact ⟨[], tally_prune h, fun _ h => absurd h (List.not_mem_nil _)⟩

/-! ## `on_hqc_update`

`async_hqc_update()` hands the pacemaker a promise that `on_hqc_update` resolves, with
`hqc.first` as it is then; a call of the model emits `hqcUpdate` where the source calls
`on_hqc_update`. Only `update_hqc` calls it, right after it raises `hqc`, and nothing
else moves `hqc` or changes the height of a delivered block. -/

/-- What a call does to `hqc`: the height of `hqc.first` does not go down, and the effects
the call appends announce `hqcUpdate` exactly when it went up. -/
structure Notifies (s s' : Core) : Prop where
  hqc_le : s.hqcHeight ≤ s'.hqcHeight
  out : ∃ l, s'.out = s.out ++ l ∧ (Effect.hqcUpdate ∈ l ↔ s.hqcHeight < s'.hqcHeight)

theorem Notifies.refl (s : Core) : Notifies s s :=
  ⟨le_rfl, [], (List.append_nil _).symm, iff_of_false (List.not_mem_nil _) (lt_irrefl _)⟩

theorem Notifies.trans {s1 s2 s3 : Core} (h1 : Notifies s1 s2) (h2 : Notifies s2 s3) :
    Notifies s1 s3 := by
  obtain ⟨l1, ho1, hi1⟩ := h1.out
  obtain ⟨l2, ho2, hi2⟩ := h2.out
  have := h1.hqc_le
  have := h2.hqc_le
  refine ⟨by omega, l1 ++ l2, by rw [ho2, ho1, List.append_assoc], ?_⟩
  rw [List.mem_append, hi1, hi2]
  omega

theorem notifies_frame {s s' : Core} (hq : s'.hqc.1 = s.hqc.1)
    (hh : (s'.heap s.hqc.1).height = (s.heap s.hqc.1).height) {l : List Effect}
    (hl : s'.out = s.out ++ l) (hn : Effect.hqcUpdate ∉ l) : Notifies s s' := by
  have he : s'.hqcHeight = s.hqcHeight := by unfold hqcHeight; rw [hq, hh]
  exact ⟨he.ge, l, hl, iff_of_false hn (by rw [he]; exact lt_irrefl _)⟩

theorem notifies_of_heap {s s' : Core} (hh : s'.heap = s.heap) (hq : s'.hqc = s.hqc)
    {l : List Effect} (hl : s'.out = s.out ++ l) (hn : Effect.hqcUpdate ∉ l) : Notifies s s' :=
  notifies_frame (by rw [hq]) (by rw [hh]) hl hn

theorem notifies_of_grows {s s' : Core} (hr : Roots s.heap s.next s.storage s.b0 s.bexec s.hqc.1)
    (hg : Grows s s') (hq : s'.hqc.1 = s.hqc.1) {l : List Effect} (hl : s'.out = s.out ++ l)
    (hn : Effect.hqcUpdate ∉ l) : Notifies s s' :=
  notifies_frame hq (hg.keep _ hr.hqc_lt hr.hqc_delivered).2 hl hn

theorem notifies_emit (s : Core) (e : Effect) (he : e ≠ .hqcUpdate) : Notifies s (s.emit e) :=
  notifies_of_heap rfl rfl rfl (by simpa using he.symm)

theorem notifies_modBlk (s : Core) (b : Ptr) (f : Block → Block) (hf : ∀ x, (f x).height = x.height) :
    Notifies s (s.modBlk b f) :=
  notifies_frame rfl (modBlk_heap_field _ hf s b _) (List.append_nil _).symm (List.not_mem_nil _)

theorem notifies_addBlk {s : Core} (hr : Roots s.heap s.next s.storage s.b0 s.bexec s.hqc.1) (x : Block) :
    Notifies s (s.addBlk x).1 := by
  have hf : (s.addBlk x).1.hqc = s.hqc ∧ (s.addBlk x).1.out = s.out := by
    unfold addBlk; split <;> exact ⟨rfl, rfl⟩
  exact notifies_of_grows hr (quiet_addBlk hr x).1 (by rw [hf.1]) (by rw [hf.2, List.append_nil])
    (List.not_mem_nil _)

theorem notifies_onDeliverBlk {s s' : Core} (hr : Roots s.heap s.next s.storage s.b0 s.bexec s.hqc.1)
    {b : Ptr} {r : Bool} (h : s.onDeliverBlk b = .ok (r, s')) : Notifies s s' := by
  have hg := (quiet_onDeliverBlk hr h).1
  rcases onDeliverBlk_cases h with ⟨-, -, rfl⟩ | ⟨-, -, _, _, _, -, -, rfl⟩
  · exact .refl _
  · exact notifies_of_grows hr hg rfl (List.append_nil _).symm (List.not_mem_nil _)

theorem notifies_updateHqc {s s' : Core} {blk : Ptr} {qc : Option QuorumCert}
    (h : s.updateHqc blk qc = .ok s') : Notifies s s' := by
  rcases updateHqc_cases h with rfl | ⟨hlt, q, -, rfl⟩
  · exact .refl _
  · exact ⟨hlt.le, [.hqcUpdate], rfl, iff_of_true (List.mem_singleton_self _) hlt⟩

theorem foldl_commitBlk_notifies (s : Core) (l : List Ptr) : Notifies s (l.foldl commitBlk s) := by
  induction l generalizing s with
  | nil => exact .refl _
  | cons b l ih =>
    refine .trans ?_ (ih (s.commitBlk b))
    exact (notifies_modBlk s b (fun x => { x with decision := true }) fun _ => rfl).trans
      (notifies_of_heap rfl rfl rfl (by simp))

theorem notifies_checkCommit {s s' : Core} {blk : Ptr} (h : s.checkCommit blk = .ok s') :
    Notifies s s' := by
  rcases checkCommit_cases h with rfl | ⟨p, rest, r, -, -, -, -, -, -, rfl⟩
  · exact .refl _
  · have hc := foldl_commitBlk_notifies s r.2.reverse
    exact ⟨hc.hqc_le, hc.out⟩

theorem notifies_update {s s' : Core} {nblk : Ptr} (h : s.update nblk = .ok s') : Notifies s s' := by
  obtain ⟨blk, s1, -, h1, h2⟩ := update_cases h
  exact (notifies_updateHqc h1).trans (notifies_checkCommit h2)

theorem notifies_onReceiveVote {s s' : Core} {v : Vote} (h : s.onReceiveVote v = .ok s') :
    Notifies s s' := by
  obtain ⟨b, -, hc⟩ := onReceiveVote_cases h
  rcases hc with rfl | ⟨qc, -, -, hs'⟩
  · exact .refl _
  have hm := notifies_modBlk s b (fun x => { x with voted := v.voter :: x.voted, selfQc := some qc })
    fun _ => rfl
  rcases hs' with rfl | ⟨-, h'⟩
  · exact hm
  · exact (hm.trans (notifies_emit _ (.qcFinish b) nofun)).trans (notifies_updateHqc h')

theorem notifies_onReceiveProposal {s s' : Core} {r : ReplicaID} {bnew : Ptr}
    (h : s.onReceiveProposal r bnew = .ok s') : Notifies s s' := by
  obtain ⟨-, s1, op, h1, -, rfl⟩ := onReceiveProposal_cases h
  refine (notifies_update h1).trans (notifies_of_heap rfl rfl (List.append_assoc _ _ _) ?_)
  split <;> simp

theorem notifies_proposeStored {s s' : Core} {bnew : Ptr} (hs : s.WfBut bnew)
    (h : s.proposeStored bnew = .ok s') : Notifies s s' := by
  obtain ⟨r, s2, s3, s4, h2, h3, -, h4, rfl⟩ := proposeStored_cases h
  have hk := keepsShape_vote (fun l => l) fun _ => some (createQuorumCert (s.heap bnew).hash)
  have n3 : Notifies s s3 :=
    ((notifies_modBlk s bnew (fun x => { x with selfQc := some (createQuorumCert (s.heap bnew).hash) })
      fun _ => rfl).trans (notifies_onDeliverBlk (hk.roots hs.roots) h2)).trans (notifies_update h3)
  have n4 : Notifies s3 ({ s3 with vheight := (s3.heap bnew).height }.emit (.vote bnew none)) :=
    notifies_of_heap rfl rfl rfl (by simp)
  exact ((n3.trans n4).trans (notifies_onReceiveVote h4)).trans (notifies_emit _ (.propose bnew) nofun)

theorem notifies_onPropose {H : BlockData → Hash} {s s' : Core} (hw : s.Wf) {cmds : List Hash}
    {parents : List Ptr} {extra : List Nat} (hps : ∀ p ∈ parents, p < s.next)
    (h : s.onPropose H cmds parents extra = .ok s') : Notifies s s' := by
  obtain ⟨x, -, hs, h'⟩ := onPropose_stored hw hps h
  have n0 : Notifies s { s with tails := s.tails.filter fun t => t ∉ parents } :=
    notifies_of_heap rfl rfl (List.append_nil _).symm (List.not_mem_nil _)
  exact (n0.trans (notifies_addBlk (s := { s with tails := s.tails.filter fun t => t ∉ parents })
    hw.roots x)).trans (notifies_proposeStored hs h')

theorem notifies_pruneLoop {rel : Ptr → Bool} :
    ∀ {fuel : Nat} {s s' : Core} {stk : List Ptr}, pruneLoop rel fuel s stk = .ok s' → Notifies s s'
  | 0, _, _, _, h => by cases h
  | fuel + 1, s, s', [], h => by cases h; exact .refl _
  | fuel + 1, s, s', b :: stk, h => by
    unfold Core.pruneLoop at h
    split at h
    · refine .trans ?_ (notifies_pruneLoop h)
      unfold tryReleaseBlk
      split_ifs
      · exact notifies_of_heap rfl rfl (List.append_nil _).symm (List.not_mem_nil _)
      · exact .refl _
    · exact (notifies_modBlk s b (fun x => { x with qcRef := none, parents := x.parents.dropLast })
        fun _ => rfl).trans (notifies_pruneLoop h)

theorem notifies_prune {s s' : Core} {rel : Ptr → Bool} {k : Nat} (h : s.prune rel k = .ok s') :
    Notifies s s' := by
  unfold Core.prune at h
  split at h
  · cases h; exact .refl _
  · exact (notifies_modBlk s _ (fun x => { x with qcRef := none }) fun _ => rfl).trans
      (notifies_pruneLoop h)

theorem notifies_exec {H : BlockData → Hash} {s s' : Core} (hw : s.Wf) {i : Input}
    (hv : i.Valid s) (h : exec H s i = .ok s') : Notifies s s' := by
  cases i with
  | fetch d => cases h; exact notifies_addBlk hw.roots _
  | deliver b =>
    obtain ⟨⟨r, s''⟩, h', rfl⟩ := except_map_eq_ok.mp h
    exact notifies_onDeliverBlk hw.roots h'
  | propose cmds parents extra => exact notifies_onPropose hw hv h
  | receiveProposal r b => exact notifies_onReceiveProposal h
  | receiveVote v => exact notifies_onReceiveVote h
  | prune k rel => exact notifies_prune h

/-- The waiters of `async_hqc_update` hear of every rise of `hqc` and of nothing else:
from any state a replica reaches to any later one, `hqc.first` is not lower, and the
effects in between hold `hqcUpdate` exactly when it is higher. -/
theorem hqc_update_iff_higher {H : BlockData → Hash} {id : ReplicaID} {rs : List ReplicaID}
    {nfaulty : Nat} {s s' : Core} (hr : Reachable H Input.Valid (init H id rs nfaulty) s)
    (hr' : Reachable H Input.Valid s s') :
    s.hqcHeight ≤ s'.hqcHeight ∧
      ∃ l, s'.out = s.out ++ l ∧ (Effect.hqcUpdate ∈ l ↔ s.hqcHeight < s'.hqcHeight) := by
  have h := hr'.induct_on H (P := fun t => Notifies s t) (.refl s) fun t t' _ ht hn hv he =>
    hn.trans (notifies_exec (reachable_wf (fun _ _ h => h) (hr.trans H ht)) hv he)
  exact ⟨h.hqc_le, h.out⟩

/-- Replica 0 of four delivers `B1` on genesis and `B2` on `B1`, each certifying its
parent; the proposal of `B2` raises `hqc` from genesis to `B1` and notifies. -/
theorem hqc_update_iff_higher_proposal :
    ∃ s', Reachable extraHash Input.Valid (init extraHash 0 [0, 1, 2, 3] 1) s' ∧
      (init extraHash 0 [0, 1, 2, 3] 1).hqcHeight = 0 ∧ s'.hqcHeight = 1 ∧
      ((init extraHash 0 [0, 1, 2, 3] 1).hqcHeight ≤ s'.hqcHeight ∧
        ∃ l, s'.out = (init extraHash 0 [0, 1, 2, 3] 1).out ++ l ∧
          (Effect.hqcUpdate ∈ l ↔ (init extraHash 0 [0, 1, 2, 3] 1).hqcHeight < s'.hqcHeight)) :=
  have hr : Reachable extraHash Input.Valid (init extraHash 0 [0, 1, 2, 3] 1) _ :=
    reachable_of_runFrom extraHash _ [.fetch ⟨[0], [], some ⟨0, [], true⟩, [1]⟩, .deliver 1,
      .fetch ⟨[1], [], some ⟨1, [], true⟩, [2]⟩, .deliver 2, .receiveProposal 1 2] rfl
  ⟨_, hr, rfl, rfl, hqc_update_iff_higher .refl hr⟩

end Core

/-! ## `qc_waiting` -/

def Effect.qcFinished : Effect → Option Ptr
  | .qcFinish b => some b
  | _ => none

/-- A replica's core with its `qc_waiting`: the blocks whose `async_qc_finish` promise has
not resolved. -/
structure QcWaiting where
  core : Core
  qcWaiting : List Ptr

/-- A call of the core's interface, or the pacemaker's `async_qc_finish(blk)`. -/
inductive QcEvent
  | call (i : Input)
  | asyncQcFinish (blk : Ptr)

namespace QcWaiting

variable (H : BlockData → Hash)

/-- `on_qc_finish(blk)`: the entry of `blk`, if there is one, resolves and is erased. -/
def onQcFinish (w : List Ptr) (blk : Ptr) : List Ptr := w.filter (· ≠ blk)

/-- `async_qc_finish(blk)`: a block with `nmajority` votes gives a promise resolved at
once; any other block gets its entry, made unless there is one. -/
def asyncQcFinish (s : QcWaiting) (blk : Ptr) : QcWaiting :=
  if s.core.nmajority ≤ (s.core.heap blk).voted.length ∨ blk ∈ s.qcWaiting then s
  else { s with qcWaiting := blk :: s.qcWaiting }

def step (s : QcWaiting) : QcEvent → Except Err QcWaiting
  | .call i => (exec H s.core i).map fun c =>
      ⟨c, ((c.out.drop s.core.out.length).filterMap Effect.qcFinished).foldl onQcFinish s.qcWaiting⟩
  | .asyncQcFinish blk => .ok (s.asyncQcFinish blk)

/-- The calls a caller can make, and the pacemaker waits on blocks that exist. -/
def Valid (s : QcWaiting) : QcEvent → Prop
  | .call i => i.Valid s.core
  | .asyncQcFinish blk => blk < s.core.next

instance decValid (s : QcWaiting) : (e : QcEvent) → Decidable (s.Valid e)
  | .call i => Input.decValid s.core i
  | .asyncQcFinish blk => Nat.decLt blk s.core.next

def init (id : ReplicaID) (replicas : List ReplicaID) (nfaulty : Nat) : QcWaiting :=
  ⟨Core.init H id replicas nfaulty, []⟩

inductive Reachable (s0 : QcWaiting) : QcWaiting → Prop
  | refl : Reachable s0 s0
  | tail {s s' : QcWaiting} (e : QcEvent) : Reachable s0 s → s.Valid e → s.step H e = .ok s' →
      Reachable s0 s'

def run (s : QcWaiting) : List QcEvent → Option QcWaiting
  | [] => some s
  | e :: es =>
    if s.Valid e then
      match s.step H e with
      | .ok s' => run s' es
      | .error _ => none
    else none

theorem reachable_of_run {s0 : QcWaiting} : ∀ {s : QcWaiting} (es : List QcEvent) {s' : QcWaiting},
    Reachable H s0 s → run H s es = some s' → Reachable H s0 s'
  | _, [], _, hr, h => by cases h; exact hr
  | s, e :: es, s', hr, h => by
    unfold QcWaiting.run at h
    split_ifs at h with hv
    split at h
    · exact reachable_of_run es (hr.tail e hv ‹_›) h
    · cases h

theorem mem_foldl_onQcFinish {b : Ptr} :
    ∀ (l w : List Ptr), b ∈ l.foldl onQcFinish w ↔ b ∈ w ∧ b ∉ l
  | [], w => by simp
  | a :: l, w => by
    rw [List.foldl_cons, mem_foldl_onQcFinish l, onQcFinish, List.mem_filter, List.mem_cons]
    simp only [decide_eq_true_eq, not_or, and_assoc]

/-- Every entry waits on an object with fewer than `nmajority` votes. -/
structure Inv (s : QcWaiting) : Prop where
  wf : s.core.Wf
  below : ∀ b ∈ s.qcWaiting, b < s.core.next ∧ (s.core.heap b).voted.length < s.core.nmajority

theorem Inv.step {s s' : QcWaiting} (hi : s.Inv) {e : QcEvent} (hv : s.Valid e)
    (h : s.step H e = .ok s') : s'.Inv := by
  cases e with
  | call i =>
    obtain ⟨c, hc, rfl⟩ := except_map_eq_ok.mp h
    obtain ⟨vs, ht, -⟩ := Core.tally_exec hi.wf hv hc
    refine ⟨hi.wf.exec hv hc, fun b hb => ?_⟩
    obtain ⟨hbw, hbn⟩ := (mem_foldl_onQcFinish _ _).mp hb
    obtain ⟨hlt, hvl⟩ := hi.below b hbw
    refine ⟨lt_of_lt_of_le hlt ht.next_le, ht.nmajority ▸ not_le.mp fun hge => hbn ?_⟩
    obtain ⟨l, hl, hf⟩ := ht.finish b hlt hvl hge
    rw [hl, List.drop_left]
    exact List.mem_filterMap.mpr ⟨_, hf, rfl⟩
  | asyncQcFinish blk =>
    cases h
    unfold asyncQcFinish
    split_ifs with hq
    · exact hi
    · refine ⟨hi.wf, fun b hb => ?_⟩
      rcases List.mem_cons.mp hb with rfl | hb
      · exact ⟨hv, not_le.mp (not_or.mp hq).1⟩
      · exact hi.below b hb

theorem reachable_inv {id : ReplicaID} {rs : List ReplicaID} {nfaulty : Nat} {s : QcWaiting}
    (hr : Reachable H (init H id rs nfaulty) s) : s.Inv := by
  induction hr with
  | refl => exact ⟨Core.wf_init H id rs nfaulty, fun _ h => absurd h (List.not_mem_nil _)⟩
  | tail e _ hv he ih => exact ih.step H hv he

/-- No quorum wait outlives its certificate: along every run of a replica, whatever it is
called with (`prune` included) and whenever the pacemaker asks, a block whose
`async_qc_finish` promise is still pending has fewer than `nmajority` votes. -/
theorem qcWaiting_below_quorum {id : ReplicaID} {rs : List ReplicaID} {nfaulty : Nat}
    {s : QcWaiting} (hr : Reachable H (init H id rs nfaulty) s) :
    ∀ b ∈ s.qcWaiting, b < s.core.next ∧ (s.core.heap b).voted.length < s.core.nmajority :=
  (reachable_inv H hr).below

/-- The pacemaker waits on a delivered block `B` of replica 0 (4 replicas), which then
gets the votes of replicas 1 and 2: the entry of `B` stays, below the quorum of 3. -/
theorem qcWaiting_below_quorum_two_votes :
    ∃ s, Reachable extraHash (init extraHash 0 [0, 1, 2, 3] 1) s ∧ s.qcWaiting = [1] ∧
      ∀ b ∈ s.qcWaiting, b < s.core.next ∧ (s.core.heap b).voted.length < s.core.nmajority :=
  have hr : Reachable extraHash (init extraHash 0 [0, 1, 2, 3] 1) _ := reachable_of_run extraHash
    [.call (.fetch ⟨[0], [10], none, [1]⟩), .call (.deliver 1),
    .asyncQcFinish 1, .call (.receiveVote ⟨1, 1⟩), .call (.receiveVote ⟨2, 1⟩)] .refl rfl
  ⟨_, hr, rfl, qcWaiting_below_quorum extraHash hr⟩

end QcWaiting

end HotStuff
