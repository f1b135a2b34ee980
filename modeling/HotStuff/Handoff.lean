import HotStuff.Delivery

/-!
# Each block handed to the core once

`async_deliver_blk(h)` opens a delivery only for a block that is neither delivered nor
waited on, the delivery waits on one continuation of its fetch or one `promise::all`, and
`HotStuffBase::on_deliver_blk` closes it. So each block object is handed to the core
once. Outside the deliveries only the replica's own `on_propose` delivers a block, and
`HotStuffCore::on_deliver_blk` accepts every block a delivery hands it unless the replica
proposed that block itself: then it warns of an "attempt to deliver a block twice" and the
delivery is rejected ("dropping invalid block").
-/

namespace HotStuff

namespace Core

theorem isBlkDelivered_addBlk {c : Core} (hw : c.Wf) {x : Block} (hx : x.delivered = false) (h : Hash) :
    (c.addBlk x).1.isBlkDelivered h = c.isBlkDelivered h := by
  cases hs : c.storage x.hash with
  | some p => rw [addBlk_of_some c _ hs]
  | none =>
    rw [addBlk_of_none c _ hs]
    unfold isBlkDelivered
    by_cases hh : h = x.hash
    · subst hh; simp [hs, hx]
    · cases hp : c.storage h with
      | none => simp [hh, hp]
      | some p => simp [hh, hp, (hw.roots.storage h p hp).1.ne]

theorem isBlkDelivered_onDeliverBlk {c c' : Core} (hw : c.Wf) {b : Ptr} {r : Bool}
    (hd : c.onDeliverBlk b = .ok (r, c')) {h : Hash} (hb : (c.heap b).hash ≠ h) :
    c'.isBlkDelivered h = c.isBlkDelivered h := by
  rcases onDeliverBlk_cases hd with ⟨-, -, rfl⟩ | ⟨-, -, _, _, _, -, -, rfl⟩
  · rfl
  · unfold isBlkDelivered
    cases hp : c.storage h with
    | none => simp [hp]
    | some p =>
      have hpb : p ≠ b := fun e => hb (e ▸ (hw.roots.storage h p hp).2)
      simp [hp, hpb]

/-- `HotStuffCore::on_deliver_blk` rejects only a block it delivered already. -/
theorem onDeliverBlk_accepts {c c' : Core} {b : Ptr} {r : Bool} (hn : (c.heap b).delivered = false)
    (hd : c.onDeliverBlk b = .ok (r, c')) : r = true := by
  rcases onDeliverBlk_cases hd with ⟨h, -, -⟩ | ⟨-, rfl, -⟩
  · rw [hn] at h; cases h
  · rfl

/-! ## What a call delivers -/

/-- The storage and the delivered objects of `c'` are those of `c`, but for the object `b`. -/
structure FrameBut (b : Ptr) (c c' : Core) : Prop where
  storage : ∀ h p, c'.storage h = some p → c.storage h = some p ∨ p = b
  delivered : ∀ p, (c'.heap p).delivered = true → (c.heap p).delivered = true ∨ p = b

theorem FrameBut.trans {b : Ptr} {c1 c2 c3 : Core} (h1 : FrameBut b c1 c2) (h2 : FrameBut b c2 c3) :
    FrameBut b c1 c3 :=
  ⟨fun h p hp => (h2.storage h p hp).elim (h1.storage h p) .inr,
    fun p hp => (h2.delivered p hp).elim (h1.delivered p) .inr⟩

theorem FrameBut.isBlkDelivered {b : Ptr} {c c' : Core} (hf : FrameBut b c c') {h : Hash}
    (hd : c'.isBlkDelivered h = true) : c.isBlkDelivered h = true ∨ c'.storage h = some b := by
  unfold Core.isBlkDelivered at hd
  split at hd
  · rename_i p hp
    rcases hf.storage h p hp with hs | rfl
    · rcases hf.delivered p hd with hd' | rfl
      · exact .inl (by simp [Core.isBlkDelivered, hs, hd'])
      · exact .inr hp
    · exact .inr hp
  · cases hd

/-- A write that leaves `next`, the storage, and which objects are delivered with which
content alone. -/
structure KeepsDelivered (c c' : Core) : Prop where
  next : c'.next = c.next
  storage : c'.storage = c.storage
  delivered : ∀ p, (c'.heap p).delivered = (c.heap p).delivered
  data : ∀ p, (c'.heap p).data = (c.heap p).data

theorem KeepsDelivered.refl (c : Core) : KeepsDelivered c c := ⟨rfl, rfl, fun _ => rfl, fun _ => rfl⟩

theorem KeepsDelivered.trans {c1 c2 c3 : Core} (h1 : KeepsDelivered c1 c2) (h2 : KeepsDelivered c2 c3) :
    KeepsDelivered c1 c3 :=
  ⟨h2.next.trans h1.next, h2.storage.trans h1.storage, fun p => (h2.delivered p).trans (h1.delivered p),
    fun p => (h2.data p).trans (h1.data p)⟩

theorem KeepsDelivered.frameBut {c c' : Core} (hk : KeepsDelivered c c') (b : Ptr) : FrameBut b c c' :=
  ⟨fun _ _ hp => .inl (hk.storage ▸ hp), fun p hp => .inl (hk.delivered p ▸ hp)⟩

theorem KeepsDelivered.isBlkDelivered {c c' : Core} (hk : KeepsDelivered c c') :
    c'.isBlkDelivered = c.isBlkDelivered := by
  funext h
  unfold Core.isBlkDelivered
  rw [hk.storage]
  cases c.storage h with
  | none => rfl
  | some p => exact hk.delivered p

theorem KeepsDelivered.isBlkFetched {c c' : Core} (hk : KeepsDelivered c c') :
    c'.isBlkFetched = c.isBlkFetched := by
  funext h; unfold Core.isBlkFetched; rw [hk.storage]

theorem keepsDelivered_modBlk {f : Block → Block} (hf : KeepsShape f) (c : Core) (b : Ptr) :
    KeepsDelivered c (c.modBlk b f) :=
  ⟨rfl, rfl, hf.heap_delivered c b, hf.heap_data c b⟩

theorem keepsDelivered_emit (c : Core) (e : Effect) : KeepsDelivered c (c.emit e) :=
  ⟨rfl, rfl, fun _ => rfl, fun _ => rfl⟩

theorem keepsDelivered_updateHqc {c c' : Core} {blk : Ptr} {qc : Option QuorumCert}
    (h : c.updateHqc blk qc = .ok c') : KeepsDelivered c c' := by
  rcases updateHqc_cases h with rfl | ⟨-, q, -, rfl⟩
  · exact .refl _
  · exact ⟨rfl, rfl, fun _ => rfl, fun _ => rfl⟩

theorem foldl_commitBlk_storage (c : Core) (l : List Ptr) : (l.foldl commitBlk c).storage = c.storage := by
  induction l generalizing c with
  | nil => rfl
  | cons b l ih => exact ih _

theorem keepsDelivered_update {c c' : Core} {nblk : Ptr} (h : c.update nblk = .ok c') :
    KeepsDelivered c c' := by
  obtain ⟨blk, c1, -, h1, h2⟩ := update_cases h
  refine (keepsDelivered_updateHqc h1).trans ?_
  rcases checkCommit_cases h2 with rfl | ⟨p, rest, r, -, -, -, -, -, -, rfl⟩
  · exact .refl _
  refine ⟨foldl_commitBlk_next c1 _, foldl_commitBlk_storage c1 _, fun x => ?_, fun x => ?_⟩ <;>
    obtain ⟨d, hd⟩ := foldl_commitBlk_heap c1 r.2.reverse x
  · exact (congrArg Block.delivered hd :)
  · exact (congrArg Block.data hd :)

theorem keepsDelivered_onReceiveVote {c c' : Core} {v : Vote} (h : c.onReceiveVote v = .ok c') :
    KeepsDelivered c c' := by
  obtain ⟨b, -, hc⟩ := onReceiveVote_cases h
  rcases hc with rfl | ⟨qc, -, -, rfl | ⟨-, h'⟩⟩
  · exact .refl _
  · exact keepsDelivered_modBlk (keepsShape_vote (v.voter :: ·) fun _ => some qc) c b
  · exact ((keepsDelivered_modBlk (keepsShape_vote (v.voter :: ·) fun _ => some qc) c b).trans
      (keepsDelivered_emit _ _)).trans (keepsDelivered_updateHqc h')

theorem frameBut_addBlk {c : Core} {x : Block} (hx : x.delivered = false) :
    FrameBut (c.addBlk x).2 c (c.addBlk x).1 := by
  cases hs : c.storage x.hash with
  | some q => rw [addBlk_of_some c x hs]; exact (KeepsDelivered.refl c).frameBut q
  | none =>
    rw [addBlk_of_none c x hs]
    refine ⟨fun h p hp => ?_, fun p hp => ?_⟩
    · by_cases hh : h = x.hash
      · simp only [hh, if_true, Option.some.injEq] at hp; exact .inr hp.symm
      · simp only [hh, if_false] at hp; exact .inl hp
    · by_cases hp' : p = c.next
      · simp [hp', hx] at hp
      · simp only [hp', if_false] at hp; exact .inl hp

theorem frameBut_onDeliverBlk {c c' : Core} {b : Ptr} {r : Bool} (h : c.onDeliverBlk b = .ok (r, c')) :
    FrameBut b c c' := by
  rcases onDeliverBlk_cases h with ⟨-, -, rfl⟩ | ⟨-, -, p0, rest, qcRef, -, -, rfl⟩
  · exact (KeepsDelivered.refl _).frameBut b
  refine ⟨fun _ _ hp => .inl hp, fun p hp => ?_⟩
  by_cases hpb : p = b
  · exact .inr hpb
  · simp only [modBlk_heap, hpb, if_false] at hp; exact .inl hp

/-- Every delivered block of the storage has its parents delivered and the block its
certificate names stored, as `on_deliver_blk` checks before it delivers one. -/
def Resolved (c : Core) : Prop :=
  ∀ h p, c.storage h = some p → (c.heap p).delivered = true →
    (∀ q ∈ (c.heap p).data.parentHashes, c.isBlkDelivered q = true) ∧
      ∀ qc, (c.heap p).data.qc = some qc → c.isBlkFetched qc.objHash = true

theorem Resolved.keep {c c' : Core} (hr : c.Resolved) (hk : KeepsDelivered c c') : c'.Resolved := by
  intro h p hs hd
  rw [hk.storage] at hs
  rw [hk.delivered] at hd
  rw [hk.isBlkDelivered, hk.isBlkFetched, hk.data]
  exact hr h p hs hd

theorem Resolved.addBlk {c : Core} (hr : c.Resolved) (hw : c.Wf) {x : Block} (hx : x.delivered = false) :
    (c.addBlk x).1.Resolved := by
  cases hs : c.storage x.hash with
  | some q => rw [addBlk_of_some c x hs]; exact hr
  | none =>
    intro h p hp hd
    have hf := frameBut_addBlk (c := c) hx
    have hn : (c.addBlk x).2 = c.next := by rw [addBlk_of_none c x hs]
    have hpn : p ≠ c.next := fun he => by rw [addBlk_of_none c x hs] at hd; simp [he, hx] at hd
    have hheap : (c.addBlk x).1.heap p = c.heap p := by rw [addBlk_of_none c x hs]; simp [hpn]
    rw [hheap] at hd ⊢
    obtain ⟨h1, h2⟩ := hr h p ((hf.storage h p hp).resolve_right (hn ▸ hpn)) hd
    refine ⟨fun q hq => (isBlkDelivered_addBlk hw hx q).trans (h1 q hq), fun qc hqc => ?_⟩
    obtain ⟨a, ha⟩ := Option.isSome_iff_exists.mp (h2 qc hqc)
    rw [addBlk_of_none c x hs]
    by_cases he : qc.objHash = x.hash <;> simp [isBlkFetched, he, ha]

theorem getDeliveredBlks_delivered {c : Core} :
    ∀ {hs : List Hash} {ps : List Ptr}, c.getDeliveredBlks hs = .ok ps → ∀ q ∈ hs, c.isBlkDelivered q = true
  | [], _, _ => fun _ h => absurd h (List.not_mem_nil _)
  | h :: hs, ps, hg => by
    obtain ⟨p, hp, qs, hq, rfl⟩ := by simpa [getDeliveredBlks] using hg
    intro q hm
    rcases List.mem_cons.mp hm with rfl | hm
    · obtain ⟨h1, h2⟩ := getDeliveredBlk_ok hp
      simp [isBlkDelivered, h1, h2]
    · exact getDeliveredBlks_delivered hq q hm

theorem Resolved.onDeliverBlk {c c' : Core} (hr : c.Resolved) {b : Ptr} {r : Bool}
    (h : c.onDeliverBlk b = .ok (r, c')) : c'.Resolved := by
  rcases onDeliverBlk_cases h with ⟨-, -, rfl⟩ | ⟨-, -, p0, rest, qcRef, hg, hq, rfl⟩
  · exact hr
  have hmono : ∀ q, c.isBlkDelivered q = true →
      { c.modBlk b (setDelivered (p0 :: rest) ((c.heap p0).height + 1) qcRef) with
        tails := newTails c.tails (p0 :: rest) b }.isBlkDelivered q = true := fun q hq => by
    unfold isBlkDelivered at hq ⊢
    cases hs : c.storage q with
    | none => rw [hs] at hq; cases hq
    | some a =>
      rw [hs] at hq
      dsimp only at hq
      by_cases hab : a = b <;> simp [hs, hab, hq, setDelivered]
  intro h p hs hd
  by_cases hpb : p = b
  · subst hpb
    simp only [modBlk_heap, if_true, setDelivered]
    refine ⟨fun q hq' => hmono q (getDeliveredBlks_delivered hg q hq'), fun qc hqc => ?_⟩
    rcases resolveQcRef_ok hq with ⟨hn, -⟩ | ⟨qc', a, hqc', ha, -⟩
    · rw [hn] at hqc; cases hqc
    · rw [hqc'] at hqc; cases hqc
      simp [isBlkFetched, ha]
  · simp only [modBlk_heap, hpb, if_false] at hd ⊢
    obtain ⟨h1, h2⟩ := hr h p hs hd
    exact ⟨fun q hq' => hmono q (h1 q hq'), fun qc hqc => by simpa [isBlkFetched] using h2 qc hqc⟩

theorem onPropose_frame {H : BlockData → Hash} {s s' : Core} (hw : s.Wf) {cmds : List Hash}
    {parents : List Ptr} {extra : List Nat} (hps : ∀ p ∈ parents, p < s.next)
    (h : s.onPropose H cmds parents extra = .ok s') :
    ∃ bnew, Effect.propose bnew ∈ s'.out ∧ FrameBut bnew s s' ∧ (s.Resolved → s'.Resolved) := by
  obtain ⟨p, rest, r, x, rfl, -, hx, -, h'⟩ := onPropose_block hw hps h
  have hxd : x.delivered = false := by rw [hx]; rfl
  have hw0 : { s with tails := s.tails.filter fun t => t ∉ p :: rest }.Wf := ⟨hw.obj, hw.roots⟩
  have hk0 : KeepsDelivered s { s with tails := s.tails.filter fun t => t ∉ p :: rest } :=
    ⟨rfl, rfl, fun _ => rfl, fun _ => rfl⟩
  have hf1 := frameBut_addBlk (c := { s with tails := s.tails.filter fun t => t ∉ p :: rest }) hxd
  have hr1 := fun hr : s.Resolved => (hr.keep hk0).addBlk hw0 hxd
  generalize { s with tails := s.tails.filter fun t => t ∉ p :: rest }.addBlk x = sb at hf1 hr1 h'
  obtain ⟨r', s2, s3, s4, h2, h3, -, h4, rfl⟩ := proposeStored_cases h'
  have hk2 := keepsDelivered_modBlk (keepsShape_vote (fun l => l)
    fun _ => some (createQuorumCert (sb.1.heap sb.2).hash)) sb.1 sb.2
  have hk3 : KeepsDelivered s3 ({ s3 with vheight := (s3.heap sb.2).height }.emit (.vote sb.2 none)) :=
    ⟨rfl, rfl, fun _ => rfl, fun _ => rfl⟩
  have hk4 := ((keepsDelivered_update h3).trans hk3).trans
    ((keepsDelivered_onReceiveVote h4).trans (keepsDelivered_emit _ (.propose sb.2)))
  exact ⟨sb.2, List.mem_append_right _ (List.mem_singleton_self _),
    (((hk0.frameBut _).trans hf1).trans (hk2.frameBut _)).trans ((frameBut_onDeliverBlk h2).trans (hk4.frameBut _)),
    fun hr => (((hr1 hr).keep hk2).onDeliverBlk h2).keep hk4⟩

end Core

namespace Base

@[simp] theorem asyncFetchBlk_deliveryWaiting (s : Base) (h : Hash) :
    (s.asyncFetchBlk h).deliveryWaiting = s.deliveryWaiting := by
  unfold asyncFetchBlk; split <;> rfl

@[simp] theorem asyncFetchBlk_conts (s : Base) (h : Hash) : (s.asyncFetchBlk h).conts = s.conts := by
  unfold asyncFetchBlk; split <;> rfl

theorem asyncDeliverBlk_cases (s : Base) (h : Hash) :
    s.asyncDeliverBlk h = s ∨ s.core.isBlkDelivered h = false ∧ h ∉ s.deliveryWaiting ∧
      s.asyncDeliverBlk h =
        { s.asyncFetchBlk h with deliveryWaiting := h :: s.deliveryWaiting, conts := h :: s.conts } := by
  unfold asyncDeliverBlk
  split_ifs with hc
  · exact .inl rfl
  · simp only [Bool.or_eq_true, List.elem_eq_mem, decide_eq_true_eq, not_or, Bool.not_eq_true] at hc
    exact .inr ⟨hc.1, hc.2, rfl⟩

/-- The open deliveries: each waits on at most one continuation of its fetch or one job,
every job holds the object stored under its hash, and a block delivered while its delivery
is open is one the replica proposed. The handed blocks are distinct, delivered, and their
deliveries closed. -/
structure OpenInv (s : Base) : Prop where
  nodup : s.deliveryWaiting.Nodup
  proposed : ∀ h ∈ s.deliveryWaiting, s.core.isBlkDelivered h = true →
    ∃ p, s.core.storage h = some p ∧ Effect.propose p ∈ s.core.out
  conts : ∀ h ∈ s.conts, h ∈ s.deliveryWaiting
  jobs : ∀ j ∈ s.jobs, j.hash ∈ s.deliveryWaiting ∧ s.core.storage j.hash = some j.blk
  once : (s.conts ++ s.jobs.map Job.hash).Nodup
  handed : (s.handed.map Prod.fst).Nodup
  closed : ∀ x ∈ s.handed, ∃ h, s.core.storage h = some x.1 ∧ (s.core.heap x.1).delivered = true ∧
    h ∉ s.deliveryWaiting

theorem OpenInv.frame {s t : Base} (hi : s.OpenInv) (hc : t.core = s.core)
    (hd : t.deliveryWaiting = s.deliveryWaiting) (hn : t.conts = s.conts) (hj : t.jobs = s.jobs)
    (hh : t.handed = s.handed) : t.OpenInv :=
  ⟨hd ▸ hi.nodup, by rw [hd, hc]; exact hi.proposed, by rw [hn, hd]; exact hi.conts,
    by rw [hj, hd, hc]; exact hi.jobs, by rw [hn, hj]; exact hi.once, by rw [hh]; exact hi.handed,
    by rw [hh, hc, hd]; exact hi.closed⟩

theorem OpenInv.cont_ne_job {s : Base} (hi : s.OpenInv) {x : Hash} (hx : x ∈ s.conts) {j : Job}
    (hj : j ∈ s.jobs) : x ≠ j.hash :=
  (List.pairwise_append.mp hi.once).2.2 x hx _ (List.mem_map_of_mem _ hj)

theorem OpenInv.job_delivered {s : Base} (hi : s.OpenInv) {j : Job} (hj : j ∈ s.jobs) :
    (s.core.heap j.blk).delivered = false ∨ Effect.propose j.blk ∈ s.core.out := by
  obtain ⟨hjd, hjs⟩ := hi.jobs j hj
  cases hd : (s.core.heap j.blk).delivered
  · exact .inl rfl
  · obtain ⟨p, hp, hpo⟩ := hi.proposed _ hjd (by simp [Core.isBlkDelivered, hjs, hd])
    obtain rfl := Option.some.inj (hjs.symm.trans hp)
    exact .inr hpo

theorem OpenInv.core {s : Base} (hi : s.OpenInv) (hw : s.core.Wf) {c : Core} (hg : CoreGrows s.core c)
    (ho : s.core.out <+: c.out)
    (hd : ∀ h, c.isBlkDelivered h = true →
      s.core.isBlkDelivered h = true ∨ ∃ p, c.storage h = some p ∧ Effect.propose p ∈ c.out) :
    { s with core := c }.OpenInv := by
  refine ⟨hi.nodup, fun h hh hdc => ?_, hi.conts, fun j hj => ⟨(hi.jobs j hj).1, hg.storage _ _ (hi.jobs j hj).2⟩,
    hi.once, hi.handed, fun x hx => ?_⟩
  · rcases hd h hdc with hdc | hp
    · obtain ⟨p, hp, hpo⟩ := hi.proposed h hh hdc
      exact ⟨p, hg.storage _ _ hp, ho.subset hpo⟩
    · exact hp
  · obtain ⟨h, hs, hdel, hn⟩ := hi.closed x hx
    exact ⟨h, hg.storage _ _ hs, hg.delivered _ (hw.roots.storage h _ hs).1 hdel, hn⟩

theorem OpenInv.addBlk {H : BlockData → Hash} {s : Base} (hi : s.OpenInv) (hw : s.core.Wf) (d : BlockData) :
    { s with core := (s.core.addBlk (Block.ofData H d)).1 }.OpenInv :=
  hi.core hw (coreGrows_addBlk _ _) (Core.keeps_addBlk _ _).out fun h hd =>
    .inl ((Core.isBlkDelivered_addBlk hw rfl h).symm.trans hd)

theorem OpenInv.asyncDeliverBlk {s : Base} (hi : s.OpenInv) (h : Hash) : (s.asyncDeliverBlk h).OpenInv := by
  rcases asyncDeliverBlk_cases s h with he | ⟨hd, hw, he⟩
  · rw [he]; exact hi
  rw [he]
  have hcn : h ∉ s.conts ++ s.jobs.map Job.hash := fun hm => hw <| by
    rcases List.mem_append.mp hm with hm | hm
    · exact hi.conts h hm
    · obtain ⟨j, hj, rfl⟩ := List.mem_map.mp hm; exact (hi.jobs j hj).1
  refine ⟨List.nodup_cons.mpr ⟨hw, hi.nodup⟩, fun x hx hxd => ?_, fun x hx => ?_, fun j hj => ?_,
    by simpa using List.nodup_cons.mpr ⟨hcn, hi.once⟩, by simpa using hi.handed, fun x hx => ?_⟩
  · simp only [asyncFetchBlk_core] at hxd ⊢
    rcases List.mem_cons.mp hx with rfl | hx
    · rw [hd] at hxd; cases hxd
    · exact hi.proposed x hx hxd
  · rcases List.mem_cons.mp hx with rfl | hx
    · exact List.mem_cons_self _ _
    · exact List.mem_cons_of_mem _ (hi.conts x hx)
  · simp only [asyncFetchBlk_jobs, asyncFetchBlk_core] at hj ⊢
    exact ⟨List.mem_cons_of_mem _ (hi.jobs j hj).1, (hi.jobs j hj).2⟩
  · simp only [asyncFetchBlk_handed, asyncFetchBlk_core] at hx ⊢
    obtain ⟨h', hs, hdel, hn⟩ := hi.closed x hx
    refine ⟨h', hs, hdel, fun hm => (List.mem_cons.mp hm).elim (fun he => ?_) hn⟩
    rw [← he, Core.isBlkDelivered, hs] at hd
    exact absurd hdel (by simpa using hd)

theorem OpenInv.foldl_asyncDeliverBlk : ∀ (l : List Hash) {s : Base}, s.OpenInv →
    (l.foldl Base.asyncDeliverBlk s).OpenInv
  | [], _, hi => hi
  | h :: l, _, hi => OpenInv.foldl_asyncDeliverBlk l (hi.asyncDeliverBlk h)

theorem foldl_asyncDeliverBlk_idle {h : Hash} : ∀ (l : List Hash) {s : Base}, h ∈ s.deliveryWaiting →
    h ∉ s.conts → h ∈ (l.foldl asyncDeliverBlk s).deliveryWaiting ∧ h ∉ (l.foldl asyncDeliverBlk s).conts
  | [], _, hd, hc => ⟨hd, hc⟩
  | h' :: l, s, hd, hc => by
    refine foldl_asyncDeliverBlk_idle l ?_ ?_ <;> rcases asyncDeliverBlk_cases s h' with he | ⟨-, hw, he⟩ <;>
      rw [he]
    · exact hd
    · exact List.mem_cons_of_mem _ hd
    · exact hc
    · exact fun hm => (List.mem_cons.mp hm).elim (fun e => hw (e ▸ hd)) hc

theorem OpenInv.fetched {t : Base} (hi : t.OpenInv) {h : Hash} {p : Ptr} (hd : h ∈ t.deliveryWaiting)
    (hc : h ∉ t.conts) (hj : h ∉ t.jobs.map Job.hash) (hp : t.core.storage h = some p) (l : List Hash)
    (v : Option (Option Bool)) :
    { l.foldl Base.asyncDeliverBlk t with jobs := ⟨h, p, v⟩ :: (l.foldl Base.asyncDeliverBlk t).jobs }.OpenInv := by
  have hT := hi.foldl_asyncDeliverBlk l
  obtain ⟨hcore, -, hjobs⟩ := Base.foldl_asyncDeliverBlk t l
  obtain ⟨hdT, hcT⟩ := foldl_asyncDeliverBlk_idle l hd hc
  refine ⟨hT.nodup, hT.proposed, hT.conts, fun j hj' => ?_, ?_, hT.handed, hT.closed⟩
  · rcases List.mem_cons.mp hj' with rfl | hj'
    · exact ⟨hdT, by rw [hcore]; exact hp⟩
    · exact hT.jobs j hj'
  · rw [List.map_cons, List.perm_middle.nodup_iff, List.nodup_cons, hjobs]
    refine ⟨fun hm => (List.mem_append.mp hm).elim hcT hj, ?_⟩
    rw [← hjobs]; exact hT.once

theorem OpenInv.onFetched {s : Base} (hi : s.OpenInv) {h : Hash} (hc : h ∈ s.conts) :
    (s.onFetched h).OpenInv := by
  have hn : s.conts.Nodup := hi.once.sublist (List.sublist_append_left _ _)
  have hj : h ∉ s.jobs.map Job.hash := fun hm =>
    let ⟨j, hj, he⟩ := List.mem_map.mp hm
    hi.cont_ne_job hc hj he.symm
  have h1 : ({ s with conts := s.conts.erase h } : Base).OpenInv :=
    ⟨hi.nodup, hi.proposed, fun x hx => hi.conts x (List.mem_of_mem_erase hx), hi.jobs,
      hi.once.sublist ((List.erase_sublist _ _).append_right _), hi.handed, hi.closed⟩
  have hd := hi.conts h hc
  unfold Base.onFetched
  split
  · exact hi
  · rename_i p hp
    dsimp only
    split
    · exact (h1.frame (by simp) (by simp) (by simp) (by simp) (by simp)).fetched (by simpa using hd)
        (by simpa using hn.not_mem_erase) (by simpa using hj) (by simpa using hp) _ _
    · exact h1.fetched hd hn.not_mem_erase hj hp _ _

theorem OpenInv.handOver {s : Base} (hp : s.PipeInv) (hi : s.OpenInv) {j : Job} (hjm : j ∈ s.jobs) {r : Bool}
    {c : Core} (hd : s.core.onDeliverBlk j.blk = .ok (r, c)) :
    ({ s with core := c, jobs := s.jobs.filter (·.hash ≠ j.hash),
               deliveryWaiting := s.deliveryWaiting.erase j.hash,
               handed := s.handed ++ [(j.blk, j.verify)] } : Base).OpenInv := by
  obtain ⟨hjd, hjs⟩ := hi.jobs j hjm
  have hjh : (s.core.heap j.blk).hash = j.hash := (hp.wf.roots.storage _ _ hjs).2
  have hg := coreGrows_onDeliverBlk hd
  have hne : ∀ x ∈ s.conts, x ≠ j.hash := fun x hx => hi.cont_ne_job hx hjm
  refine ⟨hi.nodup.erase _, fun x hx hxd => ?_, fun x hx => ?_, fun j' hj' => ?_, ?_, ?_, fun x hx => ?_⟩
  · obtain ⟨hxj, hx⟩ := hi.nodup.mem_erase_iff.mp hx
    rw [Core.isBlkDelivered_onDeliverBlk hp.wf hd (hjh.trans_ne (Ne.symm hxj))] at hxd
    obtain ⟨p, hs, hpo⟩ := hi.proposed x hx hxd
    exact ⟨p, hg.storage _ _ hs, (Core.keeps_onDeliverBlk hd).out.subset hpo⟩
  · exact hi.nodup.mem_erase_iff.mpr ⟨hne x hx, hi.conts x hx⟩
  · obtain ⟨hj', hne'⟩ := List.mem_filter.mp hj'
    exact ⟨hi.nodup.mem_erase_iff.mpr ⟨of_decide_eq_true hne', (hi.jobs j' hj').1⟩,
      hg.storage _ _ (hi.jobs j' hj').2⟩
  · exact hi.once.sublist (((List.filter_sublist _).map _).append_left _)
  · rw [List.map_append, List.map_singleton]
    refine (List.perm_append_singleton _ _).nodup_iff.mpr (List.nodup_cons.mpr ⟨fun hm => ?_, hi.handed⟩)
    obtain ⟨x, hx, hxe⟩ := List.mem_map.mp hm
    obtain ⟨h, hs, -, hn⟩ := hi.closed x hx
    rw [hxe] at hs
    exact hn (((hp.wf.roots.storage _ _ hs).2.symm.trans hjh) ▸ hjd)
  · rcases List.mem_append.mp hx with hx | hx
    · obtain ⟨h, hs, hdel, hn⟩ := hi.closed x hx
      exact ⟨h, hg.storage _ _ hs, hg.delivered _ (hp.wf.roots.storage h _ hs).1 hdel,
        fun hm => hn (List.mem_of_mem_erase hm)⟩
    · obtain rfl := List.mem_singleton.mp hx
      exact ⟨j.hash, hg.storage _ _ hjs, Core.onDeliverBlk_delivered hd, hi.nodup.not_mem_erase⟩

theorem OpenInv.step (H : BlockData → Hash) {s s' : Base} (hp : s.PipeInv) (hi : s.OpenInv) {e : Event}
    (h : s.step H e = .ok s') : s'.OpenInv := by
  cases moves_of_step H h with
  | propose d => exact (hi.addBlk hp.wf d).asyncDeliverBlk _
  | respBlock d => exact (hi.addBlk (H := H) hp.wf d).frame rfl rfl rfl rfl rfl
  | deliver n => exact hi.asyncDeliverBlk n
  | fetched hc _ => exact hi.onFetched hc
  | verified n v =>
    refine ⟨hi.nodup, hi.proposed, hi.conts, fun j hj => ?_, ?_, hi.handed, hi.closed⟩
    · obtain ⟨j0, hj0, rfl⟩ := List.mem_map.mp hj
      simpa using hi.jobs j0 hj0
    · simpa [List.map_map, Function.comp_def] using hi.once
  | handOver hjm _ hd => exact hi.handOver hp hjm hd
  | onPropose hps hc =>
    obtain ⟨bnew, hbo, hf, -⟩ := Core.onPropose_frame hp.wf hps hc
    have hk := (Core.tracks_onPropose hp.wf hc).keeps
    exact hi.core hp.wf (coreGrows_of_keeps hk) hk.out fun h hd =>
      (hf.isBlkDelivered hd).imp_right fun hs => ⟨bnew, hs, hbo⟩
  | idle => exact hi

theorem openInv_init (H : BlockData → Hash) (id : ReplicaID) (rs : List ReplicaID) (nfaulty : Nat) :
    (init H id rs nfaulty).OpenInv :=
  ⟨List.nodup_nil, fun _ h => absurd h (List.not_mem_nil _), fun _ h => absurd h (List.not_mem_nil _),
    fun _ h => absurd h (List.not_mem_nil _), List.nodup_nil, List.nodup_nil, fun _ h => absurd h (List.not_mem_nil _)⟩

variable (H : BlockData → Hash)

theorem reachable_openInv {id : ReplicaID} {rs : List ReplicaID} {nfaulty : Nat} {s : Base}
    (hr : Reachable H (init H id rs nfaulty) s) : s.OpenInv := by
  induction hr with
  | refl => exact openInv_init H id rs nfaulty
  | tail e hr' h ih => exact ih.step H (reachable_pipeInv H hr') h

/-- In every run of the delivery pipeline, `HotStuffBase::on_deliver_blk` hands each block
object to the core at most once, and the core accepts every block a pending delivery will
hand it, unless the replica's own `on_propose` delivered that block meanwhile: only then
does `HotStuffCore::on_deliver_blk` return `false` ("attempt to deliver a block twice"), and
the delivery promise is rejected ("dropping invalid block"). -/
theorem blocks_handed_once {id : ReplicaID} {rs : List ReplicaID} {nfaulty : Nat} {s : Base}
    (hr : Reachable H (init H id rs nfaulty) s) :
    (s.handed.map Prod.fst).Nodup ∧ ∀ j ∈ s.jobs, ∀ r c, s.core.onDeliverBlk j.blk = .ok (r, c) →
      r = true ∨ Effect.propose j.blk ∈ s.core.out := by
  have hi := reachable_openInv H hr
  exact ⟨hi.handed, fun j hj _ _ hd => (hi.job_delivered hj).imp_left fun hn => Core.onDeliverBlk_accepts hn hd⟩

/-- A vote for hash `5` opens its delivery and fetch; the replica then proposes on genesis a
block of hash `5`, which its `on_propose` delivers. A reply stores nothing new, and the
continuation of the fetch and `verify` leave the job of `5` waiting on a block the core
has delivered: `on_deliver_blk` returns `false`, and `promise::all` hands the block and
closes the delivery on the rejecting branch. -/
theorem blocks_handed_once_proposed :
    ∃ s, Reachable extraHash (init extraHash 0 [0, 1, 2, 3] 1) s ∧ s.jobs = [⟨5, 1, some (some true)⟩] ∧
      Effect.propose 1 ∈ s.core.out ∧ s.core.onDeliverBlk 1 = .ok (false, s.core) ∧
      (∃ s', s.step extraHash (.allResolved 5) = .ok s' ∧ s'.handed = [(1, some (some true))] ∧
        s'.deliveryWaiting = []) ∧
      (s.handed.map Prod.fst).Nodup ∧ ∀ j ∈ s.jobs, ∀ r c, s.core.onDeliverBlk j.blk = .ok (r, c) →
        r = true ∨ Effect.propose j.blk ∈ s.core.out :=
  have hr : Reachable extraHash (init extraHash 0 [0, 1, 2, 3] 1) _ := reachable_of_run extraHash
    [.vote ⟨1, 5⟩, .onPropose [7] [0] [5], .respBlock ⟨[], [], none, [5]⟩, .fetched 5, .verified 5 true]
    .refl rfl
  ⟨_, hr, rfl, by decide, rfl, ⟨_, rfl, rfl, rfl⟩, blocks_handed_once extraHash hr⟩

end Base

end HotStuff
