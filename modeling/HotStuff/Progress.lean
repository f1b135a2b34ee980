import HotStuff.Handoff
import HotStuff.Fetch
import HotStuff.Replica
import HotStuff.Tails

/-!
# No delivery waits forever

`async_deliver_blk(h)` opens no second delivery for `h` while one is open, so an open
delivery that could not go on would hold back `h`, and every block above it, for good.
Along every run of the pipeline each open delivery waits on the continuation of its fetch
or on a job. From there, whatever deliveries, fetches and jobs are in flight, a block
stored together with the undelivered part of its ancestry is delivered by some run of
events: the `RespBlock` replies that settle the fetches in `blk_fetch_waiting`, a message
naming the block, the continuation of its fetch, its `verify` and its `promise::all`,
after the same for each of its parents. The blocks of that ancestry need a parent each
(`on_deliver_blk` reads `parents[0]`) and the block their certificate names stored (it
throws otherwise); nothing else is asked of them.
-/

namespace HotStuff

namespace Core

theorem getDeliveredBlks_of_delivered {s : Core} :
    ∀ {hs : List Hash}, (∀ h ∈ hs, s.isBlkDelivered h = true) →
      ∃ ps : List Ptr, s.getDeliveredBlks hs = .ok ps ∧ ps.length = hs.length
  | [], _ => ⟨[], rfl, rfl⟩
  | h :: hs, hd => by
    have hh := hd h (List.mem_cons_self _ _)
    obtain ⟨ps, hps, hl⟩ := getDeliveredBlks_of_delivered fun x hx => hd x (List.mem_cons_of_mem _ hx)
    unfold isBlkDelivered at hh
    cases hp : s.storage h with
    | none => rw [hp] at hh; cases hh
    | some p =>
      simp only [hp] at hh
      refine ⟨p :: ps, ?_, by rw [List.length_cons, List.length_cons, hl]⟩
      simp only [getDeliveredBlks, getDeliveredBlk, hp, hh, if_true, hps]
      rfl

theorem onDeliverBlk_of_resolved {s : Core} {b : Ptr}
    (hne : (s.heap b).delivered = false → (s.heap b).data.parentHashes ≠ [])
    (hp : ∀ h ∈ (s.heap b).data.parentHashes, s.isBlkDelivered h = true)
    (hq : ∀ qc, (s.heap b).data.qc = some qc → s.isBlkFetched qc.objHash = true) :
    ∃ r s', s.onDeliverBlk b = .ok (r, s') ∧ (s'.heap b).delivered = true := by
  cases hn : (s.heap b).delivered
  case true => exact ⟨false, s, by simp [onDeliverBlk, hn], hn⟩
  obtain ⟨ps, hps, hl⟩ := getDeliveredBlks_of_delivered hp
  obtain ⟨r, hr⟩ : ∃ r, s.resolveQcRef b = .ok r := by
    unfold resolveQcRef
    cases hc : (s.heap b).data.qc with
    | none => exact ⟨_, rfl⟩
    | some qc =>
      obtain ⟨q, hq'⟩ := Option.isSome_iff_exists.mp (hq qc hc)
      exact ⟨some q, by simp only [hq']⟩
  cases ps with
  | nil => exact absurd (List.length_eq_zero.mp hl.symm) (hne hn)
  | cons p0 rest =>
    obtain ⟨⟨r', s'⟩, h⟩ : ∃ x, s.onDeliverBlk b = .ok x := by
      unfold onDeliverBlk
      rw [if_neg (by simp [hn]), hps, hr]
      exact ⟨_, rfl⟩
    exact ⟨r', s', h, Base.Core.onDeliverBlk_delivered h⟩

theorem Linked.data_of_stored {H : BlockData → Hash} {c : Core} (hl : c.Linked H) (hw : c.Wf)
    {h : Hash} {p : Ptr} (hs : c.storage h = some p) : ∃ d, H d = h := by
  obtain ⟨hp, hh⟩ := hw.roots.storage h p hs
  by_cases hb : p = c.b0
  · exact ⟨genesisData, by rw [← hh, hb, hl.b0_hash]⟩
  · exact ⟨_, by rw [← hh, hl.hash p hp hb]⟩

/-- What the pipeline can deliver from the blocks a core stores: a delivered block, or a
stored one with a parent, whose parents are deliverable and whose certified block is
stored. -/
inductive Deliverable (c : Core) : Hash → Prop
  | delivered {h : Hash} : c.isBlkDelivered h = true → Deliverable c h
  | stored {h : Hash} {p : Ptr} : c.storage h = some p → (c.heap p).data.parentHashes ≠ [] →
      (∀ q ∈ (c.heap p).data.parentHashes, Deliverable c q) →
      (∀ qc, (c.heap p).data.qc = some qc → c.isBlkFetched qc.objHash = true) → Deliverable c h

end Core

namespace Base

variable (H : BlockData → Hash)

/-! ## Every open delivery waits on something -/

/-- Every open delivery waits on the continuation of its fetch or on a job. -/
def Waits (s : Base) : Prop := ∀ h ∈ s.deliveryWaiting, h ∈ s.conts ∨ h ∈ s.jobs.map Job.hash

theorem mem_asyncDeliverBlk (s : Base) (h : Hash) :
    (∀ x ∈ (s.asyncDeliverBlk h).deliveryWaiting, x ∈ s.deliveryWaiting ∨ x ∈ (s.asyncDeliverBlk h).conts) ∧
      s.conts ⊆ (s.asyncDeliverBlk h).conts := by
  rcases asyncDeliverBlk_cases s h with he | ⟨-, -, he⟩ <;> rw [he]
  · exact ⟨fun x hx => .inl hx, List.Subset.refl _⟩
  · exact ⟨fun x hx => (List.mem_cons.mp hx).elim (fun e => .inr (e ▸ List.mem_cons_self _ _)) .inl,
      List.subset_cons_self _ _⟩

theorem mem_foldl_asyncDeliverBlk : ∀ (l : List Hash) (s : Base),
    (∀ x ∈ (l.foldl asyncDeliverBlk s).deliveryWaiting,
      x ∈ s.deliveryWaiting ∨ x ∈ (l.foldl asyncDeliverBlk s).conts) ∧
      s.conts ⊆ (l.foldl asyncDeliverBlk s).conts
  | [], _ => ⟨fun _ hx => .inl hx, List.Subset.refl _⟩
  | h :: l, s => by
    obtain ⟨hd, hc⟩ := mem_foldl_asyncDeliverBlk l (s.asyncDeliverBlk h)
    obtain ⟨hd', hc'⟩ := mem_asyncDeliverBlk s h
    exact ⟨fun x hx => (hd x hx).elim (fun hx => (hd' x hx).imp id (hc ·)) .inr, fun _ hx => hc (hc' hx)⟩

theorem Waits.asyncDeliverBlk {s : Base} (hw : s.Waits) (h : Hash) : (s.asyncDeliverBlk h).Waits := by
  obtain ⟨hd, hc⟩ := mem_asyncDeliverBlk s h
  intro x hx
  rcases hd x hx with hx | hx
  · exact (hw x hx).imp (hc ·) (by rw [asyncDeliverBlk_jobs]; exact id)
  · exact .inl hx

theorem Waits.fetched {s u : Base} (hw : s.Waits) {h : Hash} (hd : u.deliveryWaiting = s.deliveryWaiting)
    (hc : u.conts = s.conts.erase h) (hj : u.jobs = s.jobs) (l : List Hash) (p : Ptr)
    (v : Option (Option Bool)) :
    { l.foldl Base.asyncDeliverBlk u with
      jobs := ⟨h, p, v⟩ :: (l.foldl Base.asyncDeliverBlk u).jobs }.Waits := by
  obtain ⟨hfd, hfc⟩ := mem_foldl_asyncDeliverBlk l u
  have hfj := (foldl_asyncDeliverBlk u l).2.2
  intro x hx
  rcases hfd x hx with hx | hx
  · rw [hd] at hx
    rcases hw x hx with hx | hx
    · by_cases hxh : x = h
      · exact .inr (List.mem_cons.mpr (.inl hxh))
      · exact .inl (hfc (hc ▸ (List.mem_erase_of_ne hxh).mpr hx))
    · exact .inr (List.mem_cons_of_mem _ (by rwa [hfj, hj]))
  · exact .inl hx

theorem Waits.onFetched {s : Base} (hw : s.Waits) (h : Hash) : (s.onFetched h).Waits := by
  unfold Base.onFetched
  split
  · exact hw
  · dsimp only
    split
    · exact hw.fetched (by simp) (by simp) (by simp) _ _ _
    · exact hw.fetched (by rfl) (by rfl) (by rfl) _ _ _

theorem Waits.step {s s' : Base} (hi : s.OpenInv) (hw : s.Waits) {e : Event} (h : s.step H e = .ok s') :
    s'.Waits := by
  cases moves_of_step H h with
  | propose d => exact Waits.asyncDeliverBlk (s := { s with core := (s.core.addBlk (Block.ofData H d)).1 }) hw _
  | respBlock d => exact hw
  | deliver n => exact hw.asyncDeliverBlk n
  | fetched _ _ => exact hw.onFetched _
  | verified n v =>
    intro x hx
    simpa [List.map_map, Function.comp_def] using hw x hx
  | @handOver j r c _ _ _ =>
    intro x hx
    obtain ⟨hxj, hx⟩ := hi.nodup.mem_erase_iff.mp hx
    refine (hw x hx).imp id fun hm => ?_
    obtain ⟨j', hj', rfl⟩ := List.mem_map.mp hm
    exact List.mem_map_of_mem _ (List.mem_filter.mpr ⟨hj', decide_eq_true hxj⟩)
  | onPropose _ _ | idle => exact hw

theorem resolved_init (id : ReplicaID) (rs : List ReplicaID) (nfaulty : Nat) :
    (Core.init H id rs nfaulty).Resolved := by
  intro h p hs _
  have hw := Core.wf_init H id rs nfaulty
  have hl := Core.linked_init (H := H) id rs nfaulty
  have hp := (hw.roots.storage h p hs).1
  have hb : p = (Core.init H id rs nfaulty).b0 := by
    have h1 : (Core.init H id rs nfaulty).next = 1 ∧ (Core.init H id rs nfaulty).b0 = 0 := by
      unfold Core.init Core.onInit; rw [Core.foldl_addReplica_eq]; exact ⟨rfl, rfl⟩
    rw [h1.2]; rw [h1.1] at hp; exact Nat.lt_one_iff.mp hp
  refine ⟨fun q hq => ?_, fun qc hqc => ?_⟩
  · rw [hb, Core.reachable_b0_parentHashes (fun _ _ h => h) .refl] at hq; cases hq
  · obtain ⟨a, ha, hah⟩ := hl.qcRef p hp (hb ▸ hw.roots.b0_delivered) qc hqc
    have hal := (hw.obj p hp).qcRef_lt a ha
    simp [Core.isBlkFetched, ← hah, hl.stored a hal]

theorem Resolved.step {s s' : Base} (hp : s.PipeInv) (hr : s.core.Resolved) {e : Event}
    (h : s.step H e = .ok s') : s'.core.Resolved := by
  cases moves_of_step H h with
  | propose d => rw [asyncDeliverBlk_core]; exact hr.addBlk hp.wf rfl
  | respBlock d => exact hr.addBlk hp.wf rfl
  | deliver n => rwa [asyncDeliverBlk_core]
  | fetched _ _ => rwa [onFetched_core]
  | handOver _ _ hd => exact hr.onDeliverBlk hd
  | onPropose hps hc => exact (Core.onPropose_frame hp.wf hps hc).choose_spec.2.2 hr
  | verified | idle => exact hr

/-- What a progress argument reads of a reachable pipeline. -/
structure Live (s : Base) : Prop where
  pipe : s.PipeInv
  opened : s.OpenInv
  waits : s.Waits
  nodup : s.fetchWaiting.Nodup
  linked : s.core.Linked H
  resolved : s.core.Resolved

theorem reachable_live {id : ReplicaID} {rs : List ReplicaID} {nfaulty : Nat} {s : Base}
    (hr : Reachable H (init H id rs nfaulty) s) : s.Live H := by
  have hw : s.Waits ∧ s.core.Resolved := by
    induction hr with
    | refl => exact ⟨fun _ h => absurd h (List.not_mem_nil _), resolved_init H id rs nfaulty⟩
    | tail e hr' h ih =>
      exact ⟨ih.1.step H (reachable_openInv H hr') h, Resolved.step H (reachable_pipeInv H hr') ih.2 h⟩
  exact ⟨reachable_pipeInv H hr, reachable_openInv H hr, hw.1, reachable_nodup H hr,
    Core.reachable_linked (fun _ _ h => h) (reachable_core H hr), hw.2⟩

/-! ## Runs -/

theorem run_append (s : Base) (es es' : List Event) :
    s.run H (es ++ es') = (s.run H es).bind fun s' => s'.run H es' := by
  induction es generalizing s with
  | nil => rfl
  | cons e es ih =>
    simp only [List.cons_append, run]
    cases s.step H e with
    | error _ => rfl
    | ok s1 => exact ih s1

theorem coreGrows_step {s s' : Base} (hi : s.PipeInv) {e : Event} (h : s.step H e = .ok s') :
    CoreGrows s.core s'.core := by
  rcases step_call H hi h with hc | ⟨i, hv, hx, -⟩
  · rw [hc]; exact ⟨le_rfl, fun _ _ h => h, fun _ _ => rfl, fun _ _ h => h⟩
  · exact coreGrows_of_keeps (Core.tracks_exec hi.wf hv hx).keeps

theorem coreGrows_run {s s' : Base} (hi : s.PipeInv) :
    ∀ {es : List Event}, s.run H es = .ok s' → CoreGrows s.core s'.core
  | [], h => by cases h; exact ⟨le_rfl, fun _ _ h => h, fun _ _ => rfl, fun _ _ h => h⟩
  | e :: es, h => by
    obtain ⟨s1, h1, h2⟩ := except_bind_eq_ok.mp h
    exact (coreGrows_step H hi h1).trans (coreGrows_run (hi.step H h1) h2)

/-! ## The events that settle one delivery -/

theorem step_respBlock_stored {s : Base} {d : BlockData} {p : Ptr} (hs : s.core.storage (H d) = some p) :
    s.step H (.respBlock d) = .ok { s with fetchWaiting := s.fetchWaiting.erase (H d) } := by
  simp only [step, Core.addBlk_of_some s.core (Block.ofData H d) hs]

theorem run_unwait {s : Base} (hl : s.core.Linked H) (hw : s.core.Wf) :
    ∀ xs : List Hash, (∀ x ∈ xs, s.core.isBlkFetched x = true) →
      ∃ es, s.run H es = .ok { s with fetchWaiting := xs.foldl List.erase s.fetchWaiting }
  | [], _ => ⟨[], rfl⟩
  | x :: xs, hf => by
    obtain ⟨p, hp⟩ := Option.isSome_iff_exists.mp (hf x (List.mem_cons_self _ _))
    obtain ⟨d, rfl⟩ := hl.data_of_stored hw hp
    obtain ⟨es, he⟩ := run_unwait (s := { s with fetchWaiting := s.fetchWaiting.erase (H d) }) hl hw xs
      fun x hx => hf x (List.mem_cons_of_mem _ hx)
    exact ⟨.respBlock d :: es, by rw [run_cons_of_ok H es (step_respBlock_stored H hp)]; exact he⟩

theorem foldl_asyncDeliverBlk_of_delivered (s : Base) :
    ∀ {l : List Hash}, (∀ h ∈ l, s.core.isBlkDelivered h = true) → l.foldl asyncDeliverBlk s = s
  | [], _ => rfl
  | h :: l, hd => by
    rw [List.foldl_cons, show s.asyncDeliverBlk h = s by simp [asyncDeliverBlk, hd h (List.mem_cons_self _ _)]]
    exact foldl_asyncDeliverBlk_of_delivered s fun x hx => hd x (List.mem_cons_of_mem _ hx)

theorem onFetched_of_resolved {s : Base} {h : Hash} {p : Ptr} (hs : s.core.storage h = some p)
    (hp : ∀ q ∈ (s.core.heap p).data.parentHashes, s.core.isBlkDelivered q = true)
    (hq : ∀ qc, (s.core.heap p).data.qc = some qc → s.core.isBlkFetched qc.objHash = true) :
    s.onFetched h = { s with conts := s.conts.erase h,
                             jobs := ⟨h, p, (if p = s.core.b0 then none else some none)⟩ :: s.jobs } := by
  unfold onFetched
  rw [hs]
  dsimp only
  split
  · rename_i qc hc
    have ha : ({ s with conts := s.conts.erase h } : Base).asyncFetchBlk qc.objHash =
        { s with conts := s.conts.erase h } := by simp [asyncFetchBlk, hq qc hc]
    simp only [ha, foldl_asyncDeliverBlk_of_delivered { s with conts := s.conts.erase h } hp]
  · simp only [foldl_asyncDeliverBlk_of_delivered { s with conts := s.conts.erase h } hp]

theorem fetchResolved_of_core {s t : Base} (hc : t.core = s.core) (hf : t.fetchWaiting = s.fetchWaiting)
    (h : Hash) : t.fetchResolved h = s.fetchResolved h := by
  unfold fetchResolved; rw [hc, hf]

theorem ready_of_resolved {s : Base} {j : Job} (hv : j.verify ≠ some none)
    (hp : ∀ h ∈ (s.core.heap j.blk).data.parentHashes, s.core.isBlkDelivered h = true)
    (hq : ∀ qc, (s.core.heap j.blk).data.qc = some qc → s.fetchResolved qc.objHash = true) :
    s.ready j = true := by
  unfold ready
  simp only [Bool.and_eq_true, List.all_eq_true]
  refine ⟨⟨?_, hp⟩, ?_⟩
  · split
    · exact hq _ ‹_›
    · rfl
  · cases hjv : j.verify with
    | none => trivial
    | some o => cases o with
      | none => exact absurd hjv hv
      | some _ => trivial

theorem setVerify_verify_ne (v : Bool) {h : Hash} {j : Job} (hj : j.hash = h) :
    (setVerify v h j).verify ≠ some none := by
  unfold setVerify
  split_ifs with hc
  · simp
  · exact fun he => hc ⟨hj, he⟩

theorem step_vote_stored {s : Base} {h : Hash} (i : ReplicaID)
    (hn : s.core.isBlkDelivered h = false ∨ h ∈ s.deliveryWaiting) (hf : s.core.isBlkFetched h = true) :
    ∃ t, s.step H (.vote ⟨i, h⟩) = .ok t ∧ t.core = s.core ∧ t.fetchWaiting = s.fetchWaiting ∧
      h ∈ t.deliveryWaiting := by
  refine ⟨_, rfl, asyncDeliverBlk_core s h, ?_⟩
  unfold asyncDeliverBlk
  split
  · rename_i hc
    refine ⟨rfl, hn.elim (fun hn => ?_) id⟩
    simpa [hn] using hc
  · exact ⟨by simp [asyncFetchBlk, hf], List.mem_cons_self _ _⟩

theorem step_fetched_resolved {s : Base} (hw : s.Waits) {h : Hash} {p : Ptr} (hd : h ∈ s.deliveryWaiting)
    (hs : s.core.storage h = some p)
    (hp : ∀ q ∈ (s.core.heap p).data.parentHashes, s.core.isBlkDelivered q = true)
    (hq : ∀ qc, (s.core.heap p).data.qc = some qc → s.core.isBlkFetched qc.objHash = true)
    (hf : s.fetchResolved h = true) :
    ∃ t, s.step H (.fetched h) = .ok t ∧ t.core = s.core ∧ t.fetchWaiting = s.fetchWaiting ∧
      h ∈ t.jobs.map Job.hash := by
  refine ⟨_, rfl, ?_⟩
  by_cases hc : h ∈ s.conts
  · rw [if_pos (by simp [hc, hf]), onFetched_of_resolved hs hp hq]
    exact ⟨rfl, rfl, List.mem_cons_self _ _⟩
  · rw [if_neg (by simp [hc])]
    exact ⟨rfl, rfl, (hw h hd).resolve_left hc⟩

theorem run_verified_delivers {s : Base} (hi : s.OpenInv) {h : Hash} {p : Ptr}
    (hj : h ∈ s.jobs.map Job.hash) (hs : s.core.storage h = some p)
    (hne : (s.core.heap p).delivered = false → (s.core.heap p).data.parentHashes ≠ [])
    (hp : ∀ q ∈ (s.core.heap p).data.parentHashes, s.core.isBlkDelivered q = true)
    (hq : ∀ qc, (s.core.heap p).data.qc = some qc → s.fetchResolved qc.objHash = true) :
    ∃ t, s.run H [.verified h true, .allResolved h] = .ok t ∧ t.core.isBlkDelivered h = true ∧
      h ∉ t.deliveryWaiting := by
  obtain ⟨j, hj⟩ : ∃ j, s.jobs.find? (·.hash = h) = some j := by
    obtain ⟨j, hjm, rfl⟩ := List.mem_map.mp hj
    exact Option.isSome_iff_exists.mp (List.find?_isSome.mpr ⟨j, hjm, by simp⟩)
  have hjm := List.mem_of_find?_eq_some hj
  have hjh : j.hash = h := by simpa using List.find?_some hj
  have hjp : j.blk = p := Option.some.inj ((hi.jobs j hjm).2.symm.trans (hjh ▸ hs))
  obtain ⟨r, c', hd, hdel⟩ := Core.onDeliverBlk_of_resolved hne hp
    fun qc hqc => (Bool.and_eq_true _ _ ▸ hq qc hqc).1
  have hrd : s.ready (setVerify true h j) = true := by
    refine ready_of_resolved (setVerify_verify_ne true hjh) ?_ ?_ <;> rw [setVerify_blk, hjp]
    · exact hp
    · exact hq
  have hcomp : ((fun j : Job => decide (j.hash = h)) ∘ setVerify true h) = fun j => decide (j.hash = h) := by
    funext j; simp
  have hrun : s.run H [.verified h true, .allResolved h] =
      ({ s with jobs := s.jobs.map (setVerify true h) } : Base).deliverJob (setVerify true h j) := by
    rw [run_cons_of_ok H (s := s) (e := .verified h true) [.allResolved h] rfl, run_singleton]
    simp only [step, List.find?_map, hcomp, hj, Option.map_some', ready_withJobs, hrd, if_true]
  rw [deliverJob, setVerify_blk, hjp, hd, setVerify_hash, hjh] at hrun
  exact ⟨_, hrun, by simp [Core.isBlkDelivered, (coreGrows_onDeliverBlk hd).storage _ _ hs, hdel],
    hi.nodup.not_mem_erase⟩

theorem run_deliver_unwaited {id : ReplicaID} {rs : List ReplicaID} {nfaulty : Nat} {s : Base}
    (hr : Reachable H (init H id rs nfaulty) s) {h : Hash} {p : Ptr} (hs : s.core.storage h = some p)
    (hn : s.core.isBlkDelivered h = false ∨ h ∈ s.deliveryWaiting)
    (hne : (s.core.heap p).delivered = false → (s.core.heap p).data.parentHashes ≠ [])
    (hp : ∀ q ∈ (s.core.heap p).data.parentHashes, s.core.isBlkDelivered q = true)
    (hq : ∀ qc, (s.core.heap p).data.qc = some qc → s.fetchResolved qc.objHash = true)
    (hf : s.fetchResolved h = true) :
    ∃ s', s.run H [.vote ⟨s.core.id, h⟩, .fetched h, .verified h true, .allResolved h] = .ok s' ∧
      s'.core.isBlkDelivered h = true ∧ h ∉ s'.deliveryWaiting := by
  have hq' : ∀ qc, (s.core.heap p).data.qc = some qc → s.core.isBlkFetched qc.objHash = true :=
    fun qc hqc => (Bool.and_eq_true _ _ ▸ hq qc hqc).1
  obtain ⟨s2, h2, h2c, h2f, h2d⟩ := step_vote_stored H s.core.id hn (Option.isSome_iff_exists.mpr ⟨p, hs⟩)
  have hr2 := hr.tail _ h2
  obtain ⟨s3, h3, h3c, h3f, h3j⟩ := step_fetched_resolved H (reachable_live H hr2).waits h2d
    (by rw [h2c]; exact hs) (by rw [h2c]; exact hp) (by rw [h2c]; exact hq')
    (by rw [fetchResolved_of_core h2c h2f]; exact hf)
  obtain ⟨s', h4, hd⟩ := run_verified_delivers H (reachable_live H (hr2.tail _ h3)).opened h3j
    (by rw [h3c, h2c]; exact hs) (by rw [h3c, h2c]; exact hne) (by rw [h3c, h2c]; exact hp)
    fun qc hqc => by
      rw [fetchResolved_of_core (h3c.trans h2c) (h3f.trans h2f)]
      exact hq qc (by rwa [h3c, h2c] at hqc)
  exact ⟨s', by rw [run_cons_of_ok H _ h2, run_cons_of_ok H _ h3]; exact h4, hd⟩

theorem run_deliver_resolved {id : ReplicaID} {rs : List ReplicaID} {nfaulty : Nat} {s : Base}
    (hr : Reachable H (init H id rs nfaulty) s) {h : Hash} {p : Ptr} (hs : s.core.storage h = some p)
    (hne : (s.core.heap p).delivered = false → (s.core.heap p).data.parentHashes ≠ [])
    (hp : ∀ q ∈ (s.core.heap p).data.parentHashes, s.core.isBlkDelivered q = true)
    (hq : ∀ qc, (s.core.heap p).data.qc = some qc → s.core.isBlkFetched qc.objHash = true) :
    ∃ es s', s.run H es = .ok s' ∧ s'.core.isBlkDelivered h = true ∧ h ∉ s'.deliveryWaiting := by
  by_cases hdone : s.core.isBlkDelivered h = true ∧ h ∉ s.deliveryWaiting
  · exact ⟨[], s, rfl, hdone⟩
  have hn : s.core.isBlkDelivered h = false ∨ h ∈ s.deliveryWaiting := by
    cases hb : s.core.isBlkDelivered h
    · exact .inl rfl
    · exact .inr (not_not.mp fun hm => hdone ⟨hb, hm⟩)
  have hl := reachable_live H hr
  let xs := h :: ((s.core.heap p).data.qc.map (·.objHash)).toList
  obtain ⟨es1, h1⟩ := run_unwait H hl.linked hl.pipe.wf xs fun x hx => by
    rcases List.mem_cons.mp hx with rfl | hx
    · simp [Core.isBlkFetched, hs]
    · obtain ⟨qc, hqc, rfl⟩ : ∃ qc, (s.core.heap p).data.qc = some qc ∧ qc.objHash = x := by
        simpa using hx
      exact hq qc hqc
  have hr1 := reachable_of_run H es1 hr h1
  have hu : ∀ x ∈ xs, s.core.isBlkFetched x = true →
      ({ s with fetchWaiting := xs.foldl List.erase s.fetchWaiting } : Base).fetchResolved x = true :=
    fun x hx hf => by simp [fetchResolved, hf, not_mem_foldl_erase hl.nodup hx]
  obtain ⟨s', h2, hd⟩ := run_deliver_unwaited H hr1 hs hn hne hp
    (fun qc hqc => hu _ (List.mem_cons_of_mem _ (by simp [show (s.core.heap p).data.qc = some qc from hqc]))
      (hq qc hqc))
    (hu h (List.mem_cons_self _ _) (by simp [Core.isBlkFetched, hs]))
  exact ⟨es1 ++ [.vote ⟨s.core.id, h⟩, .fetched h, .verified h true, .allResolved h], s',
    by rw [run_append, h1]; exact h2, hd⟩

/-- A delivered block whose delivery is still open, because the replica proposed it
meanwhile, has its delivery closed by some run: its job is handed on the rejecting
branch. -/
theorem run_settle {id : ReplicaID} {rs : List ReplicaID} {nfaulty : Nat} {s : Base}
    (hr : Reachable H (init H id rs nfaulty) s) {h : Hash} (hd : s.core.isBlkDelivered h = true) :
    ∃ es s', s.run H es = .ok s' ∧ s'.core.isBlkDelivered h = true ∧ h ∉ s'.deliveryWaiting := by
  obtain ⟨p, hs⟩ : ∃ p, s.core.storage h = some p := by
    unfold Core.isBlkDelivered at hd
    split at hd
    · exact ⟨_, ‹_›⟩
    · cases hd
  have hdp : (s.core.heap p).delivered = true := by simpa [Core.isBlkDelivered, hs] using hd
  obtain ⟨hp, hq⟩ := (reachable_live H hr).resolved h p hs hdp
  exact run_deliver_resolved H hr hs (fun hn => absurd hdp (by rw [hn]; decide)) hp hq

/-! ## Progress -/

theorem run_deliver_list {id : ReplicaID} {rs : List ReplicaID} {nfaulty : Nat} {c : Core} :
    ∀ l : List Hash, (∀ q ∈ l, ∀ s, Reachable H (init H id rs nfaulty) s → CoreGrows c s.core →
      ∃ es s', s.run H es = .ok s' ∧ s'.core.isBlkDelivered q = true) →
    ∀ s, Reachable H (init H id rs nfaulty) s → CoreGrows c s.core →
      ∃ es s', s.run H es = .ok s' ∧ ∀ q ∈ l, s'.core.isBlkDelivered q = true
  | [], _, s, _, _ => ⟨[], s, rfl, fun _ h => absurd h (List.not_mem_nil _)⟩
  | q :: l, ih, s, hr, hg => by
    obtain ⟨es1, s1, h1, hd1⟩ := ih q (List.mem_cons_self _ _) s hr hg
    have hr1 := reachable_of_run H es1 hr h1
    obtain ⟨es2, s2, h2, hd2⟩ := run_deliver_list l (fun q hq => ih q (List.mem_cons_of_mem _ hq)) s1 hr1
      (hg.trans (coreGrows_run H (reachable_pipeInv H hr) h1))
    refine ⟨es1 ++ es2, s2, by rw [run_append, h1]; exact h2, fun x hx => ?_⟩
    rcases List.mem_cons.mp hx with rfl | hx
    · exact (coreGrows_run H (reachable_pipeInv H hr1) h2).isBlkDelivered (reachable_pipeInv H hr1).wf hd1
    · exact hd2 x hx

/-- A block deliverable from what a core stores is delivered by some run from every
reachable pipeline whose core has grown from it. -/
theorem run_deliver_deliverable {id : ReplicaID} {rs : List ReplicaID} {nfaulty : Nat} {c : Core} (hc : c.Wf)
    {h : Hash} (hd : c.Deliverable h) :
    ∀ s, Reachable H (init H id rs nfaulty) s → CoreGrows c s.core →
      ∃ es s', s.run H es = .ok s' ∧ s'.core.isBlkDelivered h = true := by
  induction hd with
  | delivered hd => exact fun s _ hg => ⟨[], s, rfl, hg.isBlkDelivered hc hd⟩
  | @stored h p hs hne _ hq ih =>
    intro s hr hg
    obtain ⟨es1, s1, h1, hd1⟩ := run_deliver_list H _ ih s hr hg
    have hr1 := reachable_of_run H es1 hr h1
    have hg1 := hg.trans (coreGrows_run H (reachable_pipeInv H hr) h1)
    have hpc : p < c.next := (hc.roots.storage h p hs).1
    obtain ⟨es2, s2, h2, hd2, -⟩ := run_deliver_resolved H hr1 (hg1.storage _ _ hs)
      (fun _ => by rw [hg1.data p hpc]; exact hne) (by rw [hg1.data p hpc]; exact hd1)
      (by rw [hg1.data p hpc]; exact fun qc hqc => hg1.isBlkFetched (hq qc hqc))
    exact ⟨es1 ++ es2, s2, by rw [run_append, h1]; exact h2, hd2⟩

end Base

end HotStuff
