import HotStuff.Linked

/-!
# The delivery pipeline of `HotStuffBase`

`async_deliver_blk(h)` opens a delivery entry for `h`, fetches `h`, and then waits on
`promise::all` of the fetch of the certified block, the deliveries of the parents and
`blk->verify(..)`, before `on_deliver_blk(blk)` hands the block to the core. Each promise
is modelled by the state it waits for, and each resolution is an event the environment
may schedule once it is enabled. Message handlers parse blocks into storage and open
deliveries, and the pacemaker's `on_propose` is an event too. `promise::all` ignores the
values it waits on, so a block whose `verify` gave `false` is delivered as well.
-/

namespace HotStuff

namespace Core

def isBlkFetched (s : Core) (h : Hash) : Bool := (s.storage h).isSome

def isBlkDelivered (s : Core) (h : Hash) : Bool :=
  match s.storage h with
  | some p => (s.heap p).delivered
  | none => false

end Core

/-- The continuation of `async_deliver_blk(h)` after the fetch of `h`: the block object
the fetch gave and how its `verify` promise stands (`none` for genesis, which is not
verified; `some none` while pending). -/
structure Job where
  hash : Hash
  blk : Ptr
  verify : Option (Option Bool)
deriving DecidableEq, Repr

structure Base where
  core : Core
  /-- `blk_fetch_waiting`. -/
  fetchWaiting : List Hash
  /-- Deliveries whose fetch has not resolved yet: their `.then` continuation waits. -/
  conts : List Hash
  /-- `blk_delivery_waiting`. -/
  deliveryWaiting : List Hash
  jobs : List Job
  /-- Every block handed to `HotStuffCore::on_deliver_blk`, with the state of its
  verification at that moment. -/
  handed : List (Ptr × Option (Option Bool))

/-- What the environment of `HotStuffBase` does: messages arrive, and promises resolve. -/
inductive Event
  /-- `propose_handler`: the proposal's block is parsed into storage and delivered. -/
  | propose (d : BlockData)
  /-- `resp_blk_handler`: a fetched block is parsed into storage and `on_fetch_blk` runs. -/
  | respBlock (d : BlockData)
  /-- `vote_handler`: the delivery of the block a vote is for. -/
  | vote (v : Vote)
  /-- `notify_handler`: the delivery of the named block, then `verify_notify`. -/
  | notify (h : Hash)
  /-- The fetch of a delivery resolved: the continuation of `async_deliver_blk(h)` runs. -/
  | fetched (h : Hash)
  /-- The `verify` promise of the block of the delivery of `h` resolves with `v`. -/
  | verified (h : Hash) (v : Bool)
  /-- `promise::all` of the delivery of `h` resolved: `on_deliver_blk`. -/
  | allResolved (h : Hash)
  /-- The continuation of `pmaker->beat()` when the beat names this replica:
  `on_propose(cmds, pmaker->get_parents())`. -/
  | onPropose (cmds : List Hash) (parents : List Ptr) (extra : List Nat)

namespace Base

variable (H : BlockData → Hash)

def init (id : ReplicaID) (replicas : List ReplicaID) (nfaulty : Nat) : Base :=
  ⟨Core.init H id replicas nfaulty, [], [], [], [], []⟩

/-- The fetch of `h` has resolved: the block is stored and `on_fetch_blk` has run for it,
or it was stored when the fetch was asked for. -/
def fetchResolved (s : Base) (h : Hash) : Bool := s.core.isBlkFetched h && !(s.fetchWaiting.contains h)

def asyncFetchBlk (s : Base) (h : Hash) : Base :=
  if s.core.isBlkFetched h || s.fetchWaiting.contains h then s
  else { s with fetchWaiting := h :: s.fetchWaiting }

/-- `async_deliver_blk(h)`: nothing for a delivered block or a delivery already open;
otherwise a delivery entry, the fetch, and the continuation waiting on it. -/
def asyncDeliverBlk (s : Base) (h : Hash) : Base :=
  if s.core.isBlkDelivered h || s.deliveryWaiting.contains h then s
  else { s.asyncFetchBlk h with deliveryWaiting := h :: s.deliveryWaiting, conts := h :: s.conts }

/-- The `.then` continuation of `async_deliver_blk(h)`: the fetch of the certified block,
the deliveries of the parents, and the job waiting on them and on `verify`. -/
def onFetched (s : Base) (h : Hash) : Base :=
  match s.core.storage h with
  | none => s
  | some p =>
    let blk := s.core.heap p
    let s := { s with conts := s.conts.erase h }
    let s := match blk.data.qc with
      | some qc => s.asyncFetchBlk qc.objHash
      | none => s
    let s := blk.data.parentHashes.foldl asyncDeliverBlk s
    { s with jobs := ⟨h, p, if p = s.core.b0 then none else some none⟩ :: s.jobs }

def ready (s : Base) (j : Job) : Bool :=
  (match (s.core.heap j.blk).data.qc with
    | some qc => s.fetchResolved qc.objHash
    | none => true) &&
  (s.core.heap j.blk).data.parentHashes.all s.core.isBlkDelivered &&
  (match j.verify with
    | some none => false
    | _ => true)

def setVerify (v : Bool) (h : Hash) (j : Job) : Job :=
  if j.hash = h ∧ j.verify = some none then { j with verify := some (some v) } else j

/-- `HotStuffBase::on_deliver_blk(blk)` for the job of `h`: the core delivers the block
and the delivery entry is settled, resolved or rejected. -/
def deliverJob (s : Base) (j : Job) : Except Err Base :=
  (s.core.onDeliverBlk j.blk).map fun r =>
    { s with core := r.2, jobs := s.jobs.filter (·.hash ≠ j.hash),
             deliveryWaiting := s.deliveryWaiting.erase j.hash,
             handed := s.handed ++ [(j.blk, j.verify)] }

/-- `verify_notify`: `storage->find_blk(notify.blk_hash)->get_decision()`. -/
def verifyNotify (s : Base) (h : Hash) : Except Err Base :=
  match s.core.storage h with
  | some _ => .ok s
  | none => .error .nullDeref

/-- One event. An event whose promise has not resolved changes nothing. The pacemaker
hands `on_propose` blocks that exist. -/
def step (s : Base) : Event → Except Err Base
  | .propose d => .ok ({ s with core := (s.core.addBlk (Block.ofData H d)).1 }.asyncDeliverBlk (H d))
  | .respBlock d =>
    .ok { s with core := (s.core.addBlk (Block.ofData H d)).1,
                 fetchWaiting := s.fetchWaiting.erase (H d) }
  | .vote v => .ok (s.asyncDeliverBlk v.blkHash)
  | .notify h => (s.asyncDeliverBlk h).verifyNotify h
  | .fetched h =>
    .ok (if s.conts.contains h && s.fetchResolved h then s.onFetched h else s)
  | .verified h v => .ok { s with jobs := s.jobs.map (setVerify v h) }
  | .allResolved h =>
    match s.jobs.find? (·.hash = h) with
    | some j => if s.ready j then s.deliverJob j else .ok s
    | none => .ok s
  | .onPropose cmds parents extra =>
    if ∀ p ∈ parents, p < s.core.next then
      (s.core.onPropose H cmds parents extra).map fun c => { s with core := c }
    else .error .nullDeref

inductive Reachable (s0 : Base) : Base → Prop
  | refl : Reachable s0 s0
  | tail {s s' : Base} (e : Event) : Reachable s0 s → s.step H e = .ok s' → Reachable s0 s'

def run (s : Base) : List Event → Except Err Base
  | [] => .ok s
  | e :: es => (s.step H e).bind fun s' => run s' es

theorem reachable_of_run {s0 s s' : Base} (es : List Event) (h0 : Reachable H s0 s)
    (h : run H s es = .ok s') : Reachable H s0 s' := by
  induction es generalizing s with
  | nil => cases h; exact h0
  | cons e es ih =>
    obtain ⟨s1, h1, h2⟩ := except_bind_eq_ok.mp h
    exact ih (h0.tail e h1) h2

theorem run_singleton (s : Base) (e : Event) : s.run H [e] = s.step H e := by
  simp only [run]; cases s.step H e <;> rfl

theorem run_cons_of_ok {s s' : Base} {e : Event} (es : List Event) (h : s.step H e = .ok s') :
    s.run H (e :: es) = s'.run H es := by
  simp only [run, h]; rfl

/-- What one event that returns does: it parses a proposed block into storage and opens
its delivery, stores a fetched block and settles its fetch, opens a delivery, runs the
continuation of a resolved fetch, records a verification, hands a ready job to the core,
proposes, or changes nothing. -/
inductive Moves (s : Base) : Base → Prop
  | propose (d : BlockData) :
      Moves s (({ s with core := (s.core.addBlk (Block.ofData H d)).1 } : Base).asyncDeliverBlk (H d))
  | respBlock (d : BlockData) :
      Moves s { s with core := (s.core.addBlk (Block.ofData H d)).1,
                       fetchWaiting := s.fetchWaiting.erase (H d) }
  | deliver (h : Hash) : Moves s (s.asyncDeliverBlk h)
  | fetched {h : Hash} : h ∈ s.conts → s.fetchResolved h = true → Moves s (s.onFetched h)
  | verified (h : Hash) (v : Bool) : Moves s { s with jobs := s.jobs.map (setVerify v h) }
  | handOver {j : Job} {r : Bool} {c : Core} : j ∈ s.jobs → s.ready j = true →
      s.core.onDeliverBlk j.blk = .ok (r, c) →
      Moves s { s with core := c, jobs := s.jobs.filter (·.hash ≠ j.hash),
                       deliveryWaiting := s.deliveryWaiting.erase j.hash,
                       handed := s.handed ++ [(j.blk, j.verify)] }
  | onPropose {cmds : List Hash} {parents : List Ptr} {extra : List Nat} {c : Core} :
      (∀ p ∈ parents, p < s.core.next) → s.core.onPropose H cmds parents extra = .ok c →
      Moves s { s with core := c }
  | idle : Moves s s

theorem moves_of_step {s s' : Base} {e : Event} (h : s.step H e = .ok s') : Moves H s s' := by
  cases e with
  | propose d => cases h; exact .propose d
  | respBlock d => cases h; exact .respBlock d
  | vote v => cases h; exact .deliver _
  | notify n =>
    have h' : (s.asyncDeliverBlk n).verifyNotify n = .ok s' := h
    unfold verifyNotify at h'
    split at h'
    · cases h'; exact .deliver n
    · cases h'
  | fetched n =>
    cases h
    split
    · rename_i hc
      simp only [Bool.and_eq_true, List.elem_eq_mem, decide_eq_true_eq] at hc
      exact .fetched hc.1 hc.2
    · exact .idle
  | verified n v => cases h; exact .verified n v
  | allResolved n =>
    simp only [Base.step] at h
    split at h
    · rename_i j hj
      split_ifs at h with hrd
      · obtain ⟨⟨r, c⟩, hd, rfl⟩ := except_map_eq_ok.mp h
        exact .handOver (List.mem_of_find?_eq_some hj) hrd hd
      · cases h; exact .idle
    · cases h; exact .idle
  | onPropose cmds parents extra =>
    simp only [Base.step] at h
    split_ifs at h with hps
    obtain ⟨c, hc, rfl⟩ := except_map_eq_ok.mp h
    exact .onPropose hps hc

/-! ## What the pipeline reads from the core -/

/-- What the pipeline's writes to the core keep: stored hashes stay stored, objects keep
their content, and delivered blocks stay delivered. -/
structure CoreGrows (c c' : Core) : Prop where
  next_le : c.next ≤ c'.next
  storage : ∀ h p, c.storage h = some p → c'.storage h = some p
  data : ∀ p < c.next, (c'.heap p).data = (c.heap p).data
  delivered : ∀ p < c.next, (c.heap p).delivered = true → (c'.heap p).delivered = true

theorem CoreGrows.trans {c1 c2 c3 : Core} (h1 : CoreGrows c1 c2) (h2 : CoreGrows c2 c3) :
    CoreGrows c1 c3 :=
  ⟨h1.next_le.trans h2.next_le, fun h p hp => h2.storage h p (h1.storage h p hp),
    fun p hp => (h2.data p (lt_of_lt_of_le hp h1.next_le)).trans (h1.data p hp),
    fun p hp hd => h2.delivered p (lt_of_lt_of_le hp h1.next_le) (h1.delivered p hp hd)⟩

theorem coreGrows_of_keeps {c c' : Core} (hk : Core.Keeps c c') : CoreGrows c c' :=
  ⟨hk.next_le, hk.storage, fun p hp => (hk.obj p hp).2.1, fun p hp hd => (hk.frozen p hp hd).1⟩

theorem coreGrows_addBlk (c : Core) (x : Block) : CoreGrows c (c.addBlk x).1 := by
  cases hs : c.storage x.hash with
  | some p => rw [Core.addBlk_of_some c x hs]; exact ⟨le_rfl, fun _ _ h => h, fun _ _ => rfl, fun _ _ h => h⟩
  | none =>
    rw [Core.addBlk_of_none c x hs]
    refine ⟨Nat.le_succ _, fun h p hp => ?_, fun p hp => by simp [hp.ne], fun p hp hd => by simp [hp.ne, hd]⟩
    have hne : h ≠ x.hash := by rintro rfl; rw [hs] at hp; cases hp
    simp [hne, hp]

theorem coreGrows_onDeliverBlk {c c' : Core} {b : Ptr} {r : Bool} (h : c.onDeliverBlk b = .ok (r, c')) :
    CoreGrows c c' := by
  rcases Core.onDeliverBlk_cases h with ⟨-, -, rfl⟩ | ⟨-, -, p0, rest, qcRef, -, -, rfl⟩
  · exact ⟨le_rfl, fun _ _ h => h, fun _ _ => rfl, fun _ _ h => h⟩
  · refine ⟨le_rfl, fun _ _ h => h, fun p _ => ?_, fun p _ hd => ?_⟩
    · by_cases hpb : p = b
      · subst hpb; simp [Core.setDelivered]
      · simp [hpb]
    · by_cases hpb : p = b
      · subst hpb; simp [Core.setDelivered]
      · simp [hpb, hd]

theorem CoreGrows.isBlkDelivered {c c' : Core} (hg : CoreGrows c c') (hw : c.Wf) {h : Hash}
    (hd : c.isBlkDelivered h = true) : c'.isBlkDelivered h = true := by
  unfold Core.isBlkDelivered at hd ⊢
  cases hs : c.storage h with
  | none => rw [hs] at hd; cases hd
  | some p =>
    rw [hs] at hd
    rw [hg.storage h p hs]
    exact hg.delivered p (hw.roots.storage h p hs).1 hd

theorem CoreGrows.isBlkFetched {c c' : Core} (hg : CoreGrows c c') {h : Hash}
    (hf : c.isBlkFetched h = true) : c'.isBlkFetched h = true := by
  unfold Core.isBlkFetched at hf ⊢
  obtain ⟨p, hp⟩ := Option.isSome_iff_exists.mp hf
  rw [hg.storage h p hp]; rfl

/-! ## The pipeline invariant -/

/-- What every run of the pipeline keeps: the core is well-formed, jobs hold stored
objects, and every block handed to the core had its verification resolved, its parents
delivered and the block its certificate names fetched. -/
structure PipeInv (s : Base) : Prop where
  wf : s.core.Wf
  jobs_lt : ∀ j ∈ s.jobs, j.blk < s.core.next
  handed : ∀ x ∈ s.handed, x.1 < s.core.next ∧ x.2 ≠ some none ∧
    (s.core.heap x.1).delivered = true ∧
    (∀ h ∈ (s.core.heap x.1).data.parentHashes, s.core.isBlkDelivered h = true) ∧
    ∀ qc, (s.core.heap x.1).data.qc = some qc → s.core.isBlkFetched qc.objHash = true

theorem pipeInv_init (id : ReplicaID) (rs : List ReplicaID) (nfaulty : Nat) :
    (init H id rs nfaulty).PipeInv :=
  ⟨Core.wf_init H id rs nfaulty, fun _ h => by simp [init] at h, fun _ h => by simp [init] at h⟩

theorem PipeInv.of_frame {s s' : Base} (hi : s.PipeInv) (hc : s'.core = s.core)
    (hh : s'.handed = s.handed) (hj : ∀ j ∈ s'.jobs, j.blk < s.core.next) : s'.PipeInv :=
  ⟨hc ▸ hi.wf, fun j hj' => hc ▸ hj j hj', fun x hx => hc ▸ hi.handed x (hh ▸ hx)⟩

theorem PipeInv.grow {s : Base} (hi : s.PipeInv) {c : Core} (hg : CoreGrows s.core c) (hw : c.Wf) :
    { s with core := c }.PipeInv := by
  refine ⟨hw, fun j hj => lt_of_lt_of_le (hi.jobs_lt j hj) hg.next_le, fun x hx => ?_⟩
  obtain ⟨hlt, hv, hd, hp, hq⟩ := hi.handed x hx
  refine ⟨lt_of_lt_of_le hlt hg.next_le, hv, hg.delivered _ hlt hd, ?_, ?_⟩
  · rw [hg.data _ hlt]
    exact fun h hh => hg.isBlkDelivered hi.wf (hp h hh)
  · rw [hg.data _ hlt]
    exact fun qc hqc => hg.isBlkFetched (hq qc hqc)

@[simp] theorem setVerify_hash (v : Bool) (h : Hash) (j : Job) : (setVerify v h j).hash = j.hash := by
  unfold setVerify; split <;> rfl

@[simp] theorem setVerify_blk (v : Bool) (h : Hash) (j : Job) : (setVerify v h j).blk = j.blk := by
  unfold setVerify; split <;> rfl

theorem ready_spec {s : Base} {j : Job} (h : s.ready j = true) :
    j.verify ≠ some none ∧ (∀ h ∈ (s.core.heap j.blk).data.parentHashes, s.core.isBlkDelivered h = true) ∧
      ∀ qc, (s.core.heap j.blk).data.qc = some qc → s.core.isBlkFetched qc.objHash = true := by
  unfold ready at h
  simp only [Bool.and_eq_true, List.all_eq_true] at h
  obtain ⟨⟨hq, hp⟩, hv⟩ := h
  refine ⟨fun hjv => (by rw [hjv] at hv; cases hv), hp, fun qc hqc => ?_⟩
  rw [hqc] at hq
  exact (Bool.and_eq_true _ _ ▸ hq).1

theorem Core.onDeliverBlk_delivered {c c' : Core} {b : Ptr} {r : Bool}
    (h : c.onDeliverBlk b = .ok (r, c')) : (c'.heap b).delivered = true := by
  rcases Core.onDeliverBlk_cases h with ⟨hd, -, rfl⟩ | ⟨-, -, _, _, _, -, -, rfl⟩
  · exact hd
  · simp [Core.setDelivered]

@[simp] theorem asyncFetchBlk_core (s : Base) (h : Hash) : (s.asyncFetchBlk h).core = s.core := by
  unfold asyncFetchBlk; split <;> rfl

@[simp] theorem asyncFetchBlk_handed (s : Base) (h : Hash) : (s.asyncFetchBlk h).handed = s.handed := by
  unfold asyncFetchBlk; split <;> rfl

@[simp] theorem asyncFetchBlk_jobs (s : Base) (h : Hash) : (s.asyncFetchBlk h).jobs = s.jobs := by
  unfold asyncFetchBlk; split <;> rfl

@[simp] theorem asyncDeliverBlk_core (s : Base) (h : Hash) : (s.asyncDeliverBlk h).core = s.core := by
  unfold asyncDeliverBlk; split <;> simp

@[simp] theorem asyncDeliverBlk_handed (s : Base) (h : Hash) :
    (s.asyncDeliverBlk h).handed = s.handed := by
  unfold asyncDeliverBlk; split <;> simp

@[simp] theorem asyncDeliverBlk_jobs (s : Base) (h : Hash) : (s.asyncDeliverBlk h).jobs = s.jobs := by
  unfold asyncDeliverBlk; split <;> simp

theorem foldl_asyncDeliverBlk (s : Base) (l : List Hash) :
    (l.foldl asyncDeliverBlk s).core = s.core ∧ (l.foldl asyncDeliverBlk s).handed = s.handed ∧
      (l.foldl asyncDeliverBlk s).jobs = s.jobs := by
  induction l generalizing s with
  | nil => exact ⟨rfl, rfl, rfl⟩
  | cons h l ih =>
    obtain ⟨h1, h2, h3⟩ := ih (s.asyncDeliverBlk h)
    exact ⟨h1.trans (by simp), h2.trans (by simp), h3.trans (by simp)⟩

theorem PipeInv.onFetched {s : Base} (hi : s.PipeInv) (h : Hash) : (s.onFetched h).PipeInv := by
  unfold Base.onFetched
  split
  · exact hi
  · rename_i p hp
    obtain ⟨h1, h2, h3⟩ := foldl_asyncDeliverBlk
      (match (s.core.heap p).data.qc with
        | some qc => { s with conts := s.conts.erase h }.asyncFetchBlk qc.objHash
        | none => { s with conts := s.conts.erase h }) (s.core.heap p).data.parentHashes
    have hq : ∀ t : Base, t = (match (s.core.heap p).data.qc with
        | some qc => { s with conts := s.conts.erase h }.asyncFetchBlk qc.objHash
        | none => { s with conts := s.conts.erase h }) →
        t.core = s.core ∧ t.handed = s.handed ∧ t.jobs = s.jobs := by
      rintro t rfl; split <;> simp
    obtain ⟨q1, q2, q3⟩ := hq _ rfl
    refine hi.of_frame (h1.trans q1) (h2.trans q2) fun j hj => ?_
    rcases List.mem_cons.mp hj with rfl | hj
    · exact (hi.wf.roots.storage h _ hp).1
    · exact hi.jobs_lt j (by rwa [h3, q3] at hj)

theorem PipeInv.asyncDeliverBlk {s : Base} (hi : s.PipeInv) (h : Hash) : (s.asyncDeliverBlk h).PipeInv :=
  hi.of_frame (by simp) (by simp) fun j hj => hi.jobs_lt j (by simpa using hj)

theorem PipeInv.step {s s' : Base} (hi : s.PipeInv) {e : Event} (h : s.step H e = .ok s') :
    s'.PipeInv := by
  cases moves_of_step H h with
  | propose d =>
    exact (hi.grow (coreGrows_addBlk s.core (Block.ofData H d)) (hi.wf.addBlk_ofData H d)).asyncDeliverBlk _
  | respBlock d =>
    have hg := hi.grow (coreGrows_addBlk s.core (Block.ofData H d)) (hi.wf.addBlk_ofData H d)
    exact hg.of_frame rfl rfl hg.jobs_lt
  | deliver n => exact hi.asyncDeliverBlk n
  | fetched _ _ => exact hi.onFetched _
  | verified n v =>
    refine hi.of_frame rfl rfl fun j hj => ?_
    obtain ⟨j0, hj0, rfl⟩ := List.mem_map.mp hj
    rw [setVerify_blk]; exact hi.jobs_lt j0 hj0
  | @handOver j r c hjm hrd hd =>
    have hb := hi.jobs_lt j hjm
    have hg := coreGrows_onDeliverBlk hd
    have hi' := hi.grow hg (hi.wf.onDeliverBlk hb hd)
    refine ⟨hi'.wf, fun j' hj' => hi'.jobs_lt j' (List.mem_of_mem_filter hj'), fun x hx => ?_⟩
    rcases List.mem_append.mp hx with hx | hx
    · exact hi'.handed x hx
    · obtain rfl := List.mem_singleton.mp hx
      obtain ⟨hv, hp, hq⟩ := ready_spec hrd
      refine ⟨lt_of_lt_of_le hb hg.next_le, hv, Core.onDeliverBlk_delivered hd, ?_, ?_⟩ <;> rw [hg.data _ hb]
      · exact fun h hh => hg.isBlkDelivered hi.wf (hp h hh)
      · exact fun qc hqc => hg.isBlkFetched (hq qc hqc)
  | onPropose hps hc =>
    exact hi.grow (coreGrows_of_keeps (Core.tracks_onPropose hi.wf hc).keeps) (hi.wf.onPropose hps hc)
  | idle => exact hi

theorem reachable_pipeInv {id : ReplicaID} {rs : List ReplicaID} {nfaulty : Nat} {s : Base}
    (hr : Reachable H (init H id rs nfaulty) s) : s.PipeInv := by
  induction hr with
  | refl => exact pipeInv_init H id rs nfaulty
  | tail e _ h ih => exact ih.step H h

/-! ## The value of `verify` -/

/-- `ready` does not read the jobs. -/
@[simp] theorem ready_withJobs (s : Base) (l : List Job) (j : Job) :
    { s with jobs := l }.ready j = s.ready j :=
  rfl

/-- A block whose verification resolves to `false` is handed to the core, which delivers
it and returns `true`, so the delivery entry is resolved with it. -/
theorem unverified_block_delivered :
    ∃ s s', Reachable extraHash (init extraHash 0 [0, 1, 2, 3] 1) s ∧
      s.deliveryWaiting = [1] ∧ s.jobs = [⟨1, 1, some (some false)⟩] ∧
      s.step extraHash (.allResolved 1) = .ok s' ∧ s.core.onDeliverBlk 1 = .ok (true, s'.core) ∧
      (s'.core.heap 1).delivered = true ∧ s'.deliveryWaiting = [] ∧ s'.handed = [(1, some (some false))] :=
  ⟨_, _, reachable_of_run extraHash [.propose ⟨[0], [10], none, [1]⟩, .fetched 1, .verified 1 false]
    .refl rfl, rfl, rfl, rfl, rfl, rfl, rfl, rfl⟩

/-! ## Messages that end the replica -/

/-- A `Notify` for a hash not in storage makes `verify_notify` dereference the null block
`find_blk` returns; a proposal of a block without parents, once its promises resolve,
makes `on_deliver_blk` read `parents[0]` of an empty list. -/
theorem peer_messages_crash :
    (init extraHash 0 [0, 1, 2, 3] 1).step extraHash (.notify 5) = .error .nullDeref ∧
    ∃ s, Reachable extraHash (init extraHash 0 [0, 1, 2, 3] 1) s ∧
      s.step extraHash (.allResolved 1) = .error .emptyParents :=
  ⟨rfl, _, reachable_of_run extraHash [.propose ⟨[], [10], none, [1]⟩, .fetched 1, .verified 1 true]
    .refl rfl, rfl⟩

end Base

end HotStuff
