import HotStuff.CommitLog
import HotStuff.Replica

/-!
# Decision callbacks

The handler on `cmd_pending` registers the callback of each buffered command in
`decision_waiting`, unless one waits on its hash already; `do_decide` calls the callback
waiting on a decided record's command and erases its entry. The core reads nothing
`do_decide` writes, so the layer runs it on the records a call emitted. Along every run a
callback is called only for its own command with a record the core decided, and, counted
with multiplicity, the callbacks called, waiting and queued are among the submissions.
-/

namespace HotStuff

/-- The command pipeline with `do_decide` on the records the core decides. -/
structure Decisions where
  cmds : Commands
  /-- The callbacks `do_decide` called, each with the record it got, in order. -/
  answered : List (Nat × Finality)
  /-- Every `(cmd_hash, callback)` passed to `exec_command`, in order. -/
  submitted : List (Hash × Nat)

namespace Decisions

variable (H : BlockData → Hash)

def init (id : ReplicaID) (replicas : List ReplicaID) (nfaulty blkSize : Nat) : Decisions :=
  ⟨Commands.init H id replicas nfaulty blkSize, [], []⟩

/-- `HotStuffBase::do_decide(fin)`: the callback waiting on the record's command, if there
is one, is called with the record and its entry of `decision_waiting` erased. -/
def doDecide (s : Decisions) (fin : Finality) : Decisions :=
  match s.cmds.decisionWaiting.lookup fin.cmdHash with
  | some cb =>
    { s with cmds := { s.cmds with decisionWaiting := s.cmds.decisionWaiting.eraseP (·.1 = fin.cmdHash) },
             answered := s.answered ++ [(cb, fin)] }
  | none => s

def submit (s : Decisions) : CmdEvent → List (Hash × Nat)
  | .execCommand cmdHash callback => s.submitted ++ [(cmdHash, callback)]
  | _ => s.submitted

def step (s : Decisions) (e : CmdEvent) : Except Err Decisions :=
  (s.cmds.step H e).map fun c =>
    ((c.core.out.drop s.cmds.core.out.length).filterMap Effect.decideFin).foldl doDecide
      ⟨c, s.answered, s.submit e⟩

inductive Reachable (s0 : Decisions) : Decisions → Prop
  | refl : Reachable s0 s0
  | tail {s s' : Decisions} (e : CmdEvent) : Reachable s0 s → e.Valid s.cmds → s.step H e = .ok s' →
      Reachable s0 s'

def run (s : Decisions) : List CmdEvent → Option Decisions
  | [] => some s
  | e :: es =>
    if e.Valid s.cmds then
      match s.step H e with
      | .ok s' => run s' es
      | .error _ => none
    else none

theorem reachable_of_run {s0 : Decisions} : ∀ {s : Decisions} (es : List CmdEvent) {s' : Decisions},
    Reachable H s0 s → run H s es = some s' → Reachable H s0 s'
  | _, [], _, hr, h => by cases h; exact hr
  | s, e :: es, s', hr, h => by
    unfold Decisions.run at h
    split_ifs at h with hv
    split at h
    · exact reachable_of_run es (hr.tail e hv ‹_›) h
    · cases h

/-! ## `decision_waiting` -/

theorem mem_of_lookup_eq_some {l : List (Hash × Nat)} {k : Hash} {v : Nat} (h : l.lookup k = some v) :
    (k, v) ∈ l := by
  obtain ⟨l₁, l₂, rfl, -⟩ := List.lookup_eq_some_iff.mp h
  exact List.mem_append_right _ (List.mem_cons_self _ _)

theorem lookup_isSome_of_mem {l : List (Hash × Nat)} {k : Hash} (h : k ∈ l.map Prod.fst) :
    (l.lookup k).isSome = true :=
  let ⟨p, hp, he⟩ := List.mem_map.mp h
  List.lookup_isSome_iff.mpr ⟨p, hp, beq_iff_eq.mpr he.symm⟩

@[simp] theorem doDecide_core (s : Decisions) (fin : Finality) : (s.doDecide fin).cmds.core = s.cmds.core := by
  unfold doDecide; split <;> rfl

@[simp] theorem cut_cmdPending (s : Commands) : s.cut.cmdPending = s.cmdPending := by
  unfold Commands.cut; split <;> rfl

@[simp] theorem cut_decisionWaiting (s : Commands) : s.cut.decisionWaiting = s.decisionWaiting := by
  unfold Commands.cut; split <;> rfl

/-- What every reachable state satisfies: the core is well-formed, the queue and
`decision_waiting` hold submitted commands, one callback per command, and every callback
called was submitted for the command of its record, which the core decided. -/
structure Inv (s : Decisions) : Prop where
  wf : s.cmds.core.Wf
  pending : ∀ x ∈ s.cmds.cmdPending, x ∈ s.submitted
  waiting : ∀ x ∈ s.cmds.decisionWaiting, x ∈ s.submitted
  keys : (s.cmds.decisionWaiting.map Prod.fst).Nodup
  answered : ∀ x ∈ s.answered, (x.2.cmdHash, x.1) ∈ s.submitted ∧ x.2 ∈ s.cmds.core.decides

theorem Inv.doDecide {s : Decisions} (hi : s.Inv) {fin : Finality} (hf : fin ∈ s.cmds.core.decides) :
    (s.doDecide fin).Inv := by
  unfold Decisions.doDecide
  split
  · rename_i cb hcb
    have he := List.eraseP_sublist (p := fun x : Hash × Nat => decide (x.1 = fin.cmdHash))
      s.cmds.decisionWaiting
    refine ⟨hi.wf, hi.pending, fun x hx => hi.waiting x (he.subset hx), hi.keys.sublist (he.map _),
      fun x hx => ?_⟩
    rcases List.mem_append.mp hx with hx | hx
    · exact hi.answered x hx
    · obtain rfl := List.mem_singleton.mp hx
      exact ⟨hi.waiting _ (mem_of_lookup_eq_some hcb), hf⟩
  · exact hi

theorem Inv.foldl_doDecide : ∀ (fins : List Finality) {s : Decisions}, s.Inv →
    (∀ f ∈ fins, f ∈ s.cmds.core.decides) → (fins.foldl Decisions.doDecide s).Inv
  | [], _, hi, _ => hi
  | f :: fins, s, hi, hf => Inv.foldl_doDecide fins (hi.doDecide (hf f (List.mem_cons_self _ _)))
      fun g hg => by rw [doDecide_core]; exact hf g (List.mem_cons_of_mem _ hg)

theorem books_step {s : Decisions} (hp : ∀ x ∈ s.cmds.cmdPending, x ∈ s.submitted)
    (hw : ∀ x ∈ s.cmds.decisionWaiting, x ∈ s.submitted) (hk : (s.cmds.decisionWaiting.map Prod.fst).Nodup)
    {e : CmdEvent} {c : Commands} (h : s.cmds.step H e = .ok c) :
    (∀ x ∈ c.cmdPending, x ∈ s.submit e) ∧ (∀ x ∈ c.decisionWaiting, x ∈ s.submit e) ∧
      (c.decisionWaiting.map Prod.fst).Nodup := by
  cases e with
  | execCommand cmdHash callback =>
    cases h
    exact ⟨fun x hx => List.mem_append.mpr ((List.mem_append.mp hx).imp (hp x) id),
      fun x hx => List.mem_append_left _ (hw x hx), hk⟩
  | dequeue proposer =>
    cases h
    unfold Commands.dequeue
    split
    · exact ⟨hp, hw, hk⟩
    · rename_i cmdHash callback q hq
      have hq' : ∀ x ∈ q, x ∈ s.submitted := fun x hx => hp x (by rw [hq]; exact List.mem_cons_of_mem _ hx)
      split_ifs
      · simp only [Commands.push, cut_cmdPending, cut_decisionWaiting]
        refine ⟨hq', ?_, ?_⟩ <;> split_ifs with hl
        · exact hw
        · intro x hx
          refine (List.mem_append.mp hx).elim (hw x) fun hx => ?_
          rw [List.mem_singleton.mp hx]; exact hp _ (by rw [hq]; exact List.mem_cons_self _ _)
        · exact hk
        · rw [List.map_append, List.map_singleton]
          exact (List.perm_append_singleton _ _).nodup_iff.mpr
            (List.nodup_cons.mpr ⟨fun ha => hl (lookup_isSome_of_mem ha), hk⟩)
      · exact ⟨hq', hw, hk⟩
  | beat i proposer parents =>
    rcases Commands.resolveBeat_cases H h with rfl | ⟨cmds, -, ⟨c', rfl⟩ | rfl⟩ <;> exact ⟨hp, hw, hk⟩
  | core i =>
    obtain ⟨c', -, rfl⟩ := except_map_eq_ok.mp h
    exact ⟨hp, hw, hk⟩

theorem core_step {s : Decisions} (hw : s.cmds.core.Wf) {e : CmdEvent} (hv : e.Valid s.cmds)
    {c : Commands} (h : s.cmds.step H e = .ok c) : c.core.Wf ∧ ∃ l, c.core.out = s.cmds.core.out ++ l := by
  rcases Commands.step_core H hv h with he | ⟨i, hi, hc⟩
  · exact ⟨he ▸ hw, [], by rw [he, List.append_nil]⟩
  · obtain ⟨l, hl⟩ := (Core.exec_grows hw hi hc).1.out
    exact ⟨hw.exec hi hc, l, hl.symm⟩

theorem Inv.step {s s' : Decisions} (hi : s.Inv) {e : CmdEvent} (hv : e.Valid s.cmds)
    (h : s.step H e = .ok s') : s'.Inv := by
  obtain ⟨c, hc, rfl⟩ := except_map_eq_ok.mp h
  obtain ⟨hw, l, hl⟩ := core_step H hi.wf hv hc
  obtain ⟨hp, hwt, hk⟩ := books_step H hi.pending hi.waiting hi.keys hc
  have hsub : ∀ x ∈ s.submitted, x ∈ s.submit e := fun x hx => by
    cases e <;> first | exact hx | exact List.mem_append_left _ hx
  have hdec : c.core.decides = s.cmds.core.decides ++ l.filterMap Effect.decideFin := by
    rw [Core.decides, hl, List.filterMap_append]; rfl
  refine Inv.foldl_doDecide _ ⟨hw, hp, hwt, hk, fun x hx => ?_⟩ fun f hf => ?_
  · obtain ⟨h1, h2⟩ := hi.answered x hx
    exact ⟨hsub _ h1, by rw [hdec]; exact List.mem_append_left _ h2⟩
  · rw [hl, List.drop_left] at hf
    change f ∈ c.core.decides
    rw [hdec]; exact List.mem_append_right _ hf

theorem reachable_inv {id : ReplicaID} {rs : List ReplicaID} {nfaulty blkSize : Nat} {s : Decisions}
    (hr : Reachable H (init H id rs nfaulty blkSize) s) : s.Inv := by
  induction hr with
  | refl =>
    exact ⟨Core.wf_init H id rs nfaulty, fun _ h => absurd h (List.not_mem_nil _),
      fun _ h => absurd h (List.not_mem_nil _), List.nodup_nil, fun _ h => absurd h (List.not_mem_nil _)⟩
  | tail e _ hv he ih => exact ih.step H hv he

/-- A client is called back only for its own command, once the core decided it: along
every run of the command pipeline, each callback `do_decide` called was submitted with
`exec_command` for the command of the record it got, and the core decided that record;
and `decision_waiting` never holds two callbacks for one command, so erasing the entry of
a called callback leaves none for its command. -/
theorem callbacks_answer_decided {id : ReplicaID} {rs : List ReplicaID} {nfaulty blkSize : Nat}
    {s : Decisions} (hr : Reachable H (init H id rs nfaulty blkSize) s) :
    (∀ x ∈ s.answered, (x.2.cmdHash, x.1) ∈ s.submitted ∧ x.2 ∈ s.cmds.core.decides) ∧
      (s.cmds.decisionWaiting.map Prod.fst).Nodup :=
  have hi := reachable_inv H hr
  ⟨hi.answered, hi.keys⟩

/-- A single replica (`nfaulty = 0`, `blk_size = 1`) proposes commands 7, 8 and 9 in a
chain of three blocks; the third commits the first, and the callback of 7 is called with
its record. -/
theorem callbacks_answer_decided_commit :
    ∃ s, Reachable Commands.firstCmdHash (init Commands.firstCmdHash 0 [0] 0 1) s ∧
      s.answered = [(0, ⟨0, 1, 0, 1, 7, 7⟩)] ∧
      (∀ x ∈ s.answered, (x.2.cmdHash, x.1) ∈ s.submitted ∧ x.2 ∈ s.cmds.core.decides) ∧
      (s.cmds.decisionWaiting.map Prod.fst).Nodup :=
  have hr : Reachable Commands.firstCmdHash (init Commands.firstCmdHash 0 [0] 0 1) _ :=
    reachable_of_run Commands.firstCmdHash [.execCommand 7 0, .dequeue 0, .beat 0 0 [0],
      .execCommand 8 1, .dequeue 0, .beat 0 0 [1], .execCommand 9 2, .dequeue 0, .beat 0 0 [2]] .refl rfl
  ⟨_, hr, rfl, callbacks_answer_decided Commands.firstCmdHash hr⟩

/-! ## Each callback at most once -/

/-- The callbacks accounted for: those `do_decide` called, each as the submission it
answers, then the entries of `decision_waiting`, then the queue `cmd_pending`. -/
def accounted (s : Decisions) : List (Hash × Nat) :=
  s.answered.map (fun x => (x.2.cmdHash, x.1)) ++ (s.cmds.decisionWaiting ++ s.cmds.cmdPending)

@[simp] theorem doDecide_submitted (s : Decisions) (fin : Finality) :
    (s.doDecide fin).submitted = s.submitted := by
  unfold Decisions.doDecide; split <;> rfl

theorem foldl_doDecide_submitted : ∀ (fins : List Finality) (s : Decisions),
    (fins.foldl Decisions.doDecide s).submitted = s.submitted
  | [], _ => rfl
  | f :: fins, s => (foldl_doDecide_submitted fins (s.doDecide f)).trans (doDecide_submitted s f)

theorem accounted_doDecide (s : Decisions) (fin : Finality) : (s.doDecide fin).accounted.Perm s.accounted := by
  unfold Decisions.doDecide
  split
  · rename_i cb hcb
    obtain ⟨l₁, l₂, hl, hne⟩ := List.lookup_eq_some_iff.mp hcb
    have he : s.cmds.decisionWaiting.eraseP (·.1 = fin.cmdHash) = l₁ ++ l₂ := by
      rw [hl, List.eraseP_append_right _
        fun p hp hp' => bne_iff_ne.mp (hne p hp) (of_decide_eq_true hp').symm]
      simp
    rw [accounted, accounted, he, hl]
    simp only [List.map_append, List.map_singleton, List.append_assoc, List.perm_append_left_iff,
      List.cons_append, List.nil_append]
    exact List.perm_middle.symm
  · exact List.Perm.refl _

theorem accounted_foldl_doDecide : ∀ (fins : List Finality) (s : Decisions),
    (fins.foldl Decisions.doDecide s).accounted.Perm s.accounted
  | [], _ => List.Perm.refl _
  | f :: fins, s => (accounted_foldl_doDecide fins (s.doDecide f)).trans (accounted_doDecide s f)

theorem dequeue_sublist (s : Commands) (proposer : ReplicaID) :
    ((s.dequeue proposer).decisionWaiting ++ (s.dequeue proposer).cmdPending).Sublist
      (s.decisionWaiting ++ s.cmdPending) := by
  unfold Commands.dequeue
  split
  · exact List.Sublist.refl _
  · rename_i cmdHash callback q hq
    rw [hq]
    split_ifs
    · simp only [Commands.push, cut_cmdPending, cut_decisionWaiting]
      split_ifs
      · exact (List.sublist_cons_self _ _).append_left _
      · simp
    · exact (List.sublist_cons_self _ _).append_left _

theorem accounted_cmds_step {s : Decisions} (hb : s.accounted.Subperm s.submitted) {e : CmdEvent}
    {c : Commands} (h : s.cmds.step H e = .ok c) :
    (⟨c, s.answered, s.submit e⟩ : Decisions).accounted.Subperm (s.submit e) := by
  cases e with
  | execCommand cmdHash callback =>
    cases h
    simpa only [accounted, List.append_assoc] using (List.subperm_append_right [(cmdHash, callback)]).mpr hb
  | dequeue proposer =>
    cases h
    exact ((dequeue_sublist s.cmds proposer).append_left _).subperm.trans hb
  | beat i proposer parents =>
    rcases Commands.resolveBeat_cases H h with rfl | ⟨cmds, -, ⟨c', rfl⟩ | rfl⟩ <;> exact hb
  | core i =>
    obtain ⟨c', -, rfl⟩ := except_map_eq_ok.mp h
    exact hb

theorem accounted_step {s s' : Decisions} (hb : s.accounted.Subperm s.submitted) {e : CmdEvent}
    (h : s.step H e = .ok s') : s'.accounted.Subperm s'.submitted := by
  obtain ⟨c, hc, rfl⟩ := except_map_eq_ok.mp h
  rw [foldl_doDecide_submitted]
  exact (accounted_foldl_doDecide _ _).subperm.trans (accounted_cmds_step H hb hc)

/-- No callback is called more often than it was submitted: along every run of the command
pipeline, the callbacks `do_decide` called (each as the submission it answers), the entries
of `decision_waiting` and the commands still queued in `cmd_pending` are, counted with
multiplicity, among the `exec_command` submissions. A submission is called back, waiting or
queued, at most one of these; the callback of a command that already has one waiting is
dropped and never called. -/
theorem callbacks_within_submissions {id : ReplicaID} {rs : List ReplicaID} {nfaulty blkSize : Nat}
    {s : Decisions} (hr : Reachable H (init H id rs nfaulty blkSize) s) :
    (s.answered.map (fun x => (x.2.cmdHash, x.1)) ++ (s.cmds.decisionWaiting ++ s.cmds.cmdPending)).Subperm
      s.submitted := by
  induction hr with
  | refl => exact List.Subperm.refl _
  | tail e _ _ he ih => exact accounted_step H ih he

/-- Command 7 submitted twice, with callbacks 0 and 1, while this replica proposes: the
second callback is dropped. -/
theorem callbacks_within_submissions_duplicate :
    ∃ s, Reachable Commands.firstCmdHash (init Commands.firstCmdHash 0 [0] 0 2) s ∧
      s.submitted = [(7, 0), (7, 1)] ∧ s.cmds.decisionWaiting = [(7, 0)] ∧ s.cmds.cmdPending = [] ∧
      (s.answered.map (fun x => (x.2.cmdHash, x.1)) ++ (s.cmds.decisionWaiting ++ s.cmds.cmdPending)).Subperm
        s.submitted :=
  have hr : Reachable Commands.firstCmdHash (init Commands.firstCmdHash 0 [0] 0 2) _ :=
    reachable_of_run Commands.firstCmdHash [.execCommand 7 0, .execCommand 7 1, .dequeue 0, .dequeue 0]
      .refl rfl
  ⟨_, hr, rfl, rfl, rfl, callbacks_within_submissions Commands.firstCmdHash hr⟩

end Decisions

end HotStuff
