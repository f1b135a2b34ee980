import HotStuff.Run

/-!
# The command pipeline of `HotStuffBase`

`exec_command` enqueues a command on `cmd_pending`. The handler `start` registers dequeues
the commands and asks `pmaker->get_proposer()` for each: a command dequeued while this
replica proposes is pushed into `cmd_pending_buffer`, and once the buffer holds `blk_size`
commands they are cut into a batch and the handler calls `pmaker->beat()`, whose
continuation calls `on_propose` if the beat names this replica. The `beat()` promises
resolve in any order. Beside the source's state the pipeline records the pushed commands,
the batches cut, and the batches whose beat named another replica.
-/

namespace HotStuff

/-- The command side of `HotStuffBase` and the core it feeds. A callback (`commit_cb_t`)
is named by a number. -/
structure Commands where
  core : Core
  blkSize : Nat
  /-- `cmd_pending`: the `(cmd_hash, callback)` pairs `exec_command` enqueued. -/
  cmdPending : List (Hash × Nat)
  /-- `cmd_pending_buffer`. -/
  cmdPendingBuffer : List Hash
  /-- `decision_waiting`: the callback registered for a command hash. -/
  decisionWaiting : List (Hash × Nat)
  /-- The batches held by the continuations of the `beat()` calls that have not resolved,
  in the order of the calls. -/
  beats : List (List Hash)
  /-- The `cmds` of every call of `on_propose`, in order. -/
  proposed : List (List Hash)
  /-- Every command hash pushed into `cmd_pending_buffer`, in order. -/
  pushed : List Hash
  /-- Every batch cut from `cmd_pending_buffer`, in order. -/
  batches : List (List Hash)
  /-- The batches whose `beat()` named another replica. -/
  dropped : List (List Hash)

/-- What the clients, the pacemaker and the rest of `HotStuffBase` do. -/
inductive CmdEvent
  /-- `exec_command(cmd_hash, callback)`. -/
  | execCommand (cmdHash : Hash) (callback : Nat)
  /-- One turn of the loop of the handler on `cmd_pending`: `try_dequeue` takes the head
  of the queue and `pmaker->get_proposer()` answers `proposer`. -/
  | dequeue (proposer : ReplicaID)
  /-- The `i`-th pending `beat()` resolves with `proposer`, and `pmaker->get_parents()`
  answers `parents`. -/
  | beat (i : Nat) (proposer : ReplicaID) (parents : List Ptr)
  /-- A message handler calls the core. -/
  | core (i : Input)

namespace Commands

variable (H : BlockData → Hash)

def init (id : ReplicaID) (replicas : List ReplicaID) (nfaulty blkSize : Nat) : Commands :=
  ⟨Core.init H id replicas nfaulty, blkSize, [], [], [], [], [], [], [], []⟩

def execCommand (s : Commands) (cmdHash : Hash) (callback : Nat) : Commands :=
  { s with cmdPending := s.cmdPending ++ [(cmdHash, callback)] }

/-- Once the buffer holds `blk_size` commands, its first `blk_size` are popped into
`cmds` and held by the continuation of `pmaker->beat()`. -/
def cut (s : Commands) : Commands :=
  if s.blkSize ≤ s.cmdPendingBuffer.length then
    { s with cmdPendingBuffer := s.cmdPendingBuffer.drop s.blkSize,
             beats := s.beats ++ [s.cmdPendingBuffer.take s.blkSize],
             batches := s.batches ++ [s.cmdPendingBuffer.take s.blkSize] }
  else s

/-- A dequeued command while this replica proposes: `cmd_pending_buffer.push(cmd_hash)`,
the callback inserted in `decision_waiting` unless one is there, and the cut. -/
def push (s : Commands) (cmdHash : Hash) (callback : Nat) : Commands :=
  cut { s with cmdPendingBuffer := s.cmdPendingBuffer ++ [cmdHash], pushed := s.pushed ++ [cmdHash],
               decisionWaiting := if (s.decisionWaiting.lookup cmdHash).isSome then s.decisionWaiting
                 else s.decisionWaiting ++ [(cmdHash, callback)] }

/-- One turn of the handler's loop: `if (proposer != get_id()) continue;`. -/
def dequeue (s : Commands) (proposer : ReplicaID) : Commands :=
  match s.cmdPending with
  | [] => s
  | (cmdHash, callback) :: q =>
    if proposer = s.core.id then { s with cmdPending := q }.push cmdHash callback
    else { s with cmdPending := q }

/-- The continuation of the `i`-th pending `beat()`:
`if (proposer == get_id()) on_propose(cmds, pmaker->get_parents());`. -/
def resolveBeat (s : Commands) (i : Nat) (proposer : ReplicaID) (parents : List Ptr) :
    Except Err Commands :=
  match s.beats[i]? with
  | none => .ok s
  | some cmds =>
    if proposer = s.core.id then
      (s.core.onPropose H cmds parents []).map fun c =>
        { s with core := c, beats := s.beats.eraseIdx i, proposed := s.proposed ++ [cmds] }
    else .ok { s with beats := s.beats.eraseIdx i, dropped := s.dropped ++ [cmds] }

def step (s : Commands) : CmdEvent → Except Err Commands
  | .execCommand cmdHash callback => .ok (s.execCommand cmdHash callback)
  | .dequeue proposer => .ok (s.dequeue proposer)
  | .beat i proposer parents => s.resolveBeat H i proposer parents
  | .core i => (exec H s.core i).map fun c => { s with core := c }

end Commands

namespace CmdEvent

/-- The pacemaker hands out pointers to blocks that exist, and so do the message
handlers. -/
def Valid (s : Commands) : CmdEvent → Prop
  | beat _ _ parents => ∀ p ∈ parents, p < s.core.next
  | core i => i.Valid s.core
  | _ => True

instance decValid (s : Commands) : (e : CmdEvent) → Decidable (e.Valid s)
  | .execCommand _ _ => isTrue trivial
  | .dequeue _ => isTrue trivial
  | .beat _ _ ps => List.decidableBAll _ ps
  | .core i => Input.decValid s.core i

end CmdEvent

namespace Commands

variable (H : BlockData → Hash)

inductive Reachable (s0 : Commands) : Commands → Prop
  | refl : Reachable s0 s0
  | tail {s s' : Commands} (e : CmdEvent) : Reachable s0 s → e.Valid s → s.step H e = .ok s' →
      Reachable s0 s'

def run (s : Commands) : List CmdEvent → Option Commands
  | [] => some s
  | e :: es =>
    if e.Valid s then
      match s.step H e with
      | .ok s' => run s' es
      | .error _ => none
    else none

theorem reachable_of_run {s0 : Commands} : ∀ {s : Commands} (es : List CmdEvent) {s' : Commands},
    Reachable H s0 s → run H s es = some s' → Reachable H s0 s'
  | _, [], _, hr, h => by cases h; exact hr
  | s, e :: es, s', hr, h => by
    unfold Commands.run at h
    split_ifs at h with hv
    split at h
    · exact reachable_of_run es (hr.tail e hv ‹_›) h
    · cases h

/-! ## Where a pushed command is -/

theorem perm_cons_eraseIdx {α : Type} : ∀ {l : List α} {i : Nat} {a : α}, l[i]? = some a →
    l.Perm (a :: l.eraseIdx i)
  | b :: l, 0, a, h => by
    rw [List.getElem?_cons_zero, Option.some.injEq] at h
    subst h; exact .refl _
  | b :: l, i + 1, a, h => by
    rw [List.getElem?_cons_succ] at h
    exact ((perm_cons_eraseIdx h).cons b).trans (.swap a b _)

/-- What every reachable pipeline satisfies: the pushed commands are, in push order, the
batches cut followed by the buffer; a batch holds `blk_size` commands and the buffer
fewer; each batch cut is pending on its `beat()`, proposed or dropped, once. -/
structure Inv (s : Commands) : Prop where
  pushed : s.pushed = s.batches.flatten ++ s.cmdPendingBuffer
  size : ∀ b ∈ s.batches, b.length = s.blkSize
  short : 0 < s.blkSize → s.cmdPendingBuffer.length < s.blkSize
  batches : s.batches.Perm (s.beats ++ s.proposed ++ s.dropped)

theorem Inv.cut {s : Commands} (hp : s.pushed = s.batches.flatten ++ s.cmdPendingBuffer)
    (hs : ∀ b ∈ s.batches, b.length = s.blkSize)
    (hl : 0 < s.blkSize → s.cmdPendingBuffer.length ≤ s.blkSize)
    (hb : s.batches.Perm (s.beats ++ s.proposed ++ s.dropped)) : s.cut.Inv := by
  unfold Commands.cut
  split_ifs with hc
  · refine ⟨?_, fun b hb' => ?_, fun hn => ?_, ?_⟩
    · simp only [hp, List.flatten_append, List.flatten_singleton, List.append_assoc, List.take_append_drop]
    · rcases List.mem_append.mp hb' with hb' | hb'
      · exact hs b hb'
      · rw [List.mem_singleton.mp hb', List.length_take]; exact min_eq_left hc
    · replace hn : 0 < s.blkSize := hn
      have := hl hn
      show (s.cmdPendingBuffer.drop s.blkSize).length < s.blkSize
      rw [List.length_drop]; omega
    · rw [List.perm_iff_count] at hb ⊢
      intro a
      have := hb a
      simp only [List.count_append] at this ⊢
      omega
  · exact ⟨hp, hs, fun _ => by omega, hb⟩

theorem Inv.push {s : Commands} (hi : s.Inv) (cmdHash : Hash) (callback : Nat) :
    (s.push cmdHash callback).Inv :=
  Inv.cut (by simp only [hi.pushed, List.append_assoc]) hi.size
    (fun hn => by have := hi.short hn; simp only [List.length_append, List.length_singleton]; omega) hi.batches

theorem Inv.dequeue {s : Commands} (hi : s.Inv) (proposer : ReplicaID) : (s.dequeue proposer).Inv := by
  unfold Commands.dequeue
  split
  · exact hi
  · split_ifs
    · apply Inv.push; exact ⟨hi.pushed, hi.size, hi.short, hi.batches⟩
    · exact ⟨hi.pushed, hi.size, hi.short, hi.batches⟩

theorem resolveBeat_cases {s s' : Commands} {i : Nat} {proposer : ReplicaID} {parents : List Ptr}
    (h : s.resolveBeat H i proposer parents = .ok s') :
    s' = s ∨ ∃ cmds, s.beats[i]? = some cmds ∧
      ((∃ c, s' = { s with core := c, beats := s.beats.eraseIdx i, proposed := s.proposed ++ [cmds] }) ∨
        s' = { s with beats := s.beats.eraseIdx i, dropped := s.dropped ++ [cmds] }) := by
  unfold Commands.resolveBeat at h
  split at h
  · cases h; exact .inl rfl
  · rename_i cmds hb
    split_ifs at h
    · obtain ⟨c, -, rfl⟩ := except_map_eq_ok.mp h
      exact .inr ⟨cmds, hb, .inl ⟨c, rfl⟩⟩
    · cases h; exact .inr ⟨cmds, hb, .inr rfl⟩

theorem Inv.resolveBeat {s s' : Commands} (hi : s.Inv) {i : Nat} {proposer : ReplicaID}
    {parents : List Ptr} (h : s.resolveBeat H i proposer parents = .ok s') : s'.Inv := by
  rcases resolveBeat_cases H h with rfl | ⟨cmds, hb, hs⟩
  · exact hi
  have hc : s.batches.Perm (s.beats.eraseIdx i ++ s.proposed ++ s.dropped ++ [cmds]) :=
    hi.batches.trans ((((perm_cons_eraseIdx hb).append_right _).append_right _).trans
      (List.perm_append_singleton _ _).symm)
  rcases hs with ⟨c, rfl⟩ | rfl
  · refine ⟨hi.pushed, hi.size, hi.short, ?_⟩
    rw [List.perm_iff_count] at hc ⊢
    intro a
    have := hc a
    simp only [List.count_append] at this ⊢
    omega
  · exact ⟨hi.pushed, hi.size, hi.short, by simpa only [List.append_assoc] using hc⟩

theorem Inv.step {s s' : Commands} (hi : s.Inv) {e : CmdEvent} (h : s.step H e = .ok s') : s'.Inv := by
  cases e with
  | execCommand cmdHash callback => cases h; exact ⟨hi.pushed, hi.size, hi.short, hi.batches⟩
  | dequeue proposer => cases h; exact hi.dequeue proposer
  | beat i proposer parents => exact hi.resolveBeat H h
  | core i =>
    obtain ⟨c, -, rfl⟩ := except_map_eq_ok.mp h
    exact ⟨hi.pushed, hi.size, hi.short, hi.batches⟩

theorem inv_init (id : ReplicaID) (replicas : List ReplicaID) (nfaulty blkSize : Nat) :
    (init H id replicas nfaulty blkSize).Inv :=
  ⟨rfl, fun _ h => absurd h (List.not_mem_nil _), fun h => h, .nil⟩

theorem reachable_inv {s0 s : Commands} (h0 : s0.Inv) (hr : Reachable H s0 s) : s.Inv := by
  induction hr with
  | refl => exact h0
  | tail e _ _ he ih => exact ih.step H he

/-- Along every run, the commands pushed into `cmd_pending_buffer` are, in push order,
the batches cut from it followed by what it still holds; every batch holds `blk_size`
commands; and each batch cut is, exactly once, pending on its `beat()`, passed to
`on_propose`, or dropped because its beat named another replica. -/
theorem pushed_cmds_accounted {id : ReplicaID} {replicas : List ReplicaID} {nfaulty blkSize : Nat}
    {s : Commands} (hr : Reachable H (init H id replicas nfaulty blkSize) s) :
    s.pushed = s.batches.flatten ++ s.cmdPendingBuffer ∧ (∀ b ∈ s.batches, b.length = s.blkSize) ∧
      s.batches.Perm (s.beats ++ s.proposed ++ s.dropped) :=
  have hi := reachable_inv H (inv_init H id replicas nfaulty blkSize) hr
  ⟨hi.pushed, hi.size, hi.batches⟩

/-- A hash for runs whose blocks differ in their first command; genesis, with none,
hashes to 0. -/
def firstCmdHash (d : BlockData) : Hash := d.cmds.headD 0

/-- A buffered command is lost when the `beat()` of its batch names another replica:
replica 0 (`blk_size = 1`) buffers command 7, cuts it into a batch, and the beat resolves
with replica 1. And batches whose beats resolve in the other order reach `on_propose`
reversed: 8 and 9 are cut in this order, the beat of 9 resolves first, replicas 1 and 2
vote for its block, then the beat of 8 resolves on that block. -/
theorem buffered_cmd_lost :
    (∃ s, Reachable extraHash (init extraHash 0 [0, 1, 2, 3] 1 1) s ∧ 7 ∈ s.pushed ∧
      7 ∉ s.cmdPendingBuffer ∧ (∀ b ∈ s.beats, 7 ∉ b) ∧ ∀ b ∈ s.proposed, 7 ∉ b) ∧
    ∃ s, Reachable firstCmdHash (init firstCmdHash 0 [0, 1, 2, 3] 1 1) s ∧ s.batches = [[8], [9]] ∧
      s.proposed = [[9], [8]] :=
  ⟨⟨_, reachable_of_run extraHash [.execCommand 7 0, .dequeue 0, .beat 0 1 []] .refl rfl,
      by decide, by decide, by decide, by decide⟩,
    _, reachable_of_run firstCmdHash [.execCommand 8 0, .execCommand 9 0, .dequeue 0, .dequeue 0,
      .beat 1 0 [0], .core (.receiveVote ⟨1, 9⟩), .core (.receiveVote ⟨2, 9⟩), .beat 0 0 [1]] .refl rfl, rfl, rfl⟩

/-- Replica 0 (`blk_size = 2`) buffers seven commands: the beat of the batch `[7, 8]` names
replica 1, the beat of `[9, 10]` names replica 0, which proposes it on genesis, the beat of
`[11, 12]` is pending, and 13 waits in the buffer. -/
theorem pushed_cmds_accounted_run :
    ∃ s, Reachable firstCmdHash (init firstCmdHash 0 [0, 1, 2, 3] 1 2) s ∧ s.pushed = [7, 8, 9, 10, 11, 12, 13] ∧
      s.batches = [[7, 8], [9, 10], [11, 12]] ∧
      s.pushed = s.batches.flatten ++ s.cmdPendingBuffer ∧ (∀ b ∈ s.batches, b.length = s.blkSize) ∧
      s.batches.Perm (s.beats ++ s.proposed ++ s.dropped) :=
  have hr : Reachable firstCmdHash (init firstCmdHash 0 [0, 1, 2, 3] 1 2) _ := reachable_of_run firstCmdHash
    [.execCommand 7 0, .execCommand 8 0, .dequeue 0, .dequeue 0, .beat 0 1 [], .execCommand 9 0,
      .execCommand 10 0, .dequeue 0, .dequeue 0, .beat 0 0 [0], .execCommand 11 0, .execCommand 12 0,
      .execCommand 13 0, .dequeue 0, .dequeue 0, .dequeue 0] .refl rfl
  ⟨_, hr, rfl, rfl, pushed_cmds_accounted firstCmdHash hr⟩

/-- Where a buffered command is: every pushed command is still in `cmd_pending_buffer`, in
the batch of a pending `beat()`, passed to `on_propose`, or dropped with a batch whose beat
named another replica; and each push of a command is in exactly one of these places, so in
at most one batch. -/
theorem buffered_cmds_located {id : ReplicaID} {replicas : List ReplicaID} {nfaulty blkSize : Nat}
    {s : Commands} (hr : Reachable H (init H id replicas nfaulty blkSize) s) :
    (∀ c ∈ s.pushed, c ∈ s.cmdPendingBuffer ∨ (∃ b ∈ s.beats, c ∈ b) ∨ (∃ b ∈ s.proposed, c ∈ b) ∨
      ∃ b ∈ s.dropped, c ∈ b) ∧
    ∀ c, s.pushed.count c = s.cmdPendingBuffer.count c + (s.beats ++ s.proposed ++ s.dropped).flatten.count c := by
  have hi := reachable_inv H (inv_init H id replicas nfaulty blkSize) hr
  refine ⟨fun c hc => ?_, fun c => ?_⟩
  · rw [hi.pushed, List.mem_append, List.mem_flatten] at hc
    rcases hc with ⟨b, hb, hcb⟩ | hc
    · rcases List.mem_append.mp (hi.batches.mem_iff.mp hb) with hb | hb
      · rcases List.mem_append.mp hb with hb | hb
        · exact .inr (.inl ⟨b, hb, hcb⟩)
        · exact .inr (.inr (.inl ⟨b, hb, hcb⟩))
      · exact .inr (.inr (.inr ⟨b, hb, hcb⟩))
    · exact .inl hc
  · rw [hi.pushed, List.count_append, hi.batches.flatten.count_eq c, Nat.add_comm]

/-- The batches `[7, 8]`, `[9, 10]` and `[11, 12]` of the run above are dropped, proposed and
pending, and 13 is in the buffer. -/
theorem buffered_cmds_located_run :
    ∃ s, Reachable firstCmdHash (init firstCmdHash 0 [0, 1, 2, 3] 1 2) s ∧ s.dropped = [[7, 8]] ∧
      s.proposed = [[9, 10]] ∧ s.beats = [[11, 12]] ∧ s.cmdPendingBuffer = [13] ∧
      (∀ c ∈ s.pushed, c ∈ s.cmdPendingBuffer ∨ (∃ b ∈ s.beats, c ∈ b) ∨ (∃ b ∈ s.proposed, c ∈ b) ∨
        ∃ b ∈ s.dropped, c ∈ b) ∧
      ∀ c, s.pushed.count c = s.cmdPendingBuffer.count c + (s.beats ++ s.proposed ++ s.dropped).flatten.count c :=
  have hr : Reachable firstCmdHash (init firstCmdHash 0 [0, 1, 2, 3] 1 2) _ := reachable_of_run firstCmdHash
    [.execCommand 7 0, .execCommand 8 0, .dequeue 0, .dequeue 0, .beat 0 1 [], .execCommand 9 0,
      .execCommand 10 0, .dequeue 0, .dequeue 0, .beat 0 0 [0], .execCommand 11 0, .execCommand 12 0,
      .execCommand 13 0, .dequeue 0, .dequeue 0, .dequeue 0] .refl rfl
  ⟨_, hr, rfl, rfl, rfl, rfl, buffered_cmds_located firstCmdHash hr⟩

end Commands

end HotStuff
