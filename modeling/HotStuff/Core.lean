import HotStuff.Block

/-!
# The protocol logic of `HotStuffCore`

`on_deliver_blk`, `update_hqc`, `update`, `on_propose`, `on_receive_proposal`,
`on_receive_vote` and the set-up calls, each a function from the replica state to
the state after the call, or to the way the call ends without returning. Effects the
core hands to the network and to the application are appended to `out` in the order
the source issues them. The two primary-parent loops of the source are one function,
`walkDown`, run with as much fuel as the block it starts from is high.
-/

namespace HotStuff

variable (H : BlockData → Hash)

/-- `new Block(parents, cmds, qc, extra, height, qc_ref, nullptr)`. -/
def Block.new (d : BlockData) (parents : List Ptr) (qcRef : Option Ptr) (height : Nat) : Block :=
  { Block.ofData H d with parents := parents, qcRef := qcRef, height := height }

namespace Core

def getDeliveredBlk (s : Core) (h : Hash) : Except Err Ptr :=
  match s.storage h with
  | some p => if (s.heap p).delivered then .ok p else .error (.runtimeError "block not delivered")
  | none => .error (.runtimeError "block not delivered")

/-- The loop of `on_deliver_blk` that resolves every parent hash. -/
def getDeliveredBlks (s : Core) : List Hash → Except Err (List Ptr)
  | [] => .ok []
  | h :: hs => (s.getDeliveredBlk h).bind fun p => (s.getDeliveredBlks hs).map (p :: ·)

/-- The block `qc_ref` points to after delivery: the stored block the certificate
names, or whatever `qc_ref` already held when there is no certificate. -/
def resolveQcRef (s : Core) (b : Ptr) : Except Err (Option Ptr) :=
  match (s.heap b).data.qc with
  | none => .ok (s.heap b).qcRef
  | some qc =>
    match s.storage qc.objHash with
    | some q => .ok (some q)
    | none => .error (.runtimeError "block referred by qc not fetched")

/-- The fields `on_deliver_blk` writes into the block it delivers. -/
def setDelivered (parents : List Ptr) (height : Nat) (qcRef : Option Ptr) (x : Block) : Block :=
  { x with parents := parents, height := height, qcRef := qcRef, delivered := true }

/-- `for (auto pblk: blk->parents) tails.erase(pblk); tails.insert(blk);` -/
def newTails (tails parents : List Ptr) (b : Ptr) : List Ptr :=
  b :: tails.filter fun t => t ∉ parents ∧ t ≠ b

def onDeliverBlk (s : Core) (b : Ptr) : Except Err (Bool × Core) :=
  if (s.heap b).delivered then .ok (false, s) else
  (s.getDeliveredBlks (s.heap b).data.parentHashes).bind fun parents =>
    match parents with
    | [] => .error .emptyParents
    | p0 :: _ =>
      (s.resolveQcRef b).map fun qcRef =>
        (true, { s.modBlk b (setDelivered parents ((s.heap p0).height + 1) qcRef) with
                 tails := newTails s.tails parents b })

def updateHqc (s : Core) (blk : Ptr) (qc : Option QuorumCert) : Except Err Core :=
  if (s.heap s.hqc.1).height < (s.heap blk).height then
    match qc with
    | some qc => .ok ({ s with hqc := (blk, qc) }.emit .hqcUpdate)
    | none => .error .nullDeref
  else .ok s

/-- The primary-parent loop `for (b = from; b->height > h; b = b->parents[0])`: the
block it stops at and the blocks its body ran on, from `from` downwards. The fuel
bounds how often the loop condition is tested. -/
def walkDown (s : Core) (h : Nat) : Nat → Ptr → Except Err (Ptr × List Ptr)
  | 0, _ => .error .diverge
  | fuel + 1, b =>
    if h < (s.heap b).height then
      match (s.heap b).parents with
      | [] => .error .emptyParents
      | a :: _ => (walkDown s h fuel a).map fun r => (r.1, b :: r.2)
    else .ok (b, [])

/-- The loop run from `b` with one test more than `b` is high. -/
def walk (s : Core) (b : Ptr) (h : Nat) : Except Err (Ptr × List Ptr) :=
  s.walkDown h ((s.heap b).height + 1) b

/-- One turn of the replay loop of `update`: the block is decided and each of its
commands goes to `do_decide`. -/
def commitBlk (s : Core) (b : Ptr) : Core :=
  let s := s.modBlk b fun x => { x with decision := true }
  let blk := s.heap b
  let idx := 0
  { s with out := s.out ++ blk.data.cmds.map fun cmd => .decide ⟨s.id, 1, idx, blk.height, cmd, blk.hash⟩ }

/-- The replay of the commit queue, oldest block first, and `bexec = p`. -/
def commit (s : Core) (queue : List Ptr) (p : Ptr) : Core :=
  { queue.reverse.foldl commitBlk s with bexec := p }

/-- The part of `update` after `update_hqc`: `/* check for commit */`. -/
def checkCommit (s : Core) (blk : Ptr) : Except Err Core :=
  if (s.heap blk).qcRef = none ∨ (s.heap blk).decision then .ok s else
  match (s.heap blk).parents with
  | [] => .error .emptyParents
  | p :: _ =>
    if (s.heap p).decision ∨ (s.heap blk).qcRef ≠ some p then .ok s else
    (s.walk p (s.heap s.bexec).height).bind fun r =>
      if r.1 = s.bexec then .ok (s.commit r.2 p) else .error (.runtimeError "safety breached :( ")

def update (s : Core) (nblk : Ptr) : Except Err Core :=
  match (s.heap nblk).qcRef with
  | none => .error (.runtimeError "empty qc_ref")
  | some blk => (s.updateHqc blk (s.heap nblk).data.qc).bind fun s => s.checkCommit blk

def onReceiveVote (s : Core) (v : Vote) : Except Err Core :=
  (s.getDeliveredBlk v.blkHash).bind fun b =>
    let blk := s.heap b
    if s.nmajority ≤ blk.voted.length ∨ v.voter ∈ blk.voted then .ok s else
    let qc := (blk.selfQc.getD (createQuorumCert blk.hash)).addPart v.voter
    if blk.voted.length + 1 = s.nmajority then
      ((s.modBlk b fun x => { x with voted := v.voter :: x.voted, selfQc := some qc.compute }).emit
        (.qcFinish b)).updateHqc b (some qc.compute)
    else .ok (s.modBlk b fun x => { x with voted := v.voter :: x.voted, selfQc := some qc })

/-- The vote decision of `on_receive_proposal`: `bnew` is above `vheight` and the walk
from it down to the height of `hqc.first` stops on `hqc.first`. -/
def opinion (s : Core) (bnew : Ptr) : Except Err Bool :=
  if s.vheight < (s.heap bnew).height then
    (s.walk bnew (s.heap s.hqc.1).height).map fun r => r.1 = s.hqc.1
  else .ok false

/-- `on_receive_proposal`, for a proposal of `bnew` by `proposer`. After `update` and
the vote decision: `vheight` moves up to `bnew` when the replica votes, observers of
`bnew.qc_ref` are told its certificate is finished, and the vote goes to the proposer. -/
def onReceiveProposal (s : Core) (proposer : ReplicaID) (bnew : Ptr) : Except Err Core :=
  if (s.heap bnew).delivered = false then .error (.runtimeError "block not delivered") else
  (s.update bnew).bind fun s =>
    (s.opinion bnew).map fun (op : Bool) =>
      { s with vheight := if op = true then (s.heap bnew).height else s.vheight,
               out := s.out ++ (s.heap bnew).qcRef.toList.map .qcFinish ++
                 if op = true ∧ s.negVote = false then [.vote bnew (some proposer)] else [] }

/-- `/* a block can optionally carray a QC */`: the primary parent's own certificate,
once `nmajority` votes for it were counted. -/
def proposalQc (s : Core) (p : Ptr) : Except Err (Option QuorumCert × Option Ptr) :=
  if s.nmajority ≤ (s.heap p).voted.length then
    match (s.heap p).selfQc with
    | some qc => .ok (some qc, some p)
    | none => .error .nullDeref
  else .ok (none, none)

/-- The tail of `on_propose` once `bnew` is stored: its fresh `self_qc`, its
delivery, `update`, the height check, the self-vote and the broadcast. -/
def proposeStored (s : Core) (bnew : Ptr) : Except Err Core :=
  let bnewHash := (s.heap bnew).hash
  let s := s.modBlk bnew fun x => { x with selfQc := some (createQuorumCert bnewHash) }
  (s.onDeliverBlk bnew).bind fun r => (r.2.update bnew).bind fun s =>
    if (s.heap bnew).height ≤ s.vheight then
      .error (.runtimeError "new block should be higher than vheight")
    else
      let s := { s with vheight := (s.heap bnew).height }.emit (.vote bnew none)
      (s.onReceiveVote ⟨s.id, bnewHash⟩).map fun s => s.emit (.propose bnew)

def onPropose (s : Core) (cmds : List Hash) (parents : List Ptr) (extra : List Nat) :
    Except Err Core :=
  match parents with
  | [] => .error (.runtimeError "empty parents")
  | p :: _ =>
    let s := { s with tails := s.tails.filter fun t => t ∉ parents }
    (s.proposalQc p).bind fun r =>
      let d : BlockData := ⟨parents.map fun q => (s.heap q).hash, cmds, r.1, extra⟩
      let a := s.addBlk (Block.new H d parents r.2 ((s.heap p).height + 1))
      a.1.proposeStored a.2

/-- The constructor `HotStuffCore(id, priv_key)`. -/
def new (id : ReplicaID) : Core :=
  { heap := fun _ => genesis H, next := 1,
    storage := fun h => if h = (genesis H).hash then some 0 else none,
    b0 := 0, bexec := 0, hqc := (0, createQuorumCert (genesis H).hash), vheight := 0,
    tails := [0], negVote := false, id := id, nmajority := 0, out := [] }

/-- `add_replica`: the replica's id joins `b0.voted`. -/
def addReplica (s : Core) (rid : ReplicaID) : Core :=
  s.modBlk s.b0 fun x => { x with voted := if rid ∈ x.voted then x.voted else rid :: x.voted }

/-- `on_init(nfaulty)`: genesis gets a computed certificate over its own hash. -/
def onInit (s : Core) (nfaulty : Nat) : Core :=
  let qc := (createQuorumCert (s.heap s.b0).hash).compute
  { s.modBlk s.b0 (fun x => { x with data := { x.data with qc := some qc }, selfQc := some qc,
                                     qcRef := some s.b0 }) with
    nmajority := 2 * nfaulty + 1, hqc := (s.b0, qc) }

/-- A replica as `HotStuffBase::start` leaves it: every replica added, then `on_init`. -/
def init (id : ReplicaID) (replicas : List ReplicaID) (nfaulty : Nat) : Core :=
  ((replicas.foldl addReplica (new H id))).onInit nfaulty

end Core

end HotStuff
