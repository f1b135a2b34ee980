import Mathlib.Data.List.Basic

/-!
# Blocks, certificates and the state of `HotStuffCore`

A block object is its serialised content, the hash of that content, and the fields the
core fills in itself (`parents`, `qc_ref`, `height`, `delivered`, `self_qc`, `voted`,
`decision`). Objects live in an arena indexed by `Ptr`, the model of `block_t`, and the
storage maps a hash to the object it holds for it; a block `prune` released and that was
fetched again is a fresh object with the old hash. Cryptography is out of scope: a
partial certificate is the id of its signer.
-/

namespace HotStuff

@[simp] theorem except_bind_eq_ok {ε α β : Type} {x : Except ε α} {f : α → Except ε β} {b : β} :
    x.bind f = .ok b ↔ ∃ a, x = .ok a ∧ f a = .ok b := by
  cases x <;> simp [Except.bind]

@[simp] theorem except_map_eq_ok {ε α β : Type} {x : Except ε α} {f : α → β} {b : β} :
    x.map f = .ok b ↔ ∃ a, x = .ok a ∧ f a = b := by
  cases x <;> simp [Except.map]

abbrev Hash := Nat
abbrev ReplicaID := Nat
abbrev Ptr := Nat

structure QuorumCert where
  objHash : Hash
  parts : List ReplicaID
  computed : Bool
deriving DecidableEq, Repr

def createQuorumCert (h : Hash) : QuorumCert := ⟨h, [], false⟩

namespace QuorumCert

def addPart (qc : QuorumCert) (r : ReplicaID) : QuorumCert := { qc with parts := qc.parts ++ [r] }

def compute (qc : QuorumCert) : QuorumCert := { qc with computed := true }

@[simp] theorem addPart_objHash (qc : QuorumCert) (r : ReplicaID) :
    (qc.addPart r).objHash = qc.objHash := rfl

@[simp] theorem compute_objHash (qc : QuorumCert) : qc.compute.objHash = qc.objHash := rfl

end QuorumCert

/-- The serialised part of a block, which its hash covers. -/
structure BlockData where
  parentHashes : List Hash
  cmds : List Hash
  qc : Option QuorumCert
  extra : List Nat
deriving DecidableEq, Repr

structure Block where
  data : BlockData
  hash : Hash
  parents : List Ptr
  qcRef : Option Ptr
  selfQc : Option QuorumCert
  height : Nat
  delivered : Bool
  decision : Bool
  voted : List ReplicaID
deriving DecidableEq, Repr

section Hashing

variable (H : BlockData → Hash)

/-- A block as `Block::unserialize` leaves it: content and hash, nothing resolved. -/
def Block.ofData (d : BlockData) : Block :=
  { data := d, hash := H d, parents := [], qcRef := none, selfQc := none, height := 0,
    delivered := false, decision := false, voted := [] }

/-- `new Block(true, 1)`: the genesis block, delivered and decided from the start. -/
def genesis : Block :=
  { Block.ofData H ⟨[], [], none, []⟩ with delivered := true, decision := true }

end Hashing

structure Vote where
  voter : ReplicaID
  blkHash : Hash
deriving DecidableEq, Repr

structure Finality where
  rid : ReplicaID
  decision : Int
  cmdIdx : Nat
  cmdHeight : Nat
  cmdHash : Hash
  blkHash : Hash
deriving DecidableEq, Repr

/-- What the core hands to the outside world. A `vote` is a partial certificate the
replica signs: sent to the proposer by `do_vote`, or (`none`) the self-vote that
`on_propose` registers through `on_receive_vote`. -/
inductive Effect
  | vote (blk : Ptr) (proposer : Option ReplicaID)
  | propose (blk : Ptr)
  | decide (fin : Finality)
  | qcFinish (blk : Ptr)
  | hqcUpdate
deriving DecidableEq, Repr

/-- How a call ends when it does not return: a `std::runtime_error` with its text,
or undefined behaviour (`parents[0]` of an empty vector, a null `block_t`), or a
loop that does not terminate. -/
inductive Err
  | runtimeError (what : String)
  | emptyParents
  | nullDeref
  | diverge
deriving DecidableEq, Repr

structure Core where
  heap : Ptr → Block
  next : Ptr
  storage : Hash → Option Ptr
  b0 : Ptr
  bexec : Ptr
  hqc : Ptr × QuorumCert
  vheight : Nat
  tails : List Ptr
  negVote : Bool
  id : ReplicaID
  nmajority : Nat
  out : List Effect

namespace Core

@[simps] def modBlk (s : Core) (p : Ptr) (f : Block → Block) : Core :=
  { s with heap := fun q => if q = p then f (s.heap q) else s.heap q }

@[simps] def emit (s : Core) (e : Effect) : Core := { s with out := s.out ++ [e] }

/-- `EntityStorage::add_blk`: a block whose hash is known gives back the object
already stored for it. -/
def addBlk (s : Core) (b : Block) : Core × Ptr :=
  match s.storage b.hash with
  | some p => (s, p)
  | none =>
    ({ s with heap := fun q => if q = s.next then b else s.heap q, next := s.next + 1,
              storage := fun h => if h = b.hash then some s.next else s.storage h }, s.next)

/-- Dropping a hash from the storage, as `try_release_blk` does once nothing else
holds the block. -/
@[simps] def releaseBlk (s : Core) (h : Hash) : Core :=
  { s with storage := fun h' => if h' = h then none else s.storage h' }

theorem modBlk_heap_self (s : Core) (p : Ptr) (f : Block → Block) :
    (s.modBlk p f).heap p = f (s.heap p) := by simp

theorem modBlk_heap_of_ne (s : Core) {p q : Ptr} (f : Block → Block) (h : q ≠ p) :
    (s.modBlk p f).heap q = s.heap q := by simp [h]

theorem addBlk_of_some (s : Core) (b : Block) {p : Ptr} (h : s.storage b.hash = some p) :
    s.addBlk b = (s, p) := by simp [addBlk, h]

theorem addBlk_of_none (s : Core) (b : Block) (h : s.storage b.hash = none) :
    s.addBlk b = ({ s with heap := fun q => if q = s.next then b else s.heap q, next := s.next + 1,
                           storage := fun h => if h = b.hash then some s.next else s.storage h },
                  s.next) := by simp [addBlk, h]

end Core

end HotStuff
