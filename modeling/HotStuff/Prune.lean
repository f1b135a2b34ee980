import HotStuff.Core

/-!
# `prune`

`prune(staleness)` first walks `staleness` steps down the primary chain from
`bexec`, giving up when it meets a block with no parents. From the block it reaches
it runs a depth-first loop over an explicit stack: a block with parents has its
`qc_ref` cleared and its last parent moved onto the stack, a block without parents
goes to `try_release_blk` and leaves the stack. The loop follows every parent edge,
uncles included.

Whether `try_release_blk` drops a block depends on reference counts, which the model
does not keep: `rel` says for each block whether it is released.
-/

namespace HotStuff
namespace Core

/-- The skip loop `for (start = bexec; staleness; staleness--, start = start->parents[0])`,
or `none` where it returns early on a block without parents. -/
def pruneStart (s : Core) : Nat → Ptr → Option Ptr
  | 0, b => some b
  | k + 1, b =>
    match (s.heap b).parents with
    | [] => none
    | a :: _ => pruneStart s k a

def tryReleaseBlk (rel : Ptr → Bool) (s : Core) (b : Ptr) : Core :=
  if rel b then s.releaseBlk (s.heap b).hash else s

/-- The depth-first loop of `prune`; the head of the list is the top of the stack. -/
def pruneLoop (rel : Ptr → Bool) : Nat → Core → List Ptr → Except Err Core
  | 0, _, _ => .error .diverge
  | _ + 1, s, [] => .ok s
  | fuel + 1, s, b :: stk =>
    match (s.heap b).parents.getLast? with
    | none => pruneLoop rel fuel (tryReleaseBlk rel s b) stk
    | some a =>
      pruneLoop rel fuel (s.modBlk b fun x => { x with qcRef := none, parents := x.parents.dropLast })
        (a :: b :: stk)

/-- The parent edges of all objects. Each turn of the loop either pops the stack or
moves one edge onto it, so twice this count and two more turns are enough. -/
def edges (s : Core) : Nat :=
  ((List.range s.next).map fun q => (s.heap q).parents.length).foldr (· + ·) 0

def prune (rel : Ptr → Bool) (s : Core) (staleness : Nat) : Except Err Core :=
  match s.pruneStart staleness s.bexec with
  | none => .ok s
  | some start =>
    pruneLoop rel (2 * s.edges + 2) (s.modBlk start fun x => { x with qcRef := none }) [start]

end Core
end HotStuff
