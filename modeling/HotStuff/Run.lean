import HotStuff.Prune

/-!
# Runs of one replica

The environment of one `HotStuffCore` makes the calls of the core's interface, with
any arguments: a block's bytes arrive and enter the storage (`add_blk`, from a
`RespBlock` or a parsed proposal), `on_deliver_blk` on a stored block, `on_propose`
with any parents the pacemaker picks, `on_receive_proposal`, `on_receive_vote` with
any voter, and `prune`. A call that throws or hits undefined behaviour ends the
run: `Reachable` only continues from calls that return.
-/

namespace HotStuff

/-- A hash for runs on concrete inputs: the first word of `extra`, which such runs keep
distinct per block. -/
def extraHash (d : BlockData) : Hash := d.extra.headD 0

variable (H : BlockData → Hash)

inductive Input
  | fetch (d : BlockData)
  | deliver (b : Ptr)
  | propose (cmds : List Hash) (parents : List Ptr) (extra : List Nat)
  | receiveProposal (proposer : ReplicaID) (b : Ptr)
  | receiveVote (v : Vote)
  | prune (staleness : Nat) (rel : Ptr → Bool)

namespace Input

/-- The calls a caller can make: it only holds pointers to objects that exist. -/
def Valid (s : Core) : Input → Prop
  | deliver b => b < s.next
  | propose _ parents _ => ∀ p ∈ parents, p < s.next
  | receiveProposal _ b => b < s.next
  | _ => True

instance decValid (s : Core) : (i : Input) → Decidable (i.Valid s)
  | .fetch _ => isTrue trivial
  | .deliver b => Nat.decLt b s.next
  | .propose _ ps _ => List.decidableBAll _ ps
  | .receiveProposal _ b => Nat.decLt b s.next
  | .receiveVote _ => isTrue trivial
  | .prune _ _ => isTrue trivial

def NoPrune (s : Core) (i : Input) : Prop := i.Valid s ∧ ∀ k rel, i ≠ prune k rel

end Input

def exec (s : Core) : Input → Except Err Core
  | .fetch d => .ok (s.addBlk (Block.ofData H d)).1
  | .deliver b => (s.onDeliverBlk b).map (·.2)
  | .propose cmds parents extra => s.onPropose H cmds parents extra
  | .receiveProposal r b => s.onReceiveProposal r b
  | .receiveVote v => s.onReceiveVote v
  | .prune k rel => s.prune rel k

/-- The states a run reaches from `s0` with calls allowed by `A`. -/
inductive Reachable (A : Core → Input → Prop) (s0 : Core) : Core → Prop
  | refl : Reachable A s0 s0
  | tail {s s' : Core} (i : Input) : Reachable A s0 s → A s i → exec H s i = .ok s' →
      Reachable A s0 s'

theorem Reachable.induct_on {A : Core → Input → Prop} {s0 s : Core} {P : Core → Prop}
    (hr : Reachable H A s0 s) (h0 : P s0)
    (hs : ∀ s s' i, Reachable H A s0 s → P s → A s i → exec H s i = .ok s' → P s') : P s := by
  induction hr with
  | refl => exact h0
  | tail i hr ha he ih => exact hs _ _ i hr ih ha he

theorem Reachable.trans {A : Core → Input → Prop} {s0 s1 s2 : Core} (h1 : Reachable H A s0 s1)
    (h2 : Reachable H A s1 s2) : Reachable H A s0 s2 := by
  induction h2 with
  | refl => exact h1
  | tail i _ ha he ih => exact ih.tail i ha he

theorem Reachable.mono {A A' : Core → Input → Prop} (hA : ∀ s i, A s i → A' s i) {s0 s : Core}
    (hr : Reachable H A s0 s) : Reachable H A' s0 s := by
  induction hr with
  | refl => exact .refl
  | tail i _ ha he ih => exact ih.tail i (hA _ _ ha) he

theorem Reachable.single {A : Core → Input → Prop} {s s' : Core} {i : Input} (ha : A s i)
    (he : exec H s i = .ok s') : Reachable H A s s' :=
  Reachable.refl.tail i ha he

/-- The state a run of valid calls from `s` reaches, or `none` when a call is not valid
or does not return. -/
def runFrom (s : Core) : List Input → Option Core
  | [] => some s
  | i :: is =>
    if i.Valid s then
      match exec H s i with
      | .ok s' => runFrom s' is
      | .error _ => none
    else none

theorem reachable_of_runFrom_mem {A : Core → Input → Prop} : ∀ (s : Core) (is : List Input) {s' : Core},
    (∀ s, ∀ i ∈ is, i.Valid s → A s i) → runFrom H s is = some s' → Reachable H A s s'
  | _, [], _, _, h => by cases h; exact .refl
  | s, i :: is, s', hA, h => by
    unfold runFrom at h
    split_ifs at h with hv
    split at h
    · exact (Reachable.single H (hA s i (List.mem_cons_self _ _) hv) ‹_›).trans H
        (reachable_of_runFrom_mem _ is (fun s j hj => hA s j (List.mem_cons_of_mem _ hj)) h)
    · cases h

theorem reachable_of_runFrom (s : Core) (is : List Input) {s' : Core} (h : runFrom H s is = some s') :
    Reachable H Input.Valid s s' :=
  reachable_of_runFrom_mem H s is (fun _ _ _ hv => hv) h

theorem reachable_noPrune_of_runFrom (s : Core) (is : List Input) {s' : Core}
    (hp : ∀ i ∈ is, ∀ k rel, i ≠ .prune k rel) (h : runFrom H s is = some s') :
    Reachable H Input.NoPrune s s' :=
  reachable_of_runFrom_mem H s is (fun _ i hi hv => ⟨hv, hp i hi⟩) h

/-- Fetching and delivering the chain `A1 … An` on genesis: `Ak` has `A(k-1)` as its parent
and its certificate, command `10 + k` and `extra = [k]`, so that `extraHash` hashes it to `k`. -/
def chainInputs (n : Nat) : List Input :=
  (List.range n).flatMap fun k => [.fetch ⟨[k], [k + 11], some ⟨k, [], true⟩, [k + 1]⟩, .deliver (k + 1)]

theorem chainInputs_ne_prune {n : Nat} {i : Input} (hi : i ∈ chainInputs n) (k : Nat) (rel : Ptr → Bool) :
    i ≠ .prune k rel := by
  obtain ⟨_, _, hi⟩ := List.mem_flatMap.mp hi
  rcases List.mem_cons.mp hi with rfl | hi
  · exact Input.noConfusion
  · rw [List.mem_singleton.mp hi]; exact Input.noConfusion

end HotStuff
