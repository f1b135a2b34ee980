import HotStuff.Wf

/-!
# What `prune` releases

The loop of `prune` walks depth first over an explicit stack and deletes each parent
edge as it follows it. It follows every edge out of every block it reaches, so when the
stack is empty it has emptied the parent list of exactly the blocks reachable from
`start` through parent edges of the core it started from (`Ancestor`, uncles included),
cleared the `qc_ref` of `start` and of every such block that had parents, and handed
each of them to `try_release_blk`; every other block is as it was, and the storage has
lost only the hashes of blocks it released.

Each turn either pops the stack or moves one parent edge onto it, so twice the number
of edges and one more turn are enough: the fuel `prune` gives its loop never runs out.
-/

namespace HotStuff
namespace Core

/-! ## Counting edges -/

theorem foldr_add_range_congr {f g : Nat → Nat} {n : Nat} (h : ∀ q < n, f q = g q) :
    ((List.range n).map f).foldr (· + ·) 0 = ((List.range n).map g).foldr (· + ·) 0 := by
  rw [List.map_congr_left fun q hq => h q (List.mem_range.mp hq)]

theorem foldr_add_range_pred {f g : Nat → Nat} :
    ∀ {n b : Nat}, b < n → (∀ q < n, q ≠ b → f q = g q) → f b + 1 = g b →
      ((List.range n).map f).foldr (· + ·) 0 + 1 = ((List.range n).map g).foldr (· + ·) 0
  | 0, _, hb, _, _ => absurd hb (Nat.not_lt_zero _)
  | n + 1, 0, _, hq, hg => by
    simp only [List.range_succ_eq_map, List.map_cons, List.foldr_cons, List.map_map]
    rw [foldr_add_range_congr (f := f ∘ Nat.succ) (g := g ∘ Nat.succ) fun q hq' =>
      hq _ (Nat.succ_lt_succ hq') (Nat.succ_ne_zero q)]
    omega
  | n + 1, b + 1, hb, hq, hg => by
    simp only [List.range_succ_eq_map, List.map_cons, List.foldr_cons, List.map_map]
    have := foldr_add_range_pred (f := f ∘ Nat.succ) (g := g ∘ Nat.succ) (Nat.lt_of_succ_lt_succ hb)
      (fun q hq' hne => hq _ (Nat.succ_lt_succ hq') fun h => hne (Nat.succ.inj h)) hg
    rw [hq 0 (Nat.succ_pos n) (Nat.succ_ne_zero b).symm]
    omega

theorem edges_modBlk {c : Core} {b : Ptr} {f : Block → Block} (hb : b < c.next)
    (hf : (f (c.heap b)).parents.length + 1 = (c.heap b).parents.length) :
    (c.modBlk b f).edges + 1 = c.edges :=
  foldr_add_range_pred hb (fun q _ hq => by simp [hq]) (by simpa using hf)

theorem edges_tryReleaseBlk (rel : Ptr → Bool) (c : Core) (b : Ptr) :
    (c.tryReleaseBlk rel b).edges = c.edges := by
  unfold tryReleaseBlk; split <;> rfl

theorem edges_clear (s : Core) (b : Ptr) : (s.modBlk b fun x => { x with qcRef := none }).edges = s.edges :=
  foldr_add_range_congr fun q _ => by by_cases h : q = b <;> simp [h]

/-! ## Ancestry -/

/-- `a` is `b`, or is reached from `b` through parent edges, uncles included. -/
inductive Ancestor (s : Core) (b : Ptr) : Ptr → Prop
  | refl : Ancestor s b b
  | parent {q a : Ptr} : Ancestor s b q → a ∈ (s.heap q).parents → Ancestor s b a

theorem Ancestor.lt {s : Core} (hw : s.Wf) {b a : Ptr} (hb : b < s.next) (h : s.Ancestor b a) :
    a < s.next := by
  induction h with
  | refl => exact hb
  | parent _ ha ih => exact (hw.obj _ ih).parents_lt _ ha

theorem Ancestor.eq_of_nil {s : Core} {b a : Ptr} (hb : (s.heap b).parents = []) (h : s.Ancestor b a) :
    a = b := by
  induction h with
  | refl => rfl
  | parent _ ha ih => subst ih; simp [hb] at ha

theorem Ancestor.transfer {s s' : Core} (he : ∀ q, (s.heap q).parents ⊆ (s'.heap q).parents) {b a : Ptr}
    (h : s.Ancestor b a) : s'.Ancestor b a := by
  induction h with
  | refl => exact .refl
  | parent _ ha ih => exact ih.parent (he _ ha)

theorem Ancestor.cut {s s' : Core} {b a : Ptr}
    (he : ∀ q y, y ∈ (s.heap q).parents → y ∈ (s'.heap q).parents ∨ q = b ∧ y = a) {x p : Ptr}
    (h : s.Ancestor x p) : s'.Ancestor x p ∨ s'.Ancestor a p := by
  induction h with
  | refl => exact .inl .refl
  | @parent q y _ hy ih =>
    rcases he q y hy with hy' | ⟨rfl, rfl⟩
    · exact ih.imp (·.parent hy') (·.parent hy')
    · exact .inr .refl

/-- The references the core itself keeps to an object: `b0`, `bexec`, `hqc`, `tails`,
and the `parents` and `qc_ref` of every object. `try_release_blk` drops a block only
when its count is 2, the storage's and the stack's, so never while one of these is left. -/
def Held (s : Core) (b : Ptr) : Prop :=
  b = s.b0 ∨ b = s.bexec ∨ b = s.hqc.1 ∨ b ∈ s.tails ∨
    ∃ q < s.next, b ∈ (s.heap q).parents ∨ (s.heap q).qcRef = some b

instance (s : Core) (b : Ptr) : Decidable (s.Held b) := inferInstanceAs (Decidable (_ ∨ _))

/-! ## The loop -/

/-- A block the loop is through with: its parent list is empty and, when `rel` lets
`try_release_blk` drop it, its hash has left the storage. -/
def Released (rel : Ptr → Bool) (c : Core) (p : Ptr) : Prop :=
  (c.heap p).parents = [] ∧ (rel p = true → c.storage (c.heap p).hash = none)

/-- Where the loop stands, against the core `s` that `prune` started from on `start`:
it has only written to ancestors of `start`, only cut parent lists from the back and
cleared `qc_ref`s, only released ancestors, and every ancestor is done with or still
reachable from the stack. -/
structure PruneInv (rel : Ptr → Bool) (s : Core) (start : Ptr) (c : Core) (stk : List Ptr) :
    Prop where
  next : c.next = s.next
  stack : ∀ b ∈ stk, s.Ancestor start b
  hash : ∀ p, (c.heap p).hash = (s.heap p).hash
  frame : ∀ p, ¬ s.Ancestor start p → c.heap p = s.heap p
  parents : ∀ p, (c.heap p).parents <+: (s.heap p).parents
  qcRef : ∀ p, p = start ∨ (c.heap p).parents ≠ (s.heap p).parents → (c.heap p).qcRef = none
  storage : ∀ h, c.storage h = s.storage h ∨
    c.storage h = none ∧ ∃ p, s.Ancestor start p ∧ rel p = true ∧ (s.heap p).hash = h
  pending : ∀ p, s.Ancestor start p → Released rel c p ∨ ∃ x ∈ stk, c.Ancestor x p

theorem pruneInv_start (rel : Ptr → Bool) (s : Core) (start : Ptr) :
    PruneInv rel s start (s.modBlk start fun x => { x with qcRef := none }) [start] where
  next := rfl
  stack b hb := by rw [List.mem_singleton.mp hb]; exact .refl
  hash p := by by_cases h : p = start <;> simp [h]
  frame p hp := by simp [show p ≠ start from fun h => hp (h ▸ .refl)]
  parents p := by by_cases h : p = start <;> simp [h]
  qcRef p hp := by
    by_cases h : p = start
    · simp [h]
    · simp [h] at hp
  storage _ := .inl rfl
  pending p hp := .inr ⟨start, List.mem_singleton_self _,
    hp.transfer fun q => by by_cases h : q = start <;> simp [h]⟩

theorem PruneInv.pop {rel : Ptr → Bool} {s c : Core} {start b : Ptr} {stk : List Ptr}
    (hi : PruneInv rel s start c (b :: stk)) (hb : (c.heap b).parents = []) :
    PruneInv rel s start (c.tryReleaseBlk rel b) stk := by
  have hheap : (c.tryReleaseBlk rel b).heap = c.heap := by unfold tryReleaseBlk; split <;> rfl
  have hnext : (c.tryReleaseBlk rel b).next = c.next := by unfold tryReleaseBlk; split <;> rfl
  have hst : ∀ h, (c.tryReleaseBlk rel b).storage h = c.storage h ∨
      (c.tryReleaseBlk rel b).storage h = none ∧ rel b = true ∧ (c.heap b).hash = h := fun h => by
    unfold tryReleaseBlk
    split
    · by_cases he : h = (c.heap b).hash <;> simp_all
    · exact .inl rfl
  have hsb := hi.stack b (List.mem_cons_self _ _)
  refine ⟨hnext.trans hi.next, fun x hx => hi.stack x (List.mem_cons_of_mem _ hx), hheap ▸ hi.hash,
    hheap ▸ hi.frame, hheap ▸ hi.parents, hheap ▸ hi.qcRef, fun h => ?_, fun p hp => ?_⟩
  · rcases hst h with he | ⟨he, hr, rfl⟩
    · rw [he]; exact hi.storage _
    · exact .inr ⟨he, b, hsb, hr, (hi.hash b).symm⟩
  · have hnone : ∀ h, c.storage h = none → (c.tryReleaseBlk rel b).storage h = none := fun h h0 => by
      rcases hst h with he | ⟨he, -⟩ <;> rw [he]; exact h0
    rcases hi.pending p hp with ⟨hnil, hrel⟩ | ⟨x, hx, hxp⟩
    · exact .inl ⟨hheap ▸ hnil, fun hr => hheap ▸ hnone _ (hrel hr)⟩
    rcases List.mem_cons.mp hx with hxb | hx
    · have hpb : p = b := (hxb ▸ hxp).eq_of_nil hb
      subst hpb
      exact .inl ⟨hheap ▸ hb, fun hr => by rw [hheap]; simp [tryReleaseBlk, hr]⟩
    · exact .inr ⟨x, hx, hxp.transfer fun q => by rw [hheap]; exact List.Subset.refl _⟩

theorem PruneInv.push {rel : Ptr → Bool} {s c : Core} {start b a : Ptr} {stk : List Ptr}
    (hi : PruneInv rel s start c (b :: stk)) (ha : (c.heap b).parents.getLast? = some a) :
    PruneInv rel s start (c.modBlk b fun x => { x with qcRef := none, parents := x.parents.dropLast })
      (a :: b :: stk) := by
  have hsb := hi.stack b (List.mem_cons_self _ _)
  have hcut := List.dropLast_append_getLast? a ha
  have hne : (c.heap b).parents ≠ [] := fun h => by simp [h] at ha
  have hedge : ∀ q y, y ∈ (c.heap q).parents →
      y ∈ ((c.modBlk b fun x => { x with qcRef := none, parents := x.parents.dropLast }).heap q).parents ∨
        q = b ∧ y = a := fun q y hy => by
    by_cases hq : q = b
    · subst hq
      rw [← hcut, List.mem_append, List.mem_singleton] at hy
      rcases hy with hy | rfl
      · exact .inl (by simpa using hy)
      · exact .inr ⟨rfl, rfl⟩
    · exact .inl (by simpa [hq] using hy)
  refine ⟨hi.next, fun x hx => ?_, fun p => ?_, fun p hp => ?_, fun p => ?_, fun p hp => ?_,
    hi.storage, fun p hp => ?_⟩
  · rcases List.mem_cons.mp hx with rfl | hx
    · have hmem : x ∈ (c.heap b).parents := by rw [← hcut]; simp
      exact hsb.parent ((hi.parents b).subset hmem)
    · exact hi.stack x hx
  · by_cases h : p = b <;> simp [h, hi.hash]
  · have h : p ≠ b := fun h => hp (h ▸ hsb)
    simp [h, hi.frame p hp]
  · by_cases h : p = b
    · subst h; simpa using (List.dropLast_prefix _).trans (hi.parents p)
    · simpa [h] using hi.parents p
  · by_cases h : p = b
    · simp [h]
    · simp only [modBlk_heap, h, if_false] at hp ⊢
      exact hi.qcRef p hp
  · rcases hi.pending p hp with ⟨hnil, hrel⟩ | ⟨x, hx, hxp⟩
    · have h : p ≠ b := fun h => hne (h ▸ hnil)
      exact .inl ⟨by simpa [h] using hnil, fun hr => by simpa [h] using hrel hr⟩
    rcases hxp.cut hedge with h' | h'
    · exact .inr ⟨x, List.mem_cons_of_mem _ hx, h'⟩
    · exact .inr ⟨a, List.mem_cons_self _ _, h'⟩

/-- The loop returns, and where it ends every ancestor of `start` is done with. -/
theorem PruneInv.loop {rel : Ptr → Bool} {s : Core} {start : Ptr} (hw : s.Wf) (hs : start < s.next) :
    ∀ (fuel : Nat) (c : Core) (stk : List Ptr), PruneInv rel s start c stk →
      2 * c.edges + stk.length < fuel → ∃ c', pruneLoop rel fuel c stk = .ok c' ∧ PruneInv rel s start c' []
  | 0, _, _, _, h => absurd h (Nat.not_lt_zero _)
  | _ + 1, c, [], hi, _ => ⟨c, rfl, hi⟩
  | fuel + 1, c, b :: stk, hi, hlt => by
    have hb : b < c.next := hi.next ▸ (hi.stack b (List.mem_cons_self _ _)).lt hw hs
    rw [List.length_cons] at hlt
    unfold pruneLoop
    split
    · rename_i hnone
      refine PruneInv.loop hw hs fuel _ stk (hi.pop (List.getLast?_eq_none_iff.mp hnone)) ?_
      rw [edges_tryReleaseBlk]; omega
    · rename_i a ha
      have hne : (c.heap b).parents ≠ [] := fun h => by simp [h] at ha
      have he := edges_modBlk (f := fun x => { x with qcRef := none, parents := x.parents.dropLast }) hb
        (by simp only [List.length_dropLast]; have := List.length_pos.mpr hne; omega)
      refine PruneInv.loop hw hs fuel _ _ (hi.push ha) ?_
      rw [List.length_cons, List.length_cons]; omega

theorem pruneStart_lt {s : Core} (hw : s.Wf) : ∀ {k : Nat} {b start : Ptr}, b < s.next →
    s.pruneStart k b = some start → start < s.next
  | 0, _, _, hb, h => by cases h; exact hb
  | k + 1, b, start, hb, h => by
    unfold pruneStart at h
    split at h
    · cases h
    · rename_i a rest hp
      exact pruneStart_lt hw (hw.parent hb hp).1 h

/-- The skip loop takes `k` steps to the first parent, and gives up on a block without
parents. -/
theorem pruneStart_eq_iterate (s : Core) (k : Nat) (b : Ptr) :
    s.pruneStart k b = (fun o : Option Ptr => o.bind fun a => (s.heap a).parents.head?)^[k] (some b) := by
  induction k generalizing b with
  | zero => rfl
  | succ k ih =>
    rw [Function.iterate_succ_apply, Option.some_bind]
    unfold pruneStart
    cases (s.heap b).parents with
    | nil => exact (Function.iterate_fixed rfl k).symm
    | cons a _ => exact ih a

/-- `prune(k)` returns. When one of the first `k` steps down the primary chain from
`bexec` meets a block without parents it changes nothing. Otherwise, from `start`, the
`k`-th block down that chain, it empties the parent list of every block reachable from
`start` through parent edges, clears the `qc_ref` of `start` and of every such block
that had parents, and hands each such block to `try_release_blk`; every other block is
left as it was, and the storage loses only hashes of such blocks. -/
theorem prune_releases_ancestry {s : Core} (hw : s.Wf) (rel : Ptr → Bool) (k : Nat) :
    ∃ s', s.prune rel k = .ok s' ∧ (s.pruneStart k s.bexec = none → s' = s) ∧
      ∀ start, s.pruneStart k s.bexec = some start →
        (s'.heap start).qcRef = none ∧
        (∀ p, s.Ancestor start p → (s'.heap p).parents = [] ∧
          ((s.heap p).parents ≠ [] → (s'.heap p).qcRef = none) ∧
          (rel p = true → s'.storage (s.heap p).hash = none)) ∧
        (∀ p, ¬ s.Ancestor start p → s'.heap p = s.heap p) ∧
        ∀ h, s'.storage h = s.storage h ∨
          s'.storage h = none ∧ ∃ p, s.Ancestor start p ∧ rel p = true ∧ (s.heap p).hash = h := by
  unfold prune
  cases hst : s.pruneStart k s.bexec with
  | none => exact ⟨s, rfl, fun _ => rfl, fun _ h => nomatch h⟩
  | some start =>
    have hs := pruneStart_lt hw hw.roots.bexec_lt hst
    obtain ⟨c, hc, hi⟩ := PruneInv.loop hw hs (2 * s.edges + 2) _ _ (pruneInv_start rel s start)
      (by rw [edges_clear, List.length_singleton]; omega)
    refine ⟨c, hc, (nomatch ·), fun st h => ?_⟩
    cases h
    refine ⟨hi.qcRef _ (.inl rfl), fun p hp => ?_, hi.frame, hi.storage⟩
    obtain ⟨hnil, hrel⟩ := (hi.pending p hp).resolve_right (by simp)
    refine ⟨hnil, fun hne => hi.qcRef p (.inr fun h => hne (h ▸ hnil)), fun hr => ?_⟩
    rw [← hi.hash p]; exact hrel hr

/-- After the chain `A1 … A6` is delivered and the proposal of `A6` commits `A1 … A4`,
`prune(1)` starts one step below `bexec = A4`, at `A3`. -/
theorem prune_releases_ancestry_chain :
    ∃ s, Reachable extraHash Input.Valid (init extraHash 0 [0, 1, 2, 3] 1) s ∧ s.bexec = 4 ∧
      s.pruneStart 1 s.bexec = some 3 ∧
      ∃ s', s.prune (fun b => decide (b = 1 ∨ b = 2)) 1 = .ok s' ∧ (s.pruneStart 1 s.bexec = none → s' = s) ∧
        ∀ start, s.pruneStart 1 s.bexec = some start →
          (s'.heap start).qcRef = none ∧
          (∀ p, s.Ancestor start p → (s'.heap p).parents = [] ∧
            ((s.heap p).parents ≠ [] → (s'.heap p).qcRef = none) ∧
            ((fun b => decide (b = 1 ∨ b = 2)) p = true → s'.storage (s.heap p).hash = none)) ∧
          (∀ p, ¬ s.Ancestor start p → s'.heap p = s.heap p) ∧
          ∀ h, s'.storage h = s.storage h ∨ s'.storage h = none ∧
            ∃ p, s.Ancestor start p ∧ (fun b => decide (b = 1 ∨ b = 2)) p = true ∧ (s.heap p).hash = h :=
  have hr := reachable_of_runFrom extraHash (init extraHash 0 [0, 1, 2, 3] 1)
    (chainInputs 6 ++ [Input.receiveProposal 1 6]) rfl
  ⟨_, hr, rfl, rfl, prune_releases_ancestry (reachable_wf (fun _ _ h => h) hr) _ 1⟩

end Core
end HotStuff
