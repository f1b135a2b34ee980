import HotStuff.Run

/-!
# Well-formed replica states

Every reachable state is `Wf`: pointers name allocated objects, the storage maps a
hash to an object with that hash, a block that is not delivered is as
`Block::unserialize` left it, and a block's height is one above its primary parent's,
which is delivered. `prune` empties parent lists but clears `qc_ref` first, so a
block that still has its `qc_ref` and is not decided keeps a primary parent (`live`).
The replica's own pointers (`b0`, `bexec`, `hqc.first`) name delivered blocks, the
first two decided.

Each call is taken apart into the few kinds of write it makes to an object, and
well-formedness is shown for each kind once.
-/

namespace HotStuff
namespace Core

/-- What every allocated object of a reachable state satisfies. -/
structure ObjOk (heap : Ptr → Block) (next : Nat) (q : Ptr) : Prop where
  parents_lt : ∀ a ∈ (heap q).parents, a < next
  qcRef_lt : ∀ a, (heap q).qcRef = some a → a < next
  fresh : (heap q).delivered = false →
    (heap q).qcRef = none ∧ (heap q).height = 0 ∧ (heap q).parents = []
  parent : ∀ a rest, (heap q).parents = a :: rest →
    (heap a).delivered = true ∧ (heap q).height = (heap a).height + 1
  live : (heap q).qcRef ≠ none → (heap q).decision = false → (heap q).parents ≠ []
  qc_none : (heap q).data.qc = none → (heap q).qcRef = none

/-- What the storage and the replica's own pointers satisfy. -/
structure Roots (heap : Ptr → Block) (next : Nat) (storage : Hash → Option Ptr)
    (b0 bexec hqc : Ptr) : Prop where
  storage : ∀ h p, storage h = some p → p < next ∧ (heap p).hash = h
  b0_lt : b0 < next
  b0_delivered : (heap b0).delivered = true
  b0_decision : (heap b0).decision = true
  b0_height : (heap b0).height = 0
  bexec_lt : bexec < next
  bexec_delivered : (heap bexec).delivered = true
  bexec_decision : (heap bexec).decision = true
  hqc_lt : hqc < next
  hqc_delivered : (heap hqc).delivered = true

structure Wf (s : Core) : Prop where
  obj : ∀ q < s.next, ObjOk s.heap s.next q
  roots : Roots s.heap s.next s.storage s.b0 s.bexec s.hqc.1

theorem Wf.parent {s : Core} (hw : s.Wf) {q a : Ptr} {rest : List Ptr} (hq : q < s.next)
    (hp : (s.heap q).parents = a :: rest) :
    a < s.next ∧ (s.heap a).delivered = true ∧ (s.heap q).height = (s.heap a).height + 1 :=
  ⟨(hw.obj q hq).parents_lt a (by simp [hp]), (hw.obj q hq).parent a rest hp⟩

/-! ## Writes that leave the shape of an object alone -/

/-- A write to an object that changes none of the fields well-formedness is about and
keeps a decision once taken. -/
structure KeepsShape (f : Block → Block) : Prop where
  data : ∀ x, (f x).data = x.data
  hash : ∀ x, (f x).hash = x.hash
  parents : ∀ x, (f x).parents = x.parents
  qcRef : ∀ x, (f x).qcRef = x.qcRef
  height : ∀ x, (f x).height = x.height
  delivered : ∀ x, (f x).delivered = x.delivered
  decision : ∀ x, x.decision = true → (f x).decision = true

section KeepsShape

variable {f : Block → Block} (hf : KeepsShape f) (s : Core) (b q : Ptr)
include hf

theorem KeepsShape.heap_parents : ((s.modBlk b f).heap q).parents = (s.heap q).parents := by
  by_cases h : q = b <;> simp [h, hf.parents]

theorem KeepsShape.heap_qcRef : ((s.modBlk b f).heap q).qcRef = (s.heap q).qcRef := by
  by_cases h : q = b <;> simp [h, hf.qcRef]

theorem KeepsShape.heap_height : ((s.modBlk b f).heap q).height = (s.heap q).height := by
  by_cases h : q = b <;> simp [h, hf.height]

theorem KeepsShape.heap_delivered : ((s.modBlk b f).heap q).delivered = (s.heap q).delivered := by
  by_cases h : q = b <;> simp [h, hf.delivered]

theorem KeepsShape.heap_data : ((s.modBlk b f).heap q).data = (s.heap q).data := by
  by_cases h : q = b <;> simp [h, hf.data]

theorem KeepsShape.heap_hash : ((s.modBlk b f).heap q).hash = (s.heap q).hash := by
  by_cases h : q = b <;> simp [h, hf.hash]

theorem KeepsShape.heap_decision (hd : (s.heap q).decision = true) :
    ((s.modBlk b f).heap q).decision = true := by
  by_cases h : q = b
  · simp [h, hf.decision _ (h ▸ hd)]
  · simp [h, hd]

theorem KeepsShape.heap_decision_false (hd : ((s.modBlk b f).heap q).decision = false) :
    (s.heap q).decision = false := by
  cases h : (s.heap q).decision
  · rfl
  · rw [hf.heap_decision s b q h] at hd; cases hd

theorem KeepsShape.objOk {s : Core} {b q : Ptr} (ho : ObjOk s.heap s.next q) :
    ObjOk (s.modBlk b f).heap (s.modBlk b f).next q where
  parents_lt a ha := ho.parents_lt a (by rwa [hf.heap_parents] at ha)
  qcRef_lt a ha := ho.qcRef_lt a (by rwa [hf.heap_qcRef] at ha)
  fresh hd := by
    rw [hf.heap_delivered] at hd
    simpa only [hf.heap_qcRef, hf.heap_height, hf.heap_parents] using ho.fresh hd
  parent a rest hp := by
    rw [hf.heap_parents] at hp
    simpa only [hf.heap_delivered, hf.heap_height] using ho.parent a rest hp
  live hq hd := by
    rw [hf.heap_qcRef] at hq
    rw [hf.heap_parents]
    exact ho.live hq (hf.heap_decision_false s b q hd)
  qc_none h := by
    rw [hf.heap_data] at h
    rw [hf.heap_qcRef]
    exact ho.qc_none h

theorem KeepsShape.roots {s : Core} {b : Ptr} (hr : Roots s.heap s.next s.storage s.b0 s.bexec s.hqc.1) :
    Roots (s.modBlk b f).heap (s.modBlk b f).next (s.modBlk b f).storage (s.modBlk b f).b0
      (s.modBlk b f).bexec (s.modBlk b f).hqc.1 where
  storage h p hp := by
    obtain ⟨h1, h2⟩ := hr.storage h p hp
    exact ⟨h1, by rw [hf.heap_hash, h2]⟩
  b0_lt := hr.b0_lt
  b0_delivered := by rw [modBlk_b0, hf.heap_delivered]; exact hr.b0_delivered
  b0_decision := hf.heap_decision s b _ hr.b0_decision
  b0_height := by rw [modBlk_b0, hf.heap_height]; exact hr.b0_height
  bexec_lt := hr.bexec_lt
  bexec_delivered := by rw [modBlk_bexec, hf.heap_delivered]; exact hr.bexec_delivered
  bexec_decision := hf.heap_decision s b _ hr.bexec_decision
  hqc_lt := hr.hqc_lt
  hqc_delivered := by rw [modBlk_hqc, hf.heap_delivered]; exact hr.hqc_delivered

theorem KeepsShape.wf {s : Core} {b : Ptr} (hw : s.Wf) : (s.modBlk b f).Wf :=
  ⟨fun q hq => hf.objOk (hw.obj q hq), hf.roots hw.roots⟩

end KeepsShape

theorem keepsShape_decide : KeepsShape fun x => { x with decision := true } :=
  ⟨fun _ => rfl, fun _ => rfl, fun _ => rfl, fun _ => rfl, fun _ => rfl, fun _ => rfl, fun _ _ => rfl⟩

theorem keepsShape_vote (g : List ReplicaID → List ReplicaID)
    (c : Option QuorumCert → Option QuorumCert) :
    KeepsShape fun x => { x with voted := g x.voted, selfQc := c x.selfQc } :=
  ⟨fun _ => rfl, fun _ => rfl, fun _ => rfl, fun _ => rfl, fun _ => rfl, fun _ => rfl, fun _ h => h⟩

/-! ## Writes to the replica's own fields -/

theorem Wf.emit {s : Core} (hw : s.Wf) (e : Effect) : (s.emit e).Wf := ⟨hw.obj, hw.roots⟩

theorem Wf.setHqc {s : Core} (hw : s.Wf) {b : Ptr} (hb : b < s.next)
    (hd : (s.heap b).delivered = true) (qc : QuorumCert) : { s with hqc := (b, qc) }.Wf :=
  ⟨hw.obj, { hw.roots with hqc_lt := hb, hqc_delivered := hd }⟩

theorem Wf.setBexec {s : Core} (hw : s.Wf) {b : Ptr} (hb : b < s.next)
    (hd : (s.heap b).delivered = true) (hdec : (s.heap b).decision = true) :
    { s with bexec := b }.Wf :=
  ⟨hw.obj, { hw.roots with bexec_lt := hb, bexec_delivered := hd, bexec_decision := hdec }⟩

theorem ObjOk.transfer {heap heap' : Ptr → Block} {next next' : Nat} {q : Ptr}
    (ho : ObjOk heap next q) (hle : next ≤ next') (hq : heap' q = heap q)
    (hd : ∀ a < next, (heap a).delivered = true →
      (heap' a).delivered = true ∧ (heap' a).height = (heap a).height) : ObjOk heap' next' q where
  parents_lt a ha := by rw [hq] at ha; exact lt_of_lt_of_le (ho.parents_lt a ha) hle
  qcRef_lt a ha := by rw [hq] at ha; exact lt_of_lt_of_le (ho.qcRef_lt a ha) hle
  fresh h := by rw [hq] at h ⊢; exact ho.fresh h
  parent a rest hp := by
    rw [hq] at hp ⊢
    have ha := ho.parent a rest hp
    obtain ⟨h1, h2⟩ := hd a (ho.parents_lt a (by simp [hp])) ha.1
    exact ⟨h1, by rw [h2]; exact ha.2⟩
  live := by rw [hq]; exact ho.live
  qc_none := by rw [hq]; exact ho.qc_none

theorem ObjOk.of_fresh {heap : Ptr → Block} {next : Nat} {q : Ptr} (hp : (heap q).parents = [])
    (hq : (heap q).qcRef = none) (hh : (heap q).height = 0) : ObjOk heap next q where
  parents_lt a ha := by simp [hp] at ha
  qcRef_lt a ha := by simp [hq] at ha
  fresh _ := ⟨hq, hh, hp⟩
  parent a rest ha := by simp [hp] at ha
  live h := absurd hq h
  qc_none _ := hq

theorem Roots.transfer {heap heap' : Ptr → Block} {next : Nat} {storage : Hash → Option Ptr}
    {b0 bexec hqc : Ptr} (hr : Roots heap next storage b0 bexec hqc)
    (hh : ∀ q, (heap' q).hash = (heap q).hash)
    (hk : ∀ q, (heap q).delivered = true → (heap' q).height = (heap q).height ∧
      (heap' q).delivered = true ∧ (heap' q).decision = (heap q).decision) :
    Roots heap' next storage b0 bexec hqc where
  storage h p hp := by rw [hh p]; exact hr.storage h p hp
  b0_lt := hr.b0_lt
  b0_delivered := (hk b0 hr.b0_delivered).2.1
  b0_decision := (hk b0 hr.b0_delivered).2.2.trans hr.b0_decision
  b0_height := (hk b0 hr.b0_delivered).1.trans hr.b0_height
  bexec_lt := hr.bexec_lt
  bexec_delivered := (hk bexec hr.bexec_delivered).2.1
  bexec_decision := (hk bexec hr.bexec_delivered).2.2.trans hr.bexec_decision
  hqc_lt := hr.hqc_lt
  hqc_delivered := (hk hqc hr.hqc_delivered).2.1

/-! ## Lookups -/

theorem getDeliveredBlk_ok {s : Core} {h : Hash} {p : Ptr} (hg : s.getDeliveredBlk h = .ok p) :
    s.storage h = some p ∧ (s.heap p).delivered = true := by
  unfold getDeliveredBlk at hg
  split at hg
  · split at hg
    · cases hg; exact ⟨by assumption, by assumption⟩
    · cases hg
  · cases hg

theorem getDeliveredBlks_ok {s : Core} :
    ∀ {hs : List Hash} {ps : List Ptr}, s.getDeliveredBlks hs = .ok ps →
      List.Forall₂ (fun h p => s.storage h = some p) hs ps ∧
      ∀ p ∈ ps, ∃ h, s.storage h = some p ∧ (s.heap p).delivered = true
  | [], ps, hg => by cases hg; exact ⟨.nil, by simp⟩
  | h :: hs, ps, hg => by
    obtain ⟨p, hp, qs, hq, rfl⟩ := by simpa [getDeliveredBlks] using hg
    have h1 := getDeliveredBlk_ok hp
    have h2 := getDeliveredBlks_ok hq
    refine ⟨.cons h1.1 h2.1, fun x hx => ?_⟩
    rcases List.mem_cons.mp hx with rfl | hx
    · exact ⟨h, h1⟩
    · exact h2.2 x hx

/-! ## `update_hqc` -/

theorem updateHqc_cases {s s' : Core} {blk : Ptr} {qc : Option QuorumCert}
    (h : s.updateHqc blk qc = .ok s') :
    s' = s ∨ (s.heap s.hqc.1).height < (s.heap blk).height ∧
      ∃ q, qc = some q ∧ s' = { s with hqc := (blk, q) }.emit .hqcUpdate := by
  unfold updateHqc at h
  split at h
  · split at h
    · cases h; exact .inr ⟨by assumption, _, rfl, rfl⟩
    · cases h
  · cases h; exact .inl rfl

theorem Wf.updateHqc {s s' : Core} (hw : s.Wf) {blk : Ptr} (hb : blk < s.next)
    {qc : Option QuorumCert} (h : s.updateHqc blk qc = .ok s') : s'.Wf := by
  rcases updateHqc_cases h with rfl | ⟨hlt, q, -, rfl⟩
  · exact hw
  · have hd : (s.heap blk).delivered = true := by
      by_contra hn
      have := ((hw.obj blk hb).fresh (by simpa using hn)).2.1
      omega
    exact (hw.setHqc hb hd q).emit _

/-! ## The primary-parent walk -/

/-- What the walk `for (b = from; b->height > h; b = b->parents[0])` does when it
returns: it stops on `e` after running its body on `q`. -/
inductive WalkPath (s : Core) (h : Nat) : Ptr → Ptr → List Ptr → Prop
  | stop {b : Ptr} : (s.heap b).height ≤ h → WalkPath s h b b []
  | step {b a e : Ptr} {rest q : List Ptr} : h < (s.heap b).height →
      (s.heap b).parents = a :: rest → WalkPath s h a e q → WalkPath s h b e (b :: q)

theorem walkDown_path {s : Core} {h : Nat} :
    ∀ {fuel : Nat} {b : Ptr} {r : Ptr × List Ptr}, s.walkDown h fuel b = .ok r →
      WalkPath s h b r.1 r.2
  | 0, _, _, hw => by cases hw
  | fuel + 1, b, r, hw => by
    unfold walkDown at hw
    split at hw
    · split at hw
      · cases hw
      · rename_i hlt _ a rest hp
        obtain ⟨e, q, hr', rfl⟩ := by simpa using hw
        exact .step hlt hp (walkDown_path hr')
    · cases hw; exact .stop (by omega)

theorem walk_path {s : Core} {b : Ptr} {h : Nat} {r : Ptr × List Ptr} (hw : s.walk b h = .ok r) :
    WalkPath s h b r.1 r.2 := walkDown_path hw

theorem WalkPath.wf {s : Core} (hw : s.Wf) {h : Nat} {b e : Ptr} {q : List Ptr}
    (hp : WalkPath s h b e q) (hb : b < s.next) (hd : (s.heap b).delivered = true) :
    e < s.next ∧ (s.heap e).delivered = true ∧ (s.heap e).height ≤ h ∧
      ∀ x ∈ q, x < s.next ∧ (s.heap x).delivered = true ∧ h < (s.heap x).height := by
  induction hp with
  | stop hle => exact ⟨hb, hd, hle, by simp⟩
  | step hlt hpar _ ih =>
    obtain ⟨ha, had, -⟩ := hw.parent hb hpar
    obtain ⟨h1, h2, h3, h4⟩ := ih ha had
    refine ⟨h1, h2, h3, fun x hx => ?_⟩
    rcases List.mem_cons.mp hx with rfl | hx
    · exact ⟨hb, hd, hlt⟩
    · exact h4 x hx

theorem WalkPath.eq_of_nil {s : Core} {h : Nat} {b e : Ptr} (hp : WalkPath s h b e []) : e = b := by
  cases hp; rfl

theorem WalkPath.head_mem {s : Core} {h : Nat} {b e x : Ptr} {q : List Ptr}
    (hp : WalkPath s h b e (x :: q)) : x = b := by
  cases hp; rfl

theorem WalkPath.append {s : Core} {h h' : Nat} {b e f : Ptr} {q r : List Ptr}
    (hp : WalkPath s h b e q) (hle : h' ≤ h) (hr : WalkPath s h' e f r) :
    WalkPath s h' b f (q ++ r) := by
  induction hp with
  | stop => exact hr
  | step hlt hpar _ ih => exact .step (by omega) hpar (ih hr)

theorem WalkPath.transfer {s s' : Core} {h : Nat} {b e : Ptr} {q : List Ptr}
    (hp : WalkPath s h b e q)
    (hk : ∀ x ∈ e :: q, (s'.heap x).height = (s.heap x).height ∧
      (s'.heap x).parents = (s.heap x).parents) : WalkPath s' h b e q := by
  induction hp with
  | stop hle => exact .stop (by rw [(hk _ (List.mem_cons_self _ _)).1]; exact hle)
  | @step b a e rest q hlt hpar _ ih =>
    have hb := hk b (by simp)
    exact .step (by rw [hb.1]; exact hlt) (by rw [hb.2]; exact hpar)
      (ih fun x hx => hk x (List.cons_subset_cons _ (List.subset_cons_self _ _) hx))

/-- The walk is deterministic: it names one chain. -/
theorem WalkPath.det {s : Core} {h : Nat} {b e e' : Ptr} {q q' : List Ptr}
    (hp : WalkPath s h b e q) (hp' : WalkPath s h b e' q') : e = e' ∧ q = q' := by
  induction hp generalizing q' with
  | stop hle =>
    cases hp' with
    | stop => exact ⟨rfl, rfl⟩
    | step hlt => omega
  | step hlt hpar _ ih =>
    cases hp' with
    | stop hle => omega
    | step _ hpar' hp'' =>
      rw [hpar] at hpar'
      cases hpar'
      obtain ⟨rfl, rfl⟩ := ih hp''
      exact ⟨rfl, rfl⟩

theorem not_walkPath_of_walk {s : Core} {b e : Ptr} {h : Nat} {r : Ptr × List Ptr}
    (hw : s.walk b h = .ok r) (hne : r.1 ≠ e) : ¬ ∃ q, WalkPath s h b e q :=
  fun ⟨_, hq⟩ => hne ((walk_path hw).det hq).1

/-! ## Commits -/

theorem Wf.commitBlk {s : Core} (hw : s.Wf) (b : Ptr) : (s.commitBlk b).Wf :=
  ⟨(keepsShape_decide.wf hw).obj, (keepsShape_decide.wf hw).roots⟩

theorem Wf.foldl_commitBlk {s : Core} (hw : s.Wf) (l : List Ptr) :
    (l.foldl Core.commitBlk s).Wf := by
  induction l generalizing s with
  | nil => exact hw
  | cons b l ih => exact ih (hw.commitBlk b)

@[simp] theorem commitBlk_next (s : Core) (b : Ptr) : (s.commitBlk b).next = s.next := rfl

@[simp] theorem commitBlk_bexec (s : Core) (b : Ptr) : (s.commitBlk b).bexec = s.bexec := rfl

theorem commitBlk_heap (s : Core) (b q : Ptr) :
    (s.commitBlk b).heap q = if q = b then { s.heap q with decision := true } else s.heap q := rfl

@[simp] theorem foldl_commitBlk_next (s : Core) (l : List Ptr) :
    (l.foldl commitBlk s).next = s.next := by
  induction l generalizing s with
  | nil => rfl
  | cons b l ih => exact ih _

theorem foldl_commitBlk_heap (s : Core) (l : List Ptr) (x : Ptr) :
    ∃ d, (l.foldl commitBlk s).heap x = { s.heap x with decision := d } := by
  induction l generalizing s with
  | nil => exact ⟨(s.heap x).decision, rfl⟩
  | cons b l ih =>
    obtain ⟨d, hd⟩ := ih (s.commitBlk b)
    rw [List.foldl_cons, hd, commitBlk_heap]
    by_cases hx : x = b <;> simp [hx]

theorem foldl_commitBlk_decision {s : Core} {l : List Ptr} {x : Ptr} :
    ((l.foldl commitBlk s).heap x).decision = true ↔ x ∈ l ∨ (s.heap x).decision = true := by
  induction l generalizing s with
  | nil => simp
  | cons b l ih =>
    rw [List.foldl_cons, ih, commitBlk_heap]
    by_cases hx : x = b <;> simp [hx]

theorem Wf.commit {s : Core} (hw : s.Wf) {queue : List Ptr} {p : Ptr} (hp : p < s.next)
    (hd : (s.heap p).delivered = true) (hdec : p ∈ queue ∨ (s.heap p).decision = true) :
    (s.commit queue p).Wf := by
  have h := hw.foldl_commitBlk queue.reverse
  have hdel : ((queue.reverse.foldl Core.commitBlk s).heap p).delivered = true := by
    obtain ⟨d, hx⟩ := foldl_commitBlk_heap s queue.reverse p
    rw [hx]; exact hd
  exact h.setBexec (by rw [foldl_commitBlk_next]; exact hp) hdel
    (foldl_commitBlk_decision.mpr (by simpa using hdec))

/-! ## `update` -/

/-- Everything `/* check for commit */` can do: nothing, or commit the walk from the
primary parent `p` of `blk` when it ends on `bexec`. -/
theorem checkCommit_cases {s s' : Core} {blk : Ptr} (h : s.checkCommit blk = .ok s') :
    s' = s ∨ ∃ p rest r, (s.heap blk).qcRef = some p ∧ (s.heap blk).decision = false ∧
      (s.heap blk).parents = p :: rest ∧ (s.heap p).decision = false ∧
      s.walk p (s.heap s.bexec).height = .ok r ∧ r.1 = s.bexec ∧ s' = s.commit r.2 p := by
  unfold checkCommit at h
  split_ifs at h with h1
  · cases h; exact .inl rfl
  · split at h
    · cases h
    · rename_i p rest hp
      split_ifs at h with h3
      · cases h; exact .inl rfl
      · obtain ⟨r, hr, h'⟩ := except_bind_eq_ok.mp h
        split_ifs at h' with h4
        · cases h'
          simp only [not_or, Bool.not_eq_true, ne_eq, not_not] at h1 h3
          exact .inr ⟨p, rest, r, h3.2, h1.2, hp, h3.1, hr, h4, rfl⟩

theorem Wf.checkCommit {s s' : Core} (hw : s.Wf) {blk : Ptr} (hb : blk < s.next)
    (h : s.checkCommit blk = .ok s') : s'.Wf := by
  rcases checkCommit_cases h with rfl | ⟨p, rest, r, -, -, hp, -, hr, he, rfl⟩
  · exact hw
  · obtain ⟨hplt, hpd, -⟩ := hw.parent hb hp
    refine hw.commit hplt hpd ?_
    obtain ⟨e, _ | ⟨x, q⟩⟩ := r
    · have := (walk_path hr).eq_of_nil
      exact .inr (by rw [← this, he]; exact hw.roots.bexec_decision)
    · exact .inl (by simp [← (walk_path hr).head_mem])

theorem update_cases {s s' : Core} {nblk : Ptr} (h : s.update nblk = .ok s') :
    ∃ blk s1, (s.heap nblk).qcRef = some blk ∧ s.updateHqc blk (s.heap nblk).data.qc = .ok s1 ∧
      s1.checkCommit blk = .ok s' := by
  unfold update at h
  split at h
  · cases h
  · rename_i blk hblk
    obtain ⟨s1, h1, h2⟩ := except_bind_eq_ok.mp h
    exact ⟨blk, s1, hblk, h1, h2⟩

theorem updateHqc_heap {s s' : Core} {blk : Ptr} {qc : Option QuorumCert}
    (h : s.updateHqc blk qc = .ok s') : s'.heap = s.heap ∧ s'.next = s.next ∧ s'.bexec = s.bexec := by
  rcases updateHqc_cases h with rfl | ⟨-, q, -, rfl⟩ <;> exact ⟨rfl, rfl, rfl⟩

theorem Wf.update {s s' : Core} (hw : s.Wf) {nblk : Ptr} (hn : nblk < s.next)
    (h : s.update nblk = .ok s') : s'.Wf := by
  obtain ⟨blk, s1, hblk, h1, h2⟩ := update_cases h
  have hb := (hw.obj nblk hn).qcRef_lt blk hblk
  exact (hw.updateHqc hb h1).checkCommit (by rw [(updateHqc_heap h1).2.1]; exact hb) h2

/-! ## Votes and proposals -/

theorem onReceiveVote_cases {s s' : Core} {v : Vote} (h : s.onReceiveVote v = .ok s') :
    ∃ b, s.getDeliveredBlk v.blkHash = .ok b ∧
      (s' = s ∨
       ∃ qc, v.voter ∉ (s.heap b).voted ∧
         qc.objHash = ((s.heap b).selfQc.getD (createQuorumCert (s.heap b).hash)).objHash ∧
         (s' = s.modBlk b (fun x => { x with voted := v.voter :: x.voted, selfQc := some qc }) ∨
          (s.heap b).voted.length + 1 = s.nmajority ∧
          ((s.modBlk b fun x => { x with voted := v.voter :: x.voted, selfQc := some qc }).emit
            (.qcFinish b)).updateHqc b (some qc) = .ok s')) := by
  obtain ⟨b, hb, h'⟩ := except_bind_eq_ok.mp h
  refine ⟨b, hb, ?_⟩
  dsimp only at h'
  split_ifs at h' with h1 h2
  · cases h'; exact .inl rfl
  · exact .inr ⟨_, (not_or.mp h1).2, by rfl, .inr ⟨h2, h'⟩⟩
  · cases h'; exact .inr ⟨_, (not_or.mp h1).2, by rfl, .inl rfl⟩

theorem Wf.onReceiveVote {s s' : Core} (hw : s.Wf) {v : Vote} (h : s.onReceiveVote v = .ok s') :
    s'.Wf := by
  obtain ⟨b, hb, hc⟩ := onReceiveVote_cases h
  have hblt := (hw.roots.storage _ _ (getDeliveredBlk_ok hb).1).1
  rcases hc with rfl | ⟨qc, -, -, rfl | ⟨-, h'⟩⟩
  · exact hw
  · exact (keepsShape_vote (v.voter :: ·) fun _ => some qc).wf hw
  · exact (((keepsShape_vote (v.voter :: ·) fun _ => some qc).wf hw).emit _).updateHqc hblt h'

theorem onReceiveProposal_cases {s s' : Core} {r : ReplicaID} {bnew : Ptr}
    (h : s.onReceiveProposal r bnew = .ok s') :
    (s.heap bnew).delivered = true ∧ ∃ s1 op, s.update bnew = .ok s1 ∧ s1.opinion bnew = .ok op ∧
      s' = { s1 with vheight := if op = true then (s1.heap bnew).height else s1.vheight,
                     out := s1.out ++ (s1.heap bnew).qcRef.toList.map .qcFinish ++
                       if op = true ∧ s1.negVote = false then [.vote bnew (some r)] else [] } := by
  unfold onReceiveProposal at h
  cases hd : (s.heap bnew).delivered
  · simp [hd] at h
  · rw [if_neg (by simp [hd])] at h
    obtain ⟨s1, h1, h'⟩ := except_bind_eq_ok.mp h
    obtain ⟨op, h2, h3⟩ := except_map_eq_ok.mp h'
    exact ⟨rfl, s1, op, h1, h2, h3.symm⟩

theorem Wf.onReceiveProposal {s s' : Core} (hw : s.Wf) {r : ReplicaID} {bnew : Ptr}
    (hb : bnew < s.next) (h : s.onReceiveProposal r bnew = .ok s') : s'.Wf := by
  obtain ⟨-, s1, op, h1, -, rfl⟩ := onReceiveProposal_cases h
  have w1 := hw.update hb h1
  exact ⟨w1.obj, w1.roots⟩

/-! ## Delivery -/

theorem resolveQcRef_ok {s : Core} {b : Ptr} {r : Option Ptr} (h : s.resolveQcRef b = .ok r) :
    (s.heap b).data.qc = none ∧ r = (s.heap b).qcRef ∨
      ∃ qc q, (s.heap b).data.qc = some qc ∧ s.storage qc.objHash = some q ∧ r = some q := by
  unfold resolveQcRef at h
  split at h
  · cases h; exact .inl ⟨by assumption, rfl⟩
  · split at h
    · cases h; exact .inr ⟨_, _, by assumption, by assumption, rfl⟩
    · cases h

theorem onDeliverBlk_cases {s s' : Core} {b : Ptr} {r : Bool} (h : s.onDeliverBlk b = .ok (r, s')) :
    (s.heap b).delivered = true ∧ r = false ∧ s' = s ∨
    (s.heap b).delivered = false ∧ r = true ∧ ∃ p0 rest qcRef,
      s.getDeliveredBlks (s.heap b).data.parentHashes = .ok (p0 :: rest) ∧
      s.resolveQcRef b = .ok qcRef ∧
      s' = { s.modBlk b (setDelivered (p0 :: rest) ((s.heap p0).height + 1) qcRef) with
             tails := newTails s.tails (p0 :: rest) b } := by
  unfold onDeliverBlk at h
  split_ifs at h with hd
  · cases h; exact .inl ⟨hd, rfl, rfl⟩
  · obtain ⟨ps, hps, h'⟩ := except_bind_eq_ok.mp h
    split at h'
    · cases h'
    · obtain ⟨qcRef, hq, h''⟩ := except_map_eq_ok.mp h'
      cases h''
      exact .inr ⟨by simpa using hd, rfl, _, _, qcRef, hps, hq, rfl⟩

theorem onDeliverBlk_wf {s s' : Core} {b : Ptr} {r : Bool}
    (hobj : ∀ q < s.next, q ≠ b → ObjOk s.heap s.next q)
    (hroots : Roots s.heap s.next s.storage s.b0 s.bexec s.hqc.1)
    (hself : b < s.next → (s.heap b).delivered = true → ObjOk s.heap s.next b)
    (hqlt : ∀ a, (s.heap b).qcRef = some a → a < s.next)
    (hqc0 : (s.heap b).data.qc = none → (s.heap b).qcRef = none)
    (h : s.onDeliverBlk b = .ok (r, s')) : s'.Wf := by
  rcases onDeliverBlk_cases h with ⟨hd, -, rfl⟩ | ⟨hd, -, p0, rest, qcRef, hps, hres, rfl⟩
  · refine ⟨fun q hq => ?_, hroots⟩
    by_cases hqb : q = b
    · exact hqb ▸ hself (hqb ▸ hq) hd
    · exact hobj q hq hqb
  · have hpar : ∀ a ∈ p0 :: rest, a < s.next ∧ (s.heap a).delivered = true := by
      intro a ha
      obtain ⟨h', hs', hd'⟩ := (getDeliveredBlks_ok hps).2 a ha
      exact ⟨(hroots.storage _ _ hs').1, hd'⟩
    have hne : ∀ a, (s.heap a).delivered = true → a ≠ b := by
      rintro a ha rfl; rw [hd] at ha; cases ha
    have hother : ∀ a, (s.heap a).delivered = true →
        (s.modBlk b (setDelivered (p0 :: rest) ((s.heap p0).height + 1) qcRef)).heap a = s.heap a :=
      fun a ha => modBlk_heap_of_ne s _ (hne a ha)
    have hp0 := hpar p0 (by simp)
    refine ⟨fun q hq => ?_, ?_⟩
    · by_cases hqb : q = b
      · subst hqb
        refine ⟨?_, ?_, ?_, ?_, ?_, ?_⟩ <;> simp only [modBlk_heap_self, setDelivered]
        · exact fun a ha => (hpar a ha).1
        · intro a ha
          rcases resolveQcRef_ok hres with ⟨-, rfl⟩ | ⟨qc, q', -, hs, rfl⟩
          · exact hqlt a ha
          · cases ha; exact (hroots.storage _ _ hs).1
        · simp
        · rintro a rest' hp
          cases hp
          rw [hother p0 hp0.2]
          exact ⟨hp0.2, rfl⟩
        · simp
        · intro hnq
          rcases resolveQcRef_ok hres with ⟨-, rfl⟩ | ⟨qc, q', hq', -, -⟩
          · exact hqc0 hnq
          · rw [hnq] at hq'; cases hq'
      · exact (hobj q hq hqb).transfer le_rfl (modBlk_heap_of_ne s _ hqb)
          fun a _ ha => by rw [hother a ha]; exact ⟨ha, rfl⟩
    · exact hroots.transfer (fun p => by by_cases hpb : p = b <;> simp [hpb, setDelivered])
        fun a ha => by rw [hother a ha]; exact ⟨rfl, ha, rfl⟩

theorem Wf.onDeliverBlk {s s' : Core} (hw : s.Wf) {b : Ptr} {r : Bool} (hb : b < s.next)
    (h : s.onDeliverBlk b = .ok (r, s')) : s'.Wf :=
  onDeliverBlk_wf (fun q hq _ => hw.obj q hq) hw.roots (fun hb _ => hw.obj b hb)
    (hw.obj b hb).qcRef_lt (hw.obj b hb).qc_none h

/-! ## Allocation -/

theorem addBlk_alloc {s : Core} (hw : s.Wf) {x : Block} (hs : s.storage x.hash = none) :
    (s.addBlk x).2 = s.next ∧ (s.addBlk x).1.next = s.next + 1 ∧ (s.addBlk x).1.heap s.next = x ∧
    (∀ q < s.next, ObjOk (s.addBlk x).1.heap (s.addBlk x).1.next q) ∧
    Roots (s.addBlk x).1.heap (s.addBlk x).1.next (s.addBlk x).1.storage (s.addBlk x).1.b0
      (s.addBlk x).1.bexec (s.addBlk x).1.hqc.1 := by
  rw [addBlk_of_none s x hs]
  have hr := hw.roots
  refine ⟨rfl, rfl, by simp, fun q hq => (hw.obj q hq).transfer (by simp) (by simp [hq.ne])
    fun a ha hd => by simp [ha.ne, hd], ?_⟩
  refine ⟨fun h p hp => ?_, Nat.lt_succ_of_lt hr.b0_lt, ?_, ?_, ?_, Nat.lt_succ_of_lt hr.bexec_lt,
    ?_, ?_, Nat.lt_succ_of_lt hr.hqc_lt, ?_⟩
  · by_cases hh : h = x.hash
    · simp only [hh, if_true, Option.some.injEq] at hp
      subst hp; simp [hh]
    · simp only [hh, if_false] at hp
      obtain ⟨h1, h2⟩ := hr.storage h p hp
      exact ⟨Nat.lt_succ_of_lt h1, by simp [h1.ne, h2]⟩
  all_goals simp only [hr.b0_lt.ne, hr.bexec_lt.ne, hr.hqc_lt.ne, if_false]
  exacts [hr.b0_delivered, hr.b0_decision, hr.b0_height, hr.bexec_delivered, hr.bexec_decision,
    hr.hqc_delivered]

theorem Wf.addBlk_ofData {s : Core} (hw : s.Wf) (H : BlockData → Hash) (d : BlockData) :
    (s.addBlk (Block.ofData H d)).1.Wf := by
  cases hs : s.storage (Block.ofData H d).hash with
  | some p => rw [addBlk_of_some s _ hs]; exact hw
  | none =>
    obtain ⟨-, hn, hx, hobj, hroots⟩ := addBlk_alloc hw hs
    refine ⟨fun q hq => ?_, hroots⟩
    by_cases hqn : q = s.next
    · subst hqn
      exact .of_fresh (by rw [hx]; rfl) (by rw [hx]; rfl) (by rw [hx]; rfl)
    · rw [hn] at hq
      exact hobj q (Nat.lt_of_le_of_ne (Nat.le_of_lt_succ hq) hqn)

/-! ## Proposals -/

theorem proposeStored_cases {s s' : Core} {bnew : Ptr} (h : s.proposeStored bnew = .ok s') :
    ∃ r s2 s3 s4,
      (s.modBlk bnew fun x => { x with selfQc := some (createQuorumCert (s.heap bnew).hash) }).onDeliverBlk
        bnew = .ok (r, s2) ∧ s2.update bnew = .ok s3 ∧ s3.vheight < (s3.heap bnew).height ∧
      ({ s3 with vheight := (s3.heap bnew).height }.emit (.vote bnew none)).onReceiveVote
        ⟨s3.id, (s.heap bnew).hash⟩ = .ok s4 ∧ s' = s4.emit (.propose bnew) := by
  obtain ⟨⟨r, s2⟩, h2, h'⟩ := except_bind_eq_ok.mp h
  obtain ⟨s3, h3, h''⟩ := except_bind_eq_ok.mp h'
  split_ifs at h'' with hv
  obtain ⟨s4, h4, rfl⟩ := except_map_eq_ok.mp h''
  exact ⟨r, s2, s3, s4, h2, h3, by omega, h4, rfl⟩

/-- The state `on_propose` hands to its tail: well-formed except perhaps at the stored
block `bnew`, which is either delivered and well-formed or not delivered yet. -/
structure WfBut (s : Core) (bnew : Ptr) : Prop where
  lt : bnew < s.next
  obj : ∀ q < s.next, q ≠ bnew → ObjOk s.heap s.next q
  roots : Roots s.heap s.next s.storage s.b0 s.bexec s.hqc.1
  self : (s.heap bnew).delivered = true → ObjOk s.heap s.next bnew
  qcRef_lt : ∀ a, (s.heap bnew).qcRef = some a → a < s.next
  qc_none : (s.heap bnew).data.qc = none → (s.heap bnew).qcRef = none

theorem Wf.wfBut {s : Core} (hw : s.Wf) {b : Ptr} (hb : b < s.next) : s.WfBut b :=
  ⟨hb, fun q hq _ => hw.obj q hq, hw.roots, fun _ => hw.obj b hb, (hw.obj b hb).qcRef_lt,
    (hw.obj b hb).qc_none⟩

theorem WfBut.onDeliverBlk {s s2 : Core} {bnew : Ptr} (hs : s.WfBut bnew) {r : Bool}
    (h : (s.modBlk bnew fun x => { x with selfQc := some (createQuorumCert (s.heap bnew).hash) }).onDeliverBlk
      bnew = .ok (r, s2)) : s2.Wf := by
  have hk := keepsShape_vote (fun l => l) fun _ => some (createQuorumCert (s.heap bnew).hash)
  exact onDeliverBlk_wf (fun q hq hqb => hk.objOk (hs.obj q hq hqb)) (hk.roots hs.roots)
    (fun _ hd => hk.objOk (hs.self (by rwa [hk.heap_delivered] at hd)))
    (by rw [hk.heap_qcRef]; exact hs.qcRef_lt) (by rw [hk.heap_qcRef, hk.heap_data]; exact hs.qc_none) h

theorem proposeStored_wf {s s' : Core} {bnew : Ptr} (hs : s.WfBut bnew)
    (h : s.proposeStored bnew = .ok s') : s'.Wf := by
  obtain ⟨r, s2, s3, s4, h2, h3, -, h4, rfl⟩ := proposeStored_cases h
  have hn2 : s2.next = s.next := by
    rcases onDeliverBlk_cases h2 with ⟨-, -, rfl⟩ | ⟨-, -, _, _, _, -, -, rfl⟩ <;> rfl
  have w3 := (hs.onDeliverBlk h2).update (by rw [hn2]; exact hs.lt) h3
  have w3' : { s3 with vheight := (s3.heap bnew).height }.Wf := ⟨w3.obj, w3.roots⟩
  exact ((w3'.emit _).onReceiveVote h4).emit _

theorem proposalQc_ok {s : Core} {p : Ptr} {r : Option QuorumCert × Option Ptr}
    (h : s.proposalQc p = .ok r) : r = (none, none) ∨ ∃ qc, r = (some qc, some p) := by
  unfold proposalQc at h
  split_ifs at h
  · split at h
    · cases h; exact .inr ⟨_, rfl⟩
    · cases h
  · cases h; exact .inl rfl

theorem onPropose_cases {H : BlockData → Hash} {s s' : Core} {cmds : List Hash} {parents : List Ptr}
    {extra : List Nat} (h : s.onPropose H cmds parents extra = .ok s') :
    ∃ p rest r, parents = p :: rest ∧
      { s with tails := s.tails.filter fun t => t ∉ parents }.proposalQc p = .ok r ∧
      (({ s with tails := s.tails.filter fun t => t ∉ parents }.addBlk
        (Block.new H ⟨parents.map fun q => (s.heap q).hash, cmds, r.1, extra⟩ parents r.2
          ((s.heap p).height + 1))).1.proposeStored
        ({ s with tails := s.tails.filter fun t => t ∉ parents }.addBlk
        (Block.new H ⟨parents.map fun q => (s.heap q).hash, cmds, r.1, extra⟩ parents r.2
          ((s.heap p).height + 1))).2 = .ok s') := by
  unfold onPropose at h
  split at h
  · cases h
  · rename_i p rest
    obtain ⟨r, hr, h'⟩ := except_bind_eq_ok.mp h
    exact ⟨p, rest, r, rfl, hr, h'⟩

theorem Wf.addBlk_wfBut {s : Core} (hw : s.Wf) {x : Block} (hxd : x.delivered = false)
    (hqlt : ∀ a, x.qcRef = some a → a < s.next) (hqn : x.data.qc = none → x.qcRef = none) :
    (s.addBlk x).1.WfBut (s.addBlk x).2 := by
  cases hs : s.storage x.hash with
  | some q => rw [addBlk_of_some s x hs]; exact hw.wfBut (hw.roots.storage _ _ hs).1
  | none =>
    obtain ⟨h2, hn, hx, hobj, hroots⟩ := addBlk_alloc hw hs
    rw [h2]
    refine ⟨by rw [hn]; exact Nat.lt_succ_self _,
      fun q hq hqn => hobj q (Nat.lt_of_le_of_ne (Nat.le_of_lt_succ (by rwa [hn] at hq)) hqn),
      hroots, fun hd => (by rw [hx, hxd] at hd; cases hd), fun a ha => ?_, fun hq => ?_⟩
    · rw [hx] at ha; rw [hn]; exact Nat.lt_succ_of_lt (hqlt a ha)
    · rw [hx] at hq ⊢; exact hqn hq

theorem proposalQc_quorate {s : Core} {p p' : Ptr} {qc : QuorumCert}
    (h : s.proposalQc p = .ok (some qc, some p')) :
    p' = p ∧ s.nmajority ≤ (s.heap p).voted.length ∧ (s.heap p).selfQc = some qc := by
  unfold proposalQc at h
  split_ifs at h with hv
  split at h
  · cases h; exact ⟨rfl, hv, by assumption⟩
  all_goals cases h

theorem onPropose_block {H : BlockData → Hash} {s s' : Core} (hw : s.Wf) {cmds : List Hash}
    {parents : List Ptr} {extra : List Nat} (hps : ∀ p ∈ parents, p < s.next)
    (h : s.onPropose H cmds parents extra = .ok s') :
    ∃ p rest r x, parents = p :: rest ∧ s.proposalQc p = .ok r ∧
      x = Block.new H ⟨parents.map fun q => (s.heap q).hash, cmds, r.1, extra⟩ parents r.2
        ((s.heap p).height + 1) ∧
      ({ s with tails := s.tails.filter fun t => t ∉ parents }.addBlk x).1.WfBut
        ({ s with tails := s.tails.filter fun t => t ∉ parents }.addBlk x).2 ∧
      ({ s with tails := s.tails.filter fun t => t ∉ parents }.addBlk x).1.proposeStored
        ({ s with tails := s.tails.filter fun t => t ∉ parents }.addBlk x).2 = .ok s' := by
  obtain ⟨p, rest, r, rfl, hr, h'⟩ := onPropose_cases h
  have hw1 : { s with tails := s.tails.filter fun t => t ∉ p :: rest }.Wf := ⟨hw.obj, hw.roots⟩
  refine ⟨p, rest, r, _, rfl, hr, rfl, hw1.addBlk_wfBut rfl (fun a ha => ?_) (fun hq => ?_), h'⟩
  · rcases proposalQc_ok hr with rfl | ⟨qc, rfl⟩ <;> cases ha
    exact hps p (by simp)
  · rcases proposalQc_ok hr with rfl | ⟨qc, rfl⟩
    · rfl
    · cases hq

theorem onPropose_stored {H : BlockData → Hash} {s s' : Core} (hw : s.Wf) {cmds : List Hash}
    {parents : List Ptr} {extra : List Nat} (hps : ∀ p ∈ parents, p < s.next)
    (h : s.onPropose H cmds parents extra = .ok s') :
    ∃ x : Block, x.decision = false ∧
      ({ s with tails := s.tails.filter fun t => t ∉ parents }.addBlk x).1.WfBut
        ({ s with tails := s.tails.filter fun t => t ∉ parents }.addBlk x).2 ∧
      ({ s with tails := s.tails.filter fun t => t ∉ parents }.addBlk x).1.proposeStored
        ({ s with tails := s.tails.filter fun t => t ∉ parents }.addBlk x).2 = .ok s' := by
  obtain ⟨p, rest, r, x, -, -, rfl, hws, h'⟩ := onPropose_block hw hps h
  exact ⟨_, rfl, hws, h'⟩

theorem Wf.onPropose {H : BlockData → Hash} {s s' : Core} (hw : s.Wf) {cmds : List Hash}
    {parents : List Ptr} {extra : List Nat} (hps : ∀ p ∈ parents, p < s.next)
    (h : s.onPropose H cmds parents extra = .ok s') : s'.Wf := by
  obtain ⟨x, -, hs, h'⟩ := onPropose_stored hw hps h
  exact proposeStored_wf hs h'

/-! ## `prune` -/

/-- A write of `prune`: `qc_ref` cleared and the parent list cut from the back. -/
structure Trims (f : Block → Block) : Prop where
  hash : ∀ x, (f x).hash = x.hash
  height : ∀ x, (f x).height = x.height
  delivered : ∀ x, (f x).delivered = x.delivered
  decision : ∀ x, (f x).decision = x.decision
  qcRef : ∀ x, (f x).qcRef = none
  parents : ∀ x, (f x).parents <+: x.parents

theorem trims_clear : Trims fun x => { x with qcRef := none } :=
  ⟨fun _ => rfl, fun _ => rfl, fun _ => rfl, fun _ => rfl, fun _ => rfl, fun _ => List.prefix_refl _⟩

theorem trims_pop : Trims fun x => { x with qcRef := none, parents := x.parents.dropLast } :=
  ⟨fun _ => rfl, fun _ => rfl, fun _ => rfl, fun _ => rfl, fun _ => rfl,
    fun _ => List.dropLast_prefix _⟩

theorem modBlk_heap_field {α : Type} (g : Block → α) {f : Block → Block} (hf : ∀ x, g (f x) = g x)
    (s : Core) (b q : Ptr) : g ((s.modBlk b f).heap q) = g (s.heap q) := by
  by_cases h : q = b <;> simp [h, hf]

theorem Trims.wf {f : Block → Block} (hf : Trims f) {s : Core} (hw : s.Wf) (b : Ptr) :
    (s.modBlk b f).Wf := by
  have hdel := modBlk_heap_field Block.delivered hf.delivered s b
  have hhgt := modBlk_heap_field Block.height hf.height s b
  have hdec := modBlk_heap_field Block.decision hf.decision s b
  have hhash := modBlk_heap_field Block.hash hf.hash s b
  refine ⟨fun q hq => ?_, ?_⟩
  · by_cases hqb : q = b
    · subst hqb
      have ho := hw.obj q hq
      have hp := hf.parents (s.heap q)
      refine ⟨fun a ha => ho.parents_lt a (hp.subset (by simpa using ha)), by simp [hf.qcRef],
        fun hd => ?_, fun a rest ha => ?_, by simp [hf.qcRef], fun _ => by simp [hf.qcRef]⟩
      · rw [hdel] at hd
        obtain ⟨-, h2, h3⟩ := ho.fresh hd
        rw [h3] at hp
        simpa [hf.qcRef, hf.height, h2] using hp
      · simp only [modBlk_heap_self] at ha
        rw [ha] at hp
        obtain ⟨t, ht⟩ := hp
        obtain ⟨had, hh⟩ := ho.parent a (rest ++ t) (by rw [← ht]; rfl)
        have hab : a ≠ q := by rintro rfl; omega
        rw [modBlk_heap_self, modBlk_heap_of_ne s _ hab, hf.height]
        exact ⟨had, hh⟩
    · exact (hw.obj q hq).transfer le_rfl (modBlk_heap_of_ne s _ hqb)
        fun a _ ha => ⟨by rw [hdel]; exact ha, hhgt a⟩
  · exact hw.roots.transfer hhash fun q hq => ⟨hhgt q, (hdel q).trans hq, hdec q⟩

theorem Wf.releaseBlk {s : Core} (hw : s.Wf) (h : Hash) : (s.releaseBlk h).Wf := by
  refine ⟨hw.obj, { hw.roots with storage := fun h' p hp => ?_ }⟩
  simp only [Core.releaseBlk_storage] at hp
  split_ifs at hp
  exact hw.roots.storage h' p hp

theorem Wf.pruneLoop {rel : Ptr → Bool} :
    ∀ {fuel : Nat} {s s' : Core} {stk : List Ptr}, s.Wf → pruneLoop rel fuel s stk = .ok s' → s'.Wf
  | 0, _, _, _, _, h => by cases h
  | fuel + 1, s, s', [], hw, h => by cases h; exact hw
  | fuel + 1, s, s', b :: stk, hw, h => by
    unfold Core.pruneLoop at h
    split at h
    · refine Wf.pruneLoop ?_ h
      unfold tryReleaseBlk
      split_ifs
      · exact hw.releaseBlk _
      · exact hw
    · exact Wf.pruneLoop (trims_pop.wf hw b) h

theorem Wf.prune {s s' : Core} (hw : s.Wf) {rel : Ptr → Bool} {k : Nat}
    (h : s.prune rel k = .ok s') : s'.Wf := by
  unfold Core.prune at h
  split at h
  · cases h; exact hw
  · exact (trims_clear.wf hw _).pruneLoop h

/-! ## Runs -/

theorem Wf.exec {H : BlockData → Hash} {s s' : Core} (hw : s.Wf) {i : Input} (hv : i.Valid s)
    (h : exec H s i = .ok s') : s'.Wf := by
  cases i with
  | fetch d => cases h; exact hw.addBlk_ofData H d
  | deliver b =>
    obtain ⟨⟨r, s''⟩, h', rfl⟩ := except_map_eq_ok.mp h
    exact hw.onDeliverBlk hv h'
  | propose cmds parents extra => exact hw.onPropose hv h
  | receiveProposal r b => exact hw.onReceiveProposal hv h
  | receiveVote v => exact hw.onReceiveVote h
  | prune k rel => exact hw.prune h

theorem wf_new (H : BlockData → Hash) (id : ReplicaID) : (new H id).Wf := by
  refine ⟨fun q _ => ObjOk.of_fresh rfl rfl rfl, ⟨fun h p hp => ?_, Nat.one_pos, rfl, rfl, rfl,
    Nat.one_pos, rfl, rfl, Nat.one_pos, rfl⟩⟩
  simp only [new] at hp
  split_ifs at hp with hh
  cases hp
  exact ⟨Nat.one_pos, hh.symm⟩

theorem Wf.addReplica {s : Core} (hw : s.Wf) (r : ReplicaID) : (s.addReplica r).Wf :=
  (keepsShape_vote (fun v => if r ∈ v then v else r :: v) fun c => c).wf hw

theorem Wf.b0_parents {s : Core} (hw : s.Wf) : (s.heap s.b0).parents = [] := by
  cases hp : (s.heap s.b0).parents with
  | nil => rfl
  | cons a rest =>
    have := ((hw.obj _ hw.roots.b0_lt).parent a rest hp).2
    rw [hw.roots.b0_height] at this; omega

theorem Wf.onInit {s : Core} (hw : s.Wf) (n : Nat) : (s.onInit n).Wf := by
  have hr := hw.roots
  have hheap : ∀ q, q ≠ s.b0 → (s.onInit n).heap q = s.heap q := fun q hq => by
    simp [Core.onInit, hq]
  have hkeep : ∀ q, ((s.onInit n).heap q).hash = (s.heap q).hash ∧
      ((s.onInit n).heap q).height = (s.heap q).height ∧
      ((s.onInit n).heap q).delivered = (s.heap q).delivered ∧
      ((s.onInit n).heap q).decision = (s.heap q).decision := fun q => by
    by_cases hq : q = s.b0 <;> simp [Core.onInit, hq]
  refine ⟨fun q hq => ?_, { hr.transfer (fun q => (hkeep q).1) fun q hq =>
    ⟨(hkeep q).2.1, (hkeep q).2.2.1.trans hq, (hkeep q).2.2.2⟩ with hqc_lt := hr.b0_lt, hqc_delivered := ?_ }⟩
  · by_cases hqb : q = s.b0
    · subst hqb
      constructor <;> simp [Core.onInit, hw.b0_parents, hr.b0_delivered, hr.b0_decision, hr.b0_lt]
    · exact (hw.obj q hq).transfer le_rfl (hheap q hqb) fun a _ ha =>
        ⟨(hkeep a).2.2.1.trans ha, (hkeep a).2.1⟩
  · exact (hkeep _).2.2.1.trans hr.b0_delivered

theorem wf_init (H : BlockData → Hash) (id : ReplicaID) (rs : List ReplicaID) (nfaulty : Nat) :
    (init H id rs nfaulty).Wf := by
  have : ∀ s : Core, s.Wf → (rs.foldl addReplica s).Wf := by
    induction rs with
    | nil => exact fun s hs => hs
    | cons r rs ih => exact fun s hs => ih _ (hs.addReplica r)
  exact (this _ (wf_new H id)).onInit nfaulty

theorem reachable_wf {H : BlockData → Hash} {A : Core → Input → Prop}
    (hA : ∀ s i, A s i → i.Valid s) {id : ReplicaID} {rs : List ReplicaID} {nfaulty : Nat} {s : Core}
    (hr : Reachable H A (init H id rs nfaulty) s) : s.Wf :=
  hr.induct_on H (wf_init H id rs nfaulty) fun _ _ _ _ hw ha he => hw.exec (hA _ _ ha) he

end Core
end HotStuff
