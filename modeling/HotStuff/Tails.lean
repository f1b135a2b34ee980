import HotStuff.Agreement

/-!
# `tails`, the blocks with no known child

`on_deliver_blk` erases the parents of the block it delivers from `tails` and inserts
the block; `on_propose` erases its parents first. `prune` leaves `tails` alone. So
`tails` is meant to be the delivered leaves: the delivered blocks of the storage that no
delivered block of the storage lists among its parent hashes (`DeliveredLeaf`).

Once `prune` has released blocks this no longer holds. A block whose only delivered
child was released is a delivered leaf that `tails` misses, and a block fetched again
after its release is delivered as a fresh object and inserted into `tails` while its old
children, still in the storage, list its hash.
-/

namespace HotStuff
namespace Core

/-- `p` is a delivered block of the storage and no delivered block of the storage lists
its hash among its `parent_hashes`. -/
def DeliveredLeaf (s : Core) (p : Ptr) : Prop :=
  p < s.next ∧ s.storage (s.heap p).hash = some p ∧ (s.heap p).delivered = true ∧
    ∀ q < s.next, s.storage (s.heap q).hash = some q → (s.heap q).delivered = true →
      (s.heap p).hash ∉ (s.heap q).data.parentHashes

instance (s : Core) (p : Ptr) : Decidable (s.DeliveredLeaf p) := inferInstanceAs (Decidable (_ ∧ _))

/-! ## Without `prune` -/

/-- `p` is delivered and no delivered block has it among its parents. -/
def Leaf (s : Core) (p : Ptr) : Prop :=
  p < s.next ∧ (s.heap p).delivered = true ∧
    ∀ q < s.next, (s.heap q).delivered = true → p ∉ (s.heap q).parents

/-- `tails` holds the leaves but those of `E`, and every parent of a delivered block is
delivered. `on_propose` erases its parents `E` from `tails` before it delivers its block. -/
structure TailsBut (E : List Ptr) (s : Core) : Prop where
  tails : ∀ p, p ∈ s.tails ↔ s.Leaf p ∧ p ∉ E
  parents : ∀ q < s.next, (s.heap q).delivered = true →
    ∀ a ∈ (s.heap q).parents, (s.heap a).delivered = true

/-- A write that leaves `tails`, `next`, and which objects are delivered with which
parents. -/
structure KeepsLeaves (s s' : Core) : Prop where
  tails : s'.tails = s.tails
  next : s'.next = s.next
  delivered : ∀ p, (s'.heap p).delivered = (s.heap p).delivered
  parents : ∀ p, (s'.heap p).parents = (s.heap p).parents

theorem KeepsLeaves.refl (s : Core) : KeepsLeaves s s := ⟨rfl, rfl, fun _ => rfl, fun _ => rfl⟩

theorem KeepsLeaves.trans {s1 s2 s3 : Core} (h1 : KeepsLeaves s1 s2) (h2 : KeepsLeaves s2 s3) :
    KeepsLeaves s1 s3 :=
  ⟨h2.tails.trans h1.tails, h2.next.trans h1.next, fun p => (h2.delivered p).trans (h1.delivered p),
    fun p => (h2.parents p).trans (h1.parents p)⟩

theorem KeepsLeaves.leaf {s s' : Core} (hk : KeepsLeaves s s') (p : Ptr) : s'.Leaf p ↔ s.Leaf p := by
  simp only [Leaf, hk.next, hk.delivered, hk.parents]

theorem TailsBut.keep {E : List Ptr} {s s' : Core} (ht : s.TailsBut E) (hk : KeepsLeaves s s') :
    s'.TailsBut E :=
  ⟨fun p => by rw [hk.tails, hk.leaf]; exact ht.tails p, fun q hq hd a ha => by
    rw [hk.delivered] at hd ⊢; rw [hk.parents] at ha; exact ht.parents q (hk.next ▸ hq) hd a ha⟩

theorem keepsLeaves_modBlk (s : Core) (b : Ptr) {f : Block → Block}
    (hd : ∀ x, (f x).delivered = x.delivered) (hp : ∀ x, (f x).parents = x.parents) :
    KeepsLeaves s (s.modBlk b f) :=
  ⟨rfl, rfl, modBlk_heap_field Block.delivered hd s b, modBlk_heap_field Block.parents hp s b⟩

theorem keepsLeaves_emit (s : Core) (e : Effect) : KeepsLeaves s (s.emit e) :=
  ⟨rfl, rfl, fun _ => rfl, fun _ => rfl⟩

theorem keepsLeaves_setVheight (s : Core) (n : Nat) : KeepsLeaves s { s with vheight := n } :=
  ⟨rfl, rfl, fun _ => rfl, fun _ => rfl⟩

theorem keepsLeaves_updateHqc {s s' : Core} {blk : Ptr} {qc : Option QuorumCert}
    (h : s.updateHqc blk qc = .ok s') : KeepsLeaves s s' := by
  rcases updateHqc_cases h with rfl | ⟨-, q, -, rfl⟩
  · exact .refl _
  · exact ⟨rfl, rfl, fun _ => rfl, fun _ => rfl⟩

theorem keepsLeaves_update {s s' : Core} {nblk : Ptr} (h : s.update nblk = .ok s') : KeepsLeaves s s' := by
  obtain ⟨blk, s1, -, h1, h2⟩ := update_cases h
  refine (keepsLeaves_updateHqc h1).trans ?_
  rcases checkCommit_cases h2 with rfl | ⟨p, rest, r, -, -, -, -, -, -, rfl⟩
  · exact .refl _
  have hf := foldl_commitBlk_heap s1 r.2.reverse
  refine ⟨?_, foldl_commitBlk_next s1 _, fun x => ?_, fun x => ?_⟩
  · show (r.2.reverse.foldl commitBlk s1).tails = s1.tails
    rw [foldl_commitBlk_eq]
  · obtain ⟨d, hd⟩ := hf x; exact (congrArg Block.delivered hd :)
  · obtain ⟨d, hd⟩ := hf x; exact (congrArg Block.parents hd :)

theorem keepsLeaves_onReceiveVote {s s' : Core} {v : Vote} (h : s.onReceiveVote v = .ok s') :
    KeepsLeaves s s' := by
  obtain ⟨b, -, hc⟩ := onReceiveVote_cases h
  rcases hc with rfl | ⟨qc, -, -, rfl | ⟨-, h'⟩⟩
  · exact .refl _
  · exact keepsLeaves_modBlk s b (fun _ => rfl) fun _ => rfl
  · exact (keepsLeaves_modBlk s b (f := fun x => { x with voted := v.voter :: x.voted, selfQc := some qc })
      (fun _ => rfl) fun _ => rfl).trans ((keepsLeaves_emit _ _).trans (keepsLeaves_updateHqc h'))

theorem keepsLeaves_onReceiveProposal {s s' : Core} {r : ReplicaID} {bnew : Ptr}
    (h : s.onReceiveProposal r bnew = .ok s') : KeepsLeaves s s' := by
  obtain ⟨-, s1, op, h1, -, rfl⟩ := onReceiveProposal_cases h
  exact (keepsLeaves_update h1).trans ⟨rfl, rfl, fun _ => rfl, fun _ => rfl⟩

theorem TailsBut.addBlk {E : List Ptr} {s : Core} (ht : s.TailsBut E) (hw : s.Wf) {x : Block}
    (hx : x.delivered = false) : (s.addBlk x).1.TailsBut E := by
  cases hs : s.storage x.hash with
  | some p => rw [addBlk_of_some s x hs]; exact ht
  | none =>
    have hold : ∀ q < s.next, (s.addBlk x).1.heap q = s.heap q := fun q hq => by
      rw [addBlk_of_none s x hs]; simp [hq.ne]
    have hnew : ((s.addBlk x).1.heap s.next).delivered = false := by rw [addBlk_of_none s x hs]; simpa
    have hnext : (s.addBlk x).1.next = s.next + 1 := by rw [addBlk_of_none s x hs]
    have htails : (s.addBlk x).1.tails = s.tails := by rw [addBlk_of_none s x hs]
    have hlt : ∀ q < (s.addBlk x).1.next, ((s.addBlk x).1.heap q).delivered = true → q < s.next :=
      fun q hq hd => Nat.lt_of_le_of_ne (Nat.le_of_lt_succ (by rwa [hnext] at hq)) fun h => by
        rw [h, hnew] at hd; cases hd
    have hleaf : ∀ p, (s.addBlk x).1.Leaf p ↔ s.Leaf p := fun p => by
      constructor
      · rintro ⟨hp, hd, hq⟩
        have hp' := hlt p hp hd
        refine ⟨hp', by rwa [hold p hp'] at hd, fun q hqn hdq => ?_⟩
        have := hq q (by rw [hnext]; exact Nat.lt_succ_of_lt hqn) (by rwa [hold q hqn])
        rwa [hold q hqn] at this
      · rintro ⟨hp, hd, hq⟩
        refine ⟨by rw [hnext]; exact Nat.lt_succ_of_lt hp, by rwa [hold p hp], fun q hqn hdq => ?_⟩
        have hq' := hlt q hqn hdq
        rw [hold q hq'] at hdq ⊢
        exact hq q hq' hdq
    refine ⟨fun p => by rw [htails, hleaf]; exact ht.tails p, fun q hqn hdq a ha => ?_⟩
    have hq' := hlt q hqn hdq
    rw [hold q hq'] at hdq ha
    rw [hold a ((hw.obj q hq').parents_lt a ha)]
    exact ht.parents q hq' hdq a ha

theorem deliver_heap_delivered (s : Core) (b : Ptr) (ps : List Ptr) (n : Nat) (qcRef : Option Ptr)
    (q : Ptr) : ((s.modBlk b (setDelivered ps n qcRef)).heap q).delivered = true ↔
      q = b ∨ (s.heap q).delivered = true := by
  by_cases h : q = b <;> simp [h, setDelivered]

theorem deliver_heap_parents (s : Core) (b : Ptr) (ps : List Ptr) (n : Nat) (qcRef : Option Ptr)
    (q : Ptr) : ((s.modBlk b (setDelivered ps n qcRef)).heap q).parents =
      if q = b then ps else (s.heap q).parents := by
  by_cases h : q = b <;> simp [h, setDelivered]

theorem Leaf.deliver {s : Core} (hpar : ∀ q < s.next, (s.heap q).delivered = true →
      ∀ a ∈ (s.heap q).parents, (s.heap a).delivered = true)
    {b : Ptr} (hb : b < s.next) (hbd : (s.heap b).delivered = false) {ps : List Ptr}
    (hps : ∀ p ∈ ps, (s.heap p).delivered = true) (n : Nat) (qcRef : Option Ptr) (T : List Ptr) (p : Ptr) :
    Leaf { s.modBlk b (setDelivered ps n qcRef) with tails := T } p ↔ p = b ∨ s.Leaf p ∧ p ∉ ps := by
  have hbps : b ∉ ps := fun h => by simp [hps b h] at hbd
  simp only [Leaf, modBlk_next, deliver_heap_delivered, deliver_heap_parents]
  constructor
  · rintro ⟨hp, hdp, hq⟩
    by_cases hpb : p = b
    · exact .inl hpb
    refine .inr ⟨⟨hp, hdp.resolve_left hpb, fun q hqn hdq => ?_⟩, by simpa using hq b hb (.inl rfl)⟩
    have hqb : q ≠ b := fun h => by simp [h, hbd] at hdq
    simpa [hqb] using hq q hqn (.inr hdq)
  · rintro (rfl | ⟨⟨hp, hdp, hq⟩, hps'⟩)
    · refine ⟨hb, .inl rfl, fun q hqn hdq hmem => ?_⟩
      by_cases hqb : q = p
      · simp [hqb, hbps] at hmem
      · simp only [hqb, if_false] at hmem
        simp [hpar q hqn (hdq.resolve_left hqb) p hmem] at hbd
    · refine ⟨hp, .inr hdp, fun q hqn hdq hmem => ?_⟩
      by_cases hqb : q = b
      · simp [hqb] at hmem; exact hps' hmem
      · simp only [hqb, if_false] at hmem
        exact hq q hqn (hdq.resolve_left hqb) hmem

theorem TailsBut.onDeliverBlk {E : List Ptr} {s s' : Core} (ht : s.TailsBut E) {b : Ptr} (hb : b < s.next)
    {r : Bool} (h : s.onDeliverBlk b = .ok (r, s')) (hE : (s.heap b).delivered = true → ∀ e ∈ E, ¬ s.Leaf e)
    (hE' : ∀ ps, s.getDeliveredBlks (s.heap b).data.parentHashes = .ok ps → ∀ e ∈ E, e ∈ ps) :
    s'.TailsBut [] := by
  rcases onDeliverBlk_cases h with ⟨hd, -, rfl⟩ | ⟨hbd, -, p0, rest, qcRef, hg, -, rfl⟩
  · refine ⟨fun p => ?_, ht.parents⟩
    rw [ht.tails p]
    exact ⟨fun h => ⟨h.1, List.not_mem_nil _⟩, fun h => ⟨h.1, fun he => hE hd p he h.1⟩⟩
  have hps : ∀ p ∈ p0 :: rest, (s.heap p).delivered = true := fun p hp => by
    obtain ⟨_, -, hd⟩ := (getDeliveredBlks_ok hg).2 p hp; exact hd
  have hsub := hE' _ hg
  refine ⟨fun p => ?_, fun q hq hdq a ha => ?_⟩
  · rw [Leaf.deliver ht.parents hb hbd hps]
    simp only [newTails, List.mem_cons, List.mem_filter, decide_eq_true_eq, ht.tails, List.not_mem_nil,
      not_false_eq_true, and_true]
    constructor
    · rintro (rfl | ⟨⟨hl, -⟩, hp, -⟩)
      · exact .inl rfl
      · exact .inr ⟨hl, hp⟩
    · rintro (rfl | ⟨hl, hp⟩)
      · exact .inl rfl
      · refine .inr ⟨⟨hl, fun he => hp (List.mem_cons.mp (hsub p he))⟩, hp, fun h => ?_⟩
        subst h; rw [hl.2.1] at hbd; cases hbd
  · rw [deliver_heap_delivered] at hdq ⊢
    rw [deliver_heap_parents] at ha
    by_cases hqb : q = b
    · simp only [hqb, if_true] at ha; exact .inr (hps a ha)
    · simp only [hqb, if_false] at ha
      exact .inr (ht.parents q hq (hdq.resolve_left hqb) a ha)

variable {H : BlockData → Hash}

theorem Linked.eq_of_hash {s : Core} (hl : s.Linked H) {a e : Ptr} (ha : a < s.next) (he : e < s.next)
    (h : (s.heap a).hash = (s.heap e).hash) : a = e := by
  have := hl.stored a ha
  rw [h, hl.stored e he] at this
  exact (Option.some.inj this).symm

theorem Linked.mem_parents {s : Core} (hl : s.Linked H) (hw : s.Wf) {q e : Ptr} (hq : q < s.next)
    (hd : (s.heap q).delivered = true) (hqb : q ≠ s.b0) (he : e < s.next) :
    (s.heap e).hash ∈ (s.heap q).data.parentHashes ↔ e ∈ (s.heap q).parents := by
  rw [← (hl.parents q hq hd hqb).2, List.mem_map]
  constructor
  · rintro ⟨a, ha, hae⟩
    rwa [← hl.eq_of_hash ((hw.obj q hq).parents_lt a ha) he hae]
  · exact fun h => ⟨e, h, rfl⟩

theorem mem_of_forall₂_storage {st : Hash → Option Ptr} {f : Ptr → Hash} :
    ∀ {E ps : List Ptr}, List.Forall₂ (fun h q => st h = some q) (E.map f) ps →
      (∀ e ∈ E, st (f e) = some e) → ∀ e ∈ E, e ∈ ps
  | [], _, _, _ => by simp
  | e :: E, _, .cons h1 h2, hs => by
    have := hs e (List.mem_cons_self _ _)
    rw [h1] at this
    cases this
    intro x hx
    rcases List.mem_cons.mp hx with rfl | hx
    · exact List.mem_cons_self _ _
    · exact List.mem_cons_of_mem _ (mem_of_forall₂_storage h2 (fun y hy => hs y (List.mem_cons_of_mem _ hy)) x hx)

theorem addBlk_of_delivered {s : Core} (hw : s.Wf) {x : Block} (hx : x.delivered = false)
    (hd : ((s.addBlk x).1.heap (s.addBlk x).2).delivered = true) :
    (s.addBlk x).1 = s ∧ (s.addBlk x).2 < s.next ∧ s.storage x.hash = some (s.addBlk x).2 := by
  cases hs : s.storage x.hash with
  | some q => rw [addBlk_of_some s x hs]; exact ⟨rfl, (hw.roots.storage _ _ hs).1, rfl⟩
  | none => rw [addBlk_of_none s x hs] at hd; simp [hx] at hd

theorem TailsBut.onPropose (hH : Function.Injective H) {s s' : Core} (ht : s.TailsBut []) (hw : s.Wf)
    (hl : s.Linked H) {cmds : List Hash} {parents : List Ptr} {extra : List Nat}
    (hps : ∀ p ∈ parents, p < s.next) (h : s.onPropose H cmds parents extra = .ok s') : s'.TailsBut [] := by
  obtain ⟨p, rest, r, x, rfl, -, hx, hws, h'⟩ := onPropose_block hw hps h
  have hw0 : { s with tails := s.tails.filter fun t => t ∉ p :: rest }.Wf := ⟨hw.obj, hw.roots⟩
  have hl0 : { s with tails := s.tails.filter fun t => t ∉ p :: rest }.Linked H :=
    ⟨hl.1, hl.2, hl.3, hl.4, hl.5, hl.6⟩
  have ht0 : { s with tails := s.tails.filter fun t => t ∉ p :: rest }.TailsBut (p :: rest) :=
    ⟨fun q => by
      simp only [List.mem_filter, decide_eq_true_eq]
      rw [ht.tails q]
      exact ⟨fun h => ⟨h.1.1, h.2⟩, fun h => ⟨⟨h.1, List.not_mem_nil _⟩, h.2⟩⟩, ht.parents⟩
  have hxh : x.hash = H x.data := by rw [hx]; rfl
  have hxd : x.delivered = false := by rw [hx]; rfl
  have hxg : x.data ≠ genesisData := ne_genesisData (by rw [hx]; rfl)
  have hpar : x.data.parentHashes = (p :: rest).map fun q => (s.heap q).hash := by rw [hx]; rfl
  have hdata := addBlk_data hH hw0 hl0 hxh hxg
  have hk := keeps_addBlk { s with tails := s.tails.filter fun t => t ∉ p :: rest } x
  have hdel := addBlk_of_delivered hw0 hxd
  have ht1 := ht0.addBlk hw0 hxd
  generalize { s with tails := s.tails.filter fun t => t ∉ p :: rest }.addBlk x = sb at hdata hk hdel ht1 hws h'
  obtain ⟨r', s2, s3, s4, h2, h3, -, h4, rfl⟩ := proposeStored_cases h'
  have hsel := keepsLeaves_modBlk sb.1 sb.2
    (f := fun y => { y with selfQc := some (createQuorumCert (sb.1.heap sb.2).hash) }) (fun _ => rfl) fun _ => rfl
  have hk4 : KeepsLeaves s3 (s4.emit (.propose sb.2)) :=
    (keepsLeaves_setVheight s3 _).trans (((keepsLeaves_emit _ _).trans (keepsLeaves_onReceiveVote h4)).trans
      (keepsLeaves_emit _ _))
  refine (((ht1.keep hsel).onDeliverBlk hws.lt h2 (fun hd e he hle => ?_) fun ps hg => ?_).keep
    (keepsLeaves_update h3)).keep hk4
  · -- `bnew` was stored and delivered already: it is a child of every parent
    rw [hsel.delivered] at hd
    rw [hsel.leaf] at hle
    obtain ⟨h1, hlt, hst⟩ := hdel hd
    rw [h1] at hd hle hdata
    have hbb : sb.2 ≠ s.b0 := fun hb => hxg (hH (by
      rw [← hxh, ← (hw0.roots.storage _ _ hst).2, hb]; exact hl.b0_hash))
    refine hle.2.2 sb.2 hlt hd ((hl0.mem_parents hw0 hlt hd hbb (hps e he)).mp ?_)
    rw [hdata, hpar]
    exact List.mem_map_of_mem _ he
  · -- every parent is stored under its hash, so `get_delivered_blk` finds it
    simp only [modBlk_heap, if_pos, hdata, hpar] at hg
    exact mem_of_forall₂_storage (getDeliveredBlks_ok hg).1 fun e he => hk.storage _ _ (hl.stored e (hps e he))

/-- Every call but `prune` keeps `tails` exact. -/
theorem TailsBut.exec (hH : Function.Injective H) {s s' : Core} (ht : s.TailsBut []) (hw : s.Wf)
    (hl : s.Linked H) {i : Input} (hv : i.NoPrune s) (h : exec H s i = .ok s') : s'.TailsBut [] := by
  cases i with
  | fetch d => cases h; exact ht.addBlk hw rfl
  | deliver b =>
    obtain ⟨⟨r, s''⟩, h', rfl⟩ := except_map_eq_ok.mp h
    exact ht.onDeliverBlk hv.1 h' (fun _ e he => absurd he (List.not_mem_nil e))
      fun _ _ e he => absurd he (List.not_mem_nil e)
  | propose cmds parents extra => exact ht.onPropose hH hw hl hv.1 h
  | receiveProposal r b => exact ht.keep (keepsLeaves_onReceiveProposal h)
  | receiveVote v => exact ht.keep (keepsLeaves_onReceiveVote h)
  | prune k rel => exact absurd rfl (hv.2 k rel)

theorem foldl_addReplica_data (rs : List ReplicaID) (s : Core) (q : Ptr) :
    ((rs.foldl addReplica s).heap q).data = (s.heap q).data := by
  induction rs generalizing s with
  | nil => rfl
  | cons r rs ih => rw [List.foldl_cons, ih]; by_cases h : q = s.b0 <;> simp [addReplica, h]

theorem tailsBut_init (H : BlockData → Hash) (id : ReplicaID) (rs : List ReplicaID) (nfaulty : Nat) :
    (init H id rs nfaulty).TailsBut [] := by
  have hw := wf_init H id rs nfaulty
  have hf : (init H id rs nfaulty).next = 1 ∧ (init H id rs nfaulty).b0 = 0 ∧
      (init H id rs nfaulty).tails = [0] := by
    unfold init onInit; rw [foldl_addReplica_eq]; exact ⟨rfl, rfl, rfl⟩
  obtain ⟨hn, h0, ht⟩ := hf
  have hlt : ∀ p < (init H id rs nfaulty).next, p = 0 := fun p hp => Nat.lt_one_iff.mp (hn ▸ hp)
  have hnil : ((init H id rs nfaulty).heap 0).parents = [] := h0 ▸ hw.b0_parents
  refine ⟨fun p => ?_, fun q hq _ a ha => ?_⟩
  · rw [ht, List.mem_singleton]
    constructor
    · rintro rfl
      exact ⟨⟨hn ▸ Nat.one_pos, h0 ▸ hw.roots.b0_delivered, fun q hq _ => by
        rw [hlt q hq, hnil]; exact List.not_mem_nil _⟩, List.not_mem_nil _⟩
    · rintro ⟨⟨hp, -⟩, -⟩; exact hlt p hp
  · rw [hlt q hq, hnil] at ha; cases ha

theorem reachable_b0_parentHashes {A : Core → Input → Prop} (hA : ∀ s i, A s i → i.NoPrune s)
    {id : ReplicaID} {rs : List ReplicaID} {nfaulty : Nat} {s : Core}
    (hr : Reachable H A (init H id rs nfaulty) s) : (s.heap s.b0).data.parentHashes = [] := by
  refine hr.induct_on H (P := fun s => (s.heap s.b0).data.parentHashes = []) ?_ fun s s' i hr' hs ha he => ?_
  · have hb : (init H id rs nfaulty).b0 = 0 := by unfold init onInit; rw [foldl_addReplica_eq]; rfl
    have hd : ∀ (s : Core) n q, ((s.onInit n).heap q).data.parentHashes = (s.heap q).data.parentHashes :=
      fun s n q => by by_cases hq : q = s.b0 <;> simp [onInit, hq]
    show ((init H id rs nfaulty).heap (init H id rs nfaulty).b0).data.parentHashes = []
    rw [hb, init, hd, foldl_addReplica_data]; rfl
  · have hw := reachable_wf (fun _ _ h => (hA _ _ h).1) hr'
    have hk := (tracks_exec hw (hA _ _ ha) he).keeps
    show (s'.heap s'.b0).data.parentHashes = []
    rw [hk.b0, (hk.obj _ hw.roots.b0_lt).2.1]; exact hs

theorem TailsBut.deliveredLeaf_iff {s : Core} (ht : s.TailsBut []) (hw : s.Wf) (hl : s.Linked H)
    (hb0 : (s.heap s.b0).data.parentHashes = []) (p : Ptr) : p ∈ s.tails ↔ s.DeliveredLeaf p := by
  have hq : ∀ q < s.next, (s.heap q).delivered = true → p < s.next →
      ((s.heap p).hash ∈ (s.heap q).data.parentHashes ↔ p ∈ (s.heap q).parents) := fun q hq hd hp => by
    by_cases hqb : q = s.b0
    · subst hqb; simp [hb0, hw.b0_parents]
    · exact hl.mem_parents hw hq hd hqb hp
  rw [ht.tails p]
  constructor
  · rintro ⟨⟨hp, hd, hn⟩, -⟩
    exact ⟨hp, hl.stored p hp, hd, fun q hqn _ hdq hm => hn q hqn hdq ((hq q hqn hdq hp).mp hm)⟩
  · rintro ⟨hp, -, hd, hn⟩
    exact ⟨⟨hp, hd, fun q hqn hdq hm => hn q hqn (hl.stored q hqn) hdq ((hq q hqn hdq hp).mpr hm)⟩,
      List.not_mem_nil p⟩

theorem reachable_tailsBut (hH : Function.Injective H) {A : Core → Input → Prop}
    (hA : ∀ s i, A s i → i.NoPrune s) {id : ReplicaID} {rs : List ReplicaID} {nfaulty : Nat} {s : Core}
    (hr : Reachable H A (init H id rs nfaulty) s) : s.TailsBut [] :=
  hr.induct_on H (tailsBut_init H id rs nfaulty) fun s _ _ hr' ht ha h =>
    ht.exec hH (reachable_wf (fun _ _ h => (hA _ _ h).1) hr') (reachable_linked hA hr') (hA s _ ha) h

/-- Along every run without `prune`, `tails` holds exactly the delivered leaves of the
storage. -/
theorem tails_eq_deliveredLeaves (hH : Function.Injective H) {id : ReplicaID} {rs : List ReplicaID}
    {nfaulty : Nat} {s : Core} (hr : Reachable H Input.NoPrune (init H id rs nfaulty) s) (p : Ptr) :
    p ∈ s.tails ↔ s.DeliveredLeaf p :=
  (reachable_tailsBut hH (fun _ _ h => h) hr).deliveredLeaf_iff (reachable_wf (fun _ _ h => h.1) hr)
    (reachable_linked (fun _ _ h => h) hr) (reachable_b0_parentHashes (fun _ _ h => h) hr) p

/-- Replica 0 proposes `B1` on genesis and delivers a fetched sibling `B2`: `tails` is
`[B2, B1]`, and genesis, a parent now, has left it. -/
theorem tails_eq_deliveredLeaves_siblings :
    ∃ s, Reachable encodeHash Input.NoPrune (init encodeHash 0 [0, 1, 2, 3] 1) s ∧ s.tails = [2, 1] ∧
      ∀ p, p ∈ s.tails ↔ s.DeliveredLeaf p :=
  have hr := reachable_noPrune_of_runFrom encodeHash (init encodeHash 0 [0, 1, 2, 3] 1)
    [.propose [7] [0] [], .fetch ⟨[encodeHash genesisData], [8], some ⟨encodeHash genesisData, [], true⟩, []⟩,
      .deliver 2] (by simp) rfl
  ⟨_, hr, rfl, tails_eq_deliveredLeaves encodeHash_injective hr⟩

/-! ## After `prune` -/

/-- `prune` breaks `tails`. The chain `A1 … A6` is delivered, the proposal of `A6`
commits `A1 … A4`, and `prune(1)` runs from `A3`: it releases `A1` and `A2`, which
nothing holds any more. `b0` is then a delivered leaf of the storage missing from
`tails`. When `A1` and `A2` are fetched and delivered again, the fresh `A2'` goes into
`tails` although `A3`, delivered and stored, lists its hash as a parent. -/
theorem tails_diverge_after_prune :
    ∃ s, Reachable extraHash Input.Valid (init extraHash 0 [0, 1, 2, 3] 1) s ∧
      ¬ s.Held 1 ∧ ¬ s.Held 2 ∧ s.DeliveredLeaf 0 ∧ 0 ∉ s.tails ∧
      ∃ s', Reachable extraHash Input.Valid s s' ∧ 8 ∈ s'.tails ∧
        s'.storage (s'.heap 3).hash = some 3 ∧ (s'.heap 3).delivered = true ∧
        (s'.heap 8).hash ∈ (s'.heap 3).data.parentHashes :=
  ⟨_, reachable_of_runFrom extraHash (init extraHash 0 [0, 1, 2, 3] 1)
    [.fetch ⟨[0], [], some ⟨0, [], true⟩, [1]⟩, .deliver 1,
      .fetch ⟨[1], [], some ⟨1, [], true⟩, [2]⟩, .deliver 2,
      .fetch ⟨[2], [], some ⟨2, [], true⟩, [3]⟩, .deliver 3,
      .fetch ⟨[3], [], some ⟨3, [], true⟩, [4]⟩, .deliver 4,
      .fetch ⟨[4], [], some ⟨4, [], true⟩, [5]⟩, .deliver 5,
      .fetch ⟨[5], [], some ⟨5, [], true⟩, [6]⟩, .deliver 6, .receiveProposal 1 6,
      .prune 1 (fun b => decide (b = 1 ∨ b = 2))] rfl,
    by decide, by decide, by decide, by decide,
    _, reachable_of_runFrom extraHash _
      [.fetch ⟨[0], [], some ⟨0, [], true⟩, [1]⟩, .deliver 7,
        .fetch ⟨[1], [], some ⟨1, [], true⟩, [2]⟩, .deliver 8] rfl,
    by decide, rfl, rfl, by decide⟩

end Core
end HotStuff
