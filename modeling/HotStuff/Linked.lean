import HotStuff.Wf

/-!
# Blocks linked by their hashes

A replica that never prunes releases no object, so every object is the one the storage
holds for its hash, and its hash is the hash of its content (`b0` aside). `on_deliver_blk`
resolves `parents` and `qc_ref` through the storage, so a delivered block's parents carry
the hashes its content lists and its `qc_ref` the hash its certificate names (`Linked`).
Every call keeps the objects it finds (`Keeps`). With a hash without collisions, the
height of a delivered block and its primary chain are fixed by its hash alone (`Height`,
`Extends`), so they are the same at every replica.
-/

namespace HotStuff

/-- The content `new Block(true, 1)` is hashed from. -/
def genesisData : BlockData := ⟨[], [], none, []⟩

theorem ne_genesisData {d : BlockData} {h : Hash} {hs : List Hash} (hd : d.parentHashes = h :: hs) :
    d ≠ genesisData := fun he => by rw [he] at hd; cases hd

section Chain

variable (H : BlockData → Hash)

/-- The height of a hash: `0` for genesis, one above its first parent for the hash of
a content with parents. -/
inductive Height : Hash → Nat → Prop
  | genesis : Height (H genesisData) 0
  | child {d : BlockData} {ph : Hash} {rest : List Hash} {n : Nat} :
      d.parentHashes = ph :: rest → Height ph n → Height (H d) (n + 1)

/-- `Extends H h a`: `a` is `h` or a block below it on its primary chain. -/
inductive Extends : Hash → Hash → Prop
  | refl (h : Hash) : Extends h h
  | child {d : BlockData} {ph : Hash} {rest : List Hash} {a : Hash} :
      d.parentHashes = ph :: rest → Extends ph a → Extends (H d) a

/-- `p ← blk` is a two-chain: `p` is the first parent of `blk` and the certificate `blk`
carries is for `p`, the shape the commit rule of `update` looks for. -/
def TwoChain (p blk : Hash) : Prop :=
  ∃ d rest qc, blk = H d ∧ d.parentHashes = p :: rest ∧ d.qc = some qc ∧ qc.objHash = p

variable {H}

theorem TwoChain.height {p blk : Hash} (hc : TwoChain H p blk) {n : Nat} (hp : Height H p n) :
    Height H blk (n + 1) := by
  obtain ⟨d, rest, qc, rfl, hd, -⟩ := hc
  exact .child hd hp

theorem TwoChain.extends {p blk : Hash} (hc : TwoChain H p blk) : Extends H blk p := by
  obtain ⟨d, rest, qc, rfl, hd, -⟩ := hc
  exact .child hd (.refl _)

theorem Extends.trans {h a b : Hash} (h1 : Extends H h a) (h2 : Extends H a b) : Extends H h b := by
  induction h1 with
  | refl => exact h2
  | child hd _ ih => exact .child hd (ih h2)

theorem Height.extends_genesis {h : Hash} {n : Nat} (hh : Height H h n) :
    Extends H h (H genesisData) := by
  induction hh with
  | genesis => exact .refl _
  | child hd _ ih => exact .child hd ih

theorem Height.eq_genesis {h : Hash} (hh : Height H h 0) : h = H genesisData := by
  cases hh; rfl

section Injective

variable (hH : Function.Injective H)
include hH

theorem Height.inv_genesis {n : Nat} (hh : Height H (H genesisData) n) : n = 0 := by
  generalize he : H genesisData = x at hh
  cases hh with
  | genesis => rfl
  | child hd _ => obtain rfl := hH he; simp [genesisData] at hd

theorem Height.inv_child {d : BlockData} {ph : Hash} {rest : List Hash} {n : Nat}
    (hd : d.parentHashes = ph :: rest) (hh : Height H (H d) n) : ∃ m, n = m + 1 ∧ Height H ph m := by
  generalize he : H d = x at hh
  cases hh with
  | genesis => simp [hH he, genesisData] at hd
  | child hd' hm =>
    obtain rfl := hH he
    rw [hd] at hd'
    cases hd'
    exact ⟨_, rfl, hm⟩

theorem Height.unique {h : Hash} {n m : Nat} (h1 : Height H h n) (h2 : Height H h m) : n = m := by
  induction h1 generalizing m with
  | genesis => exact (h2.inv_genesis hH).symm
  | child hd _ ih =>
    obtain ⟨k, rfl, hk⟩ := h2.inv_child hH hd
    rw [ih hk]

theorem Extends.inv_child {d : BlockData} {ph : Hash} {rest : List Hash} {b : Hash}
    (hd : d.parentHashes = ph :: rest) (he : Extends H (H d) b) : b = H d ∨ Extends H ph b := by
  generalize hx : H d = x at he
  cases he with
  | refl => exact .inl rfl
  | child hd' he' =>
    obtain rfl := hH hx
    rw [hd] at hd'
    cases hd'
    exact .inr he'

theorem Extends.lt_height {h a : Hash} {n m : Nat} (he : Extends H h a) (hh : Height H h n)
    (ha : Height H a m) : m < n ∨ h = a := by
  induction he generalizing n with
  | refl => exact .inr rfl
  | child hd _ ih =>
    obtain ⟨k, rfl, hk⟩ := hh.inv_child hH hd
    rcases ih hk ha with hlt | rfl
    · exact .inl (Nat.lt_succ_of_lt hlt)
    · exact .inl (by rw [ha.unique hH hk]; exact Nat.lt_succ_self k)

theorem Extends.total {h a b : Hash} (ha : Extends H h a) (hb : Extends H h b) :
    Extends H a b ∨ Extends H b a := by
  induction ha generalizing b with
  | refl => exact .inl hb
  | child hd ha' ih =>
    rcases hb.inv_child hH hd with rfl | hb'
    · exact .inr (.child hd ha')
    · exact ih hb'

end Injective

end Chain

namespace Core

/-! ## Objects a call keeps -/

/-- What a call keeps of the objects it finds. -/
structure Keeps (s s' : Core) : Prop where
  next_le : s.next ≤ s'.next
  storage : ∀ h p, s.storage h = some p → s'.storage h = some p
  obj : ∀ a < s.next, (s'.heap a).hash = (s.heap a).hash ∧ (s'.heap a).data = (s.heap a).data ∧
    (s.heap a).voted <:+ (s'.heap a).voted
  frozen : ∀ a < s.next, (s.heap a).delivered = true → (s'.heap a).delivered = true ∧
    (s'.heap a).height = (s.heap a).height ∧ (s'.heap a).parents = (s.heap a).parents ∧
    (s'.heap a).qcRef = (s.heap a).qcRef
  b0 : s'.b0 = s.b0
  id : s'.id = s.id
  nmajority : s'.nmajority = s.nmajority
  out : s.out <+: s'.out

theorem Keeps.refl (s : Core) : Keeps s s :=
  ⟨le_rfl, fun _ _ h => h, fun _ _ => ⟨rfl, rfl, List.suffix_refl _⟩, fun _ _ h => ⟨h, rfl, rfl, rfl⟩,
    rfl, rfl, rfl, List.prefix_refl _⟩

theorem Keeps.trans {s1 s2 s3 : Core} (h1 : Keeps s1 s2) (h2 : Keeps s2 s3) : Keeps s1 s3 where
  next_le := h1.next_le.trans h2.next_le
  storage h p hp := h2.storage h p (h1.storage h p hp)
  obj a ha := by
    obtain ⟨a1, b1, c1⟩ := h1.obj a ha
    obtain ⟨a2, b2, c2⟩ := h2.obj a (lt_of_lt_of_le ha h1.next_le)
    exact ⟨a2.trans a1, b2.trans b1, c1.trans c2⟩
  frozen a ha hd := by
    obtain ⟨d1, e1, f1, g1⟩ := h1.frozen a ha hd
    obtain ⟨d2, e2, f2, g2⟩ := h2.frozen a (lt_of_lt_of_le ha h1.next_le) d1
    exact ⟨d2, e2.trans e1, f2.trans f1, g2.trans g1⟩
  b0 := h2.b0.trans h1.b0
  id := h2.id.trans h1.id
  nmajority := h2.nmajority.trans h1.nmajority
  out := h1.out.trans h2.out

theorem keeps_frame {s s' : Core} (hh : s'.heap = s.heap) (hn : s'.next = s.next)
    (hs : s'.storage = s.storage) (hb : s'.b0 = s.b0) (hi : s'.id = s.id)
    (hm : s'.nmajority = s.nmajority) (ho : s.out <+: s'.out) : Keeps s s' :=
  ⟨hn.ge, fun h p hp => by rw [hs]; exact hp, fun a _ => by rw [hh]; exact ⟨rfl, rfl,
    List.suffix_refl _⟩, fun a _ hd => by rw [hh]; exact ⟨hd, rfl, rfl, rfl⟩, hb, hi, hm, ho⟩

theorem keeps_modBlk {s : Core} {b : Ptr} {f : Block → Block} (hf : KeepsShape f)
    (hv : (s.heap b).voted <:+ (f (s.heap b)).voted) : Keeps s (s.modBlk b f) := by
  refine ⟨le_rfl, fun _ _ h => h, fun a _ => ⟨hf.heap_hash s b a, hf.heap_data s b a, ?_⟩,
    fun a _ hd => ⟨by rwa [hf.heap_delivered], hf.heap_height s b a, hf.heap_parents s b a,
      hf.heap_qcRef s b a⟩, rfl, rfl, rfl, List.prefix_refl _⟩
  by_cases hab : a = b
  · subst hab; simpa using hv
  · simp [hab]

theorem keeps_addBlk (s : Core) (x : Block) : Keeps s (s.addBlk x).1 := by
  cases hs : s.storage x.hash with
  | some p => rw [addBlk_of_some s x hs]; exact .refl s
  | none =>
    rw [addBlk_of_none s x hs]
    have hne : ∀ h p, s.storage h = some p → h ≠ x.hash := fun h p hp he => by
      rw [he, hs] at hp; cases hp
    exact ⟨Nat.le_succ _, fun h p hp => by simp [hne h p hp, hp], fun a ha => by
      simp [ha.ne], fun a ha hd => by simp [ha.ne, hd], rfl, rfl, rfl, List.prefix_refl _⟩

theorem keeps_onDeliverBlk {s s' : Core} {b : Ptr} {r : Bool} (h : s.onDeliverBlk b = .ok (r, s')) :
    Keeps s s' := by
  rcases onDeliverBlk_cases h with ⟨-, -, rfl⟩ | ⟨hnd, -, p0, rest, qcRef, -, -, rfl⟩
  · exact .refl _
  refine ⟨le_rfl, fun _ _ h => h, fun a _ => ?_, fun a _ hd => ?_, rfl, rfl, rfl, List.prefix_refl _⟩
  · by_cases hab : a = b
    · subst hab; simp [setDelivered]
    · simp [hab]
  · have hab : a ≠ b := fun hab => by rw [hab, hnd] at hd; cases hd
    simp [hab, hd]

/-! ## The invariant -/

variable (H : BlockData → Hash)

/-- The objects of a replica that never pruned, against their hashes. -/
structure Linked (s : Core) : Prop where
  stored : ∀ p < s.next, s.storage (s.heap p).hash = some p
  hash : ∀ p < s.next, p ≠ s.b0 → (s.heap p).hash = H (s.heap p).data
  b0_hash : (s.heap s.b0).hash = H genesisData
  parents : ∀ p < s.next, (s.heap p).delivered = true → p ≠ s.b0 → (s.heap p).parents ≠ [] ∧
    (s.heap p).parents.map (fun a => (s.heap a).hash) = (s.heap p).data.parentHashes
  qcRef : ∀ p < s.next, (s.heap p).delivered = true → ∀ qc, (s.heap p).data.qc = some qc →
    ∃ a, (s.heap p).qcRef = some a ∧ (s.heap a).hash = qc.objHash
  selfQc : ∀ p < s.next, ∀ qc, (s.heap p).selfQc = some qc → qc.objHash = (s.heap p).hash

/-- A call that keeps its objects and keeps the replica `Linked`. -/
structure Tracks (s s' : Core) : Prop where
  keeps : Keeps s s'
  linked : s.Linked H → s'.Linked H

variable {H}

theorem Tracks.refl (s : Core) : Tracks H s s := ⟨.refl s, fun h => h⟩

theorem Tracks.trans {s1 s2 s3 : Core} (h1 : Tracks H s1 s2) (h2 : Tracks H s2 s3) : Tracks H s1 s3 :=
  ⟨h1.keeps.trans h2.keeps, fun h => h2.linked (h1.linked h)⟩

theorem tracks_frame {s s' : Core} (hh : s'.heap = s.heap) (hn : s'.next = s.next)
    (hs : s'.storage = s.storage) (hb : s'.b0 = s.b0) (hi : s'.id = s.id)
    (hm : s'.nmajority = s.nmajority) (ho : s.out <+: s'.out) : Tracks H s s' := by
  refine ⟨keeps_frame hh hn hs hb hi hm ho, fun ⟨h1, h2, h3, h4, h5, h6⟩ => ?_⟩
  refine ⟨?_, ?_, ?_, ?_, ?_, ?_⟩ <;> simp only [hh, hn, hs, hb] <;> assumption

theorem tracks_emit (s : Core) (e : Effect) : Tracks H s (s.emit e) :=
  tracks_frame rfl rfl rfl rfl rfl rfl (List.prefix_append _ _)

theorem tracks_modBlk {s : Core} {b : Ptr} {f : Block → Block} (hf : KeepsShape f)
    (hv : (s.heap b).voted <:+ (f (s.heap b)).voted)
    (hq : s.Linked H → b < s.next → ∀ qc, (f (s.heap b)).selfQc = some qc →
      qc.objHash = (s.heap b).hash) :
    Tracks H s (s.modBlk b f) := by
  have hh : ∀ p, ((s.modBlk b f).heap p).hash = (s.heap p).hash := hf.heap_hash s b
  refine ⟨keeps_modBlk hf hv, fun hl => ⟨?_, ?_, ?_, ?_, ?_, ?_⟩⟩
  · intro p hp; rw [hh]; exact hl.stored p hp
  · intro p hp hb0; rw [hh, hf.heap_data]; exact hl.hash p hp hb0
  · simpa only [modBlk_b0, hh] using hl.b0_hash
  · intro p hp hd hb0
    rw [hf.heap_delivered] at hd
    simp only [hf.heap_parents, hf.heap_data, hh]
    exact hl.parents p hp hd hb0
  · intro p hp hd qc hqc
    rw [hf.heap_delivered] at hd
    rw [hf.heap_data] at hqc
    simpa only [hf.heap_qcRef, hh] using hl.qcRef p hp hd qc hqc
  · intro p hp qc hqc
    rw [hh]
    by_cases hpb : p = b
    · subst hpb; exact hq hl hp qc (by simpa using hqc)
    · exact hl.selfQc p hp qc (by simpa [hpb] using hqc)

theorem tracks_addBlk {s : Core} (hw : s.Wf) {x : Block} (hx : x.hash = H x.data)
    (hxd : x.delivered = false) (hxq : x.selfQc = none) : Tracks H s (s.addBlk x).1 := by
  refine ⟨keeps_addBlk s x, fun hl => ?_⟩
  cases hs : s.storage x.hash with
  | some p => rw [addBlk_of_some s x hs]; exact hl
  | none =>
    rw [addBlk_of_none s x hs]
    have hne : ∀ h p, s.storage h = some p → h ≠ x.hash := fun h p hp he => by
      rw [he, hs] at hp; cases hp
    refine ⟨fun p hp => ?_, fun p hp hb0 => ?_, ?_, fun p hp hd hb0 => ?_,
      fun p hp hd qc hqc => ?_, fun p hp qc hqc => ?_⟩
    · rcases Nat.lt_succ_iff_lt_or_eq.mp hp with hp | rfl
      · simp [hp.ne, hne _ _ (hl.stored p hp), hl.stored p hp]
      · simp
    · rcases Nat.lt_succ_iff_lt_or_eq.mp hp with hp | rfl
      · simp [hp.ne, hl.hash p hp hb0]
      · simp [hx]
    · simp [hw.roots.b0_lt.ne, hl.b0_hash]
    · rcases Nat.lt_succ_iff_lt_or_eq.mp hp with hp | rfl
      · simp only [hp.ne, if_false] at hd ⊢
        have hlt : ∀ a ∈ (s.heap p).parents, a ≠ s.next := fun a ha =>
          ((hw.obj p hp).parents_lt a ha).ne
        rw [List.map_congr_left fun a ha => by rw [if_neg (hlt a ha)]]
        exact hl.parents p hp hd hb0
      · simp [hxd] at hd
    · rcases Nat.lt_succ_iff_lt_or_eq.mp hp with hp | rfl
      · simp only [hp.ne, if_false] at hd hqc ⊢
        obtain ⟨a, ha, hah⟩ := hl.qcRef p hp hd qc hqc
        exact ⟨a, ha, by simp [((hw.obj p hp).qcRef_lt a ha).ne, hah]⟩
      · simp [hxd] at hd
    · rcases Nat.lt_succ_iff_lt_or_eq.mp hp with hp | rfl
      · simp only [hp.ne, if_false] at hqc ⊢
        exact hl.selfQc p hp qc hqc
      · simp [hxq] at hqc

theorem map_hash_of_forall₂ {s : Core} (hst : ∀ h p, s.storage h = some p → (s.heap p).hash = h)
    {hs : List Hash} {ps : List Ptr} (h : List.Forall₂ (fun h p => s.storage h = some p) hs ps) :
    ps.map (fun a => (s.heap a).hash) = hs := by
  induction h with
  | nil => rfl
  | cons hp _ ih => rw [List.map_cons, ih, hst _ _ hp]

theorem tracks_onDeliverBlk {s s' : Core} {b : Ptr} {r : Bool}
    (hst : ∀ h p, s.storage h = some p → (s.heap p).hash = h) (h : s.onDeliverBlk b = .ok (r, s')) :
    Tracks H s s' := by
  refine ⟨keeps_onDeliverBlk h, fun hl => ?_⟩
  rcases onDeliverBlk_cases h with ⟨-, -, rfl⟩ | ⟨-, -, p0, rest, qcRef, hps, hres, rfl⟩
  · exact hl
  set s1 := s.modBlk b (setDelivered (p0 :: rest) ((s.heap p0).height + 1) qcRef)
  have hother : ∀ p, p ≠ b → s1.heap p = s.heap p := fun p hpb => by simp [s1, hpb]
  have hself : s1.heap b = setDelivered (p0 :: rest) ((s.heap p0).height + 1) qcRef (s.heap b) := by
    simp [s1]
  have hkeep : ∀ p, (s1.heap p).hash = (s.heap p).hash ∧ (s1.heap p).data = (s.heap p).data ∧
      (s1.heap p).selfQc = (s.heap p).selfQc := fun p => by
    by_cases hpb : p = b
    · subst hpb; simp [hself, setDelivered]
    · simp [hother p hpb]
  have hh : ∀ p, (s1.heap p).hash = (s.heap p).hash := fun p => (hkeep p).1
  refine ⟨?_, ?_, ?_, ?_, ?_, ?_⟩
  · intro p hp; simp only [hh]; exact hl.stored p hp
  · intro p hp hb0; simp only [hh, (hkeep p).2.1]; exact hl.hash p hp hb0
  · simpa only [hh] using hl.b0_hash
  · intro p hp hd hb0
    simp only [hh, (hkeep p).2.1]
    by_cases hpb : p = b
    · subst hpb
      rw [hself]
      exact ⟨List.cons_ne_nil _ _, map_hash_of_forall₂ hst (getDeliveredBlks_ok hps).1⟩
    · rw [hother p hpb] at hd ⊢
      exact hl.parents p hp hd hb0
  · intro p hp hd qc hqc
    simp only [hh]
    rw [(hkeep p).2.1] at hqc
    by_cases hpb : p = b
    · subst hpb
      rw [hself]
      rcases resolveQcRef_ok hres with ⟨hn, -⟩ | ⟨qc', q, hqc', hq, rfl⟩
      · rw [hn] at hqc; cases hqc
      · rw [hqc] at hqc'; cases hqc'
        exact ⟨q, rfl, hst _ _ hq⟩
    · rw [hother p hpb] at hd ⊢
      exact hl.qcRef p hp hd qc hqc
  · intro p hp qc hqc
    rw [hh, ← hl.selfQc p hp qc (by rwa [← (hkeep p).2.2])]

theorem tracks_updateHqc {s s' : Core} {blk : Ptr} {qc : Option QuorumCert}
    (h : s.updateHqc blk qc = .ok s') : Tracks H s s' := by
  rcases updateHqc_cases h with rfl | ⟨-, q, -, rfl⟩
  · exact .refl _
  · exact tracks_frame rfl rfl rfl rfl rfl rfl (List.prefix_append _ _)

theorem tracks_commitBlk (s : Core) (b : Ptr) : Tracks H s (s.commitBlk b) :=
  (tracks_modBlk keepsShape_decide (List.suffix_refl _) fun hl hb => hl.selfQc b hb).trans
    (tracks_frame rfl rfl rfl rfl rfl rfl (List.prefix_append _ _))

theorem tracks_foldl_commitBlk (s : Core) (l : List Ptr) : Tracks H s (l.foldl commitBlk s) := by
  induction l generalizing s with
  | nil => exact .refl s
  | cons b l ih => exact (tracks_commitBlk s b).trans (ih _)

theorem tracks_commit (s : Core) (queue : List Ptr) (p : Ptr) : Tracks H s (s.commit queue p) :=
  (tracks_foldl_commitBlk s queue.reverse).trans
    (tracks_frame rfl rfl rfl rfl rfl rfl (List.prefix_refl _))

theorem tracks_checkCommit {s s' : Core} {blk : Ptr} (h : s.checkCommit blk = .ok s') :
    Tracks H s s' := by
  rcases checkCommit_cases h with rfl | ⟨p, -, r, -, -, -, -, -, -, rfl⟩
  · exact .refl _
  · exact tracks_commit s r.2 p

theorem tracks_update {s s' : Core} {nblk : Ptr} (h : s.update nblk = .ok s') : Tracks H s s' := by
  obtain ⟨blk, s1, -, h1, h2⟩ := update_cases h
  exact (tracks_updateHqc h1).trans (tracks_checkCommit h2)

theorem tracks_onReceiveVote {s s' : Core} {v : Vote} (h : s.onReceiveVote v = .ok s') :
    Tracks H s s' := by
  obtain ⟨b, -, hc⟩ := onReceiveVote_cases h
  rcases hc with rfl | ⟨qc, -, hqc, hc⟩
  · exact .refl _
  have hm : Tracks H s (s.modBlk b fun x => { x with voted := v.voter :: x.voted, selfQc := some qc }) :=
    tracks_modBlk (keepsShape_vote (v.voter :: ·) fun _ => some qc) (List.suffix_cons _ _)
      fun hl hb qc' hqc' => by
      cases hqc'
      rw [hqc]
      cases hs : (s.heap b).selfQc with
      | none => rfl
      | some q => exact hl.selfQc b hb q hs
  rcases hc with rfl | ⟨-, h'⟩
  · exact hm
  · exact (hm.trans (tracks_emit _ _)).trans (tracks_updateHqc h')

theorem tracks_onReceiveProposal {s s' : Core} {r : ReplicaID} {bnew : Ptr}
    (h : s.onReceiveProposal r bnew = .ok s') : Tracks H s s' := by
  obtain ⟨-, s1, op, h1, -, rfl⟩ := onReceiveProposal_cases h
  exact (tracks_update h1).trans (tracks_frame rfl rfl rfl rfl rfl rfl
    ((List.prefix_append _ _).trans (List.prefix_append _ _)))

theorem tracks_proposeStored {s s' : Core} {bnew : Ptr}
    (hst : ∀ h p, s.storage h = some p → (s.heap p).hash = h) (h : s.proposeStored bnew = .ok s') :
    Tracks H s s' := by
  obtain ⟨r, s2, s3, s4, h2, h3, -, h4, rfl⟩ := proposeStored_cases h
  have hk := keepsShape_vote (fun l => l) fun _ => some (createQuorumCert (s.heap bnew).hash)
  have h1 : Tracks H s (s.modBlk bnew fun x => { x with selfQc := some (createQuorumCert (s.heap bnew).hash) }) :=
    tracks_modBlk hk (List.suffix_refl _) fun _ _ qc hqc => by cases hqc; rfl
  refine ((((h1.trans (tracks_onDeliverBlk (fun h p hp => by rw [hk.heap_hash]; exact hst h p hp) h2)).trans
    (tracks_update h3)).trans ?_).trans (tracks_onReceiveVote h4)).trans (tracks_emit _ _)
  exact tracks_frame rfl rfl rfl rfl rfl rfl (List.prefix_append _ _)

theorem addBlk_storage_hash {s : Core} (hw : s.Wf) (x : Block) :
    ∀ h p, (s.addBlk x).1.storage h = some p → ((s.addBlk x).1.heap p).hash = h := by
  cases hs : s.storage x.hash with
  | some q => rw [addBlk_of_some s x hs]; exact fun h p hp => (hw.roots.storage h p hp).2
  | none => exact fun h p hp => ((addBlk_alloc hw hs).2.2.2.2.storage h p hp).2

theorem tracks_onPropose {s s' : Core} (hw : s.Wf) {cmds : List Hash} {parents : List Ptr}
    {extra : List Nat} (h : s.onPropose H cmds parents extra = .ok s') : Tracks H s s' := by
  obtain ⟨p, rest, r, rfl, -, h'⟩ := onPropose_cases h
  have hw1 : { s with tails := s.tails.filter fun t => t ∉ p :: rest }.Wf := ⟨hw.obj, hw.roots⟩
  have h0 : Tracks H s { s with tails := s.tails.filter fun t => t ∉ p :: rest } :=
    tracks_frame rfl rfl rfl rfl rfl rfl (List.prefix_refl _)
  exact h0.trans ((tracks_addBlk hw1 rfl rfl rfl).trans
    (tracks_proposeStored (addBlk_storage_hash hw1 _) h'))

theorem tracks_exec {s s' : Core} (hw : s.Wf) {i : Input} (hv : i.NoPrune s)
    (h : exec H s i = .ok s') : Tracks H s s' := by
  cases i with
  | fetch d => cases h; exact tracks_addBlk hw rfl rfl rfl
  | deliver b =>
    obtain ⟨⟨r, s''⟩, h', rfl⟩ := except_map_eq_ok.mp h
    exact tracks_onDeliverBlk (fun h p hp => (hw.roots.storage h p hp).2) h'
  | propose cmds parents extra => exact tracks_onPropose hw h
  | receiveProposal r b => exact tracks_onReceiveProposal h
  | receiveVote v => exact tracks_onReceiveVote h
  | prune k rel => exact absurd rfl (hv.2 k rel)

/-! ## Start and runs -/

theorem linked_new (id : ReplicaID) : (new H id).Linked H := by
  refine ⟨fun p hp => ?_, fun p hp hb0 => absurd (Nat.lt_one_iff.mp hp) hb0, rfl,
    fun p hp _ hb0 => absurd (Nat.lt_one_iff.mp hp) hb0, fun p _ _ qc hqc => ?_, fun p _ qc hqc => ?_⟩
  · obtain rfl := Nat.lt_one_iff.mp hp; simp [new]
  · simp [new, genesis, Block.ofData] at hqc
  · simp [new, genesis, Block.ofData] at hqc

theorem Linked.onInit {s : Core} (hl : s.Linked H) (n : Nat) : (s.onInit n).Linked H := by
  have hother : ∀ p, p ≠ s.b0 → (s.onInit n).heap p = s.heap p := fun p hp => by
    simp [Core.onInit, hp]
  have hf : ∀ p, ((s.onInit n).heap p).hash = (s.heap p).hash := fun p => by
    by_cases hp : p = s.b0 <;> simp [Core.onInit, hp]
  refine ⟨fun p hp => ?_, fun p hp hpb => ?_, ?_, fun p hp hd hpb => ?_, fun p hp hd qc hqc => ?_,
    fun p hp qc hqc => ?_⟩
  · rw [hf]; exact hl.stored p hp
  · rw [hother p hpb]; exact hl.hash p hp hpb
  · rw [hf]; exact hl.b0_hash
  · rw [hother p hpb] at hd ⊢
    simp only [hf]
    exact hl.parents p hp hd hpb
  · by_cases hpb : p = s.b0
    · subst hpb
      simp only [Core.onInit, modBlk_heap, if_true, Option.some.injEq] at hqc ⊢
      subst hqc
      exact ⟨s.b0, rfl, by simp [createQuorumCert, QuorumCert.compute]⟩
    · rw [hother p hpb] at hd hqc ⊢
      simpa only [hf] using hl.qcRef p hp hd qc hqc
  · rw [hf]
    by_cases hpb : p = s.b0
    · subst hpb
      simp only [Core.onInit, modBlk_heap, if_true, Option.some.injEq] at hqc
      subst hqc; rfl
    · rw [hother p hpb] at hqc
      exact hl.selfQc p hp qc hqc

theorem linked_init (id : ReplicaID) (rs : List ReplicaID) (nfaulty : Nat) :
    (init H id rs nfaulty).Linked H := by
  have : ∀ s : Core, s.Linked H → s.Wf → (rs.foldl addReplica s).Linked H ∧ (rs.foldl addReplica s).Wf := by
    induction rs with
    | nil => exact fun s hl hw => ⟨hl, hw⟩
    | cons r rs ih =>
      intro s hl hw
      have ht : Tracks H s (s.addReplica r) :=
        tracks_modBlk (b := s.b0) (keepsShape_vote (fun v => if r ∈ v then v else r :: v) fun c => c)
          (by dsimp only; split_ifs <;> simp) fun hl hb => hl.selfQc _ hb
      exact ih _ (ht.linked hl) (hw.addReplica r)
  obtain ⟨hl, hw⟩ := this _ (linked_new id) (wf_new H id)
  exact hl.onInit nfaulty

theorem reachable_linked {A : Core → Input → Prop} (hA : ∀ s i, A s i → i.NoPrune s) {id : ReplicaID}
    {rs : List ReplicaID} {nfaulty : Nat} {s : Core} (hr : Reachable H A (init H id rs nfaulty) s) :
    s.Linked H :=
  Reachable.induct_on H hr (linked_init id rs nfaulty) fun s _ _ hr' hl ha h =>
    (tracks_exec (reachable_wf (fun s i h => (hA s i h).1) hr') (hA s _ ha) h).linked hl

/-! ## Hashes of delivered blocks -/

theorem Linked.child {s : Core} (hl : s.Linked H) {p : Ptr} (hp : p < s.next)
    (hd : (s.heap p).delivered = true) (hpb : p ≠ s.b0) {a : Ptr} {rest : List Ptr}
    (hpar : (s.heap p).parents = a :: rest) :
    (s.heap p).hash = H (s.heap p).data ∧
      (s.heap p).data.parentHashes = (s.heap a).hash :: rest.map fun q => (s.heap q).hash := by
  have hmap := (hl.parents p hp hd hpb).2
  rw [hpar, List.map_cons] at hmap
  exact ⟨hl.hash p hp hpb, hmap.symm⟩

theorem Linked.height {s : Core} (hl : s.Linked H) (hw : s.Wf) {p : Ptr} (hp : p < s.next)
    (hd : (s.heap p).delivered = true) : Height H (s.heap p).hash (s.heap p).height := by
  suffices h : ∀ n p, p < s.next → (s.heap p).delivered = true → (s.heap p).height = n →
      Height H (s.heap p).hash n from h _ p hp hd rfl
  intro n
  induction n with
  | zero =>
    intro p hp hd hn
    by_cases hpb : p = s.b0
    · subst hpb; rw [hl.b0_hash]; exact .genesis
    · obtain ⟨a, rest, hpar⟩ := List.exists_cons_of_ne_nil (hl.parents p hp hd hpb).1
      have := (hw.parent hp hpar).2.2; omega
  | succ n ih =>
    intro p hp hd hn
    have hpb : p ≠ s.b0 := by rintro rfl; rw [hw.roots.b0_height] at hn; omega
    obtain ⟨a, rest, hpar⟩ := List.exists_cons_of_ne_nil (hl.parents p hp hd hpb).1
    obtain ⟨ha, had, hh⟩ := hw.parent hp hpar
    obtain ⟨hhash, hmap⟩ := hl.child hp hd hpb hpar
    rw [hhash]
    exact .child hmap (ih a ha had (by omega))

theorem Linked.extends_of_walkPath {s : Core} (hl : s.Linked H) (hw : s.Wf) {h : Nat} {b e : Ptr}
    {q : List Ptr} (hp : WalkPath s h b e q) (hb : b < s.next) (hd : (s.heap b).delivered = true) :
    ∀ x ∈ e :: q, Extends H (s.heap b).hash (s.heap x).hash := by
  induction hp with
  | stop => intro x hx; rw [List.mem_singleton.mp hx]; exact .refl _
  | @step b' a e' rest q hlt hpar _ ih =>
    have hpb : b' ≠ s.b0 := by rintro rfl; rw [hw.roots.b0_height] at hlt; omega
    obtain ⟨ha, had, -⟩ := hw.parent hb hpar
    obtain ⟨hhash, hmap⟩ := hl.child hb hd hpb hpar
    have hstep : Extends H (s.heap b').hash (s.heap a).hash := by rw [hhash]; exact .child hmap (.refl _)
    intro x hx
    rcases List.mem_cons.mp hx with rfl | hx
    · exact hstep.trans (ih ha had x (List.mem_cons_self _ _))
    rcases List.mem_cons.mp hx with rfl | hx
    · exact .refl _
    · exact hstep.trans (ih ha had x (List.mem_cons_of_mem _ hx))

theorem Linked.twoChain {s : Core} (hl : s.Linked H) (hw : s.Wf) {blk e : Ptr} {rest : List Ptr}
    (hb : blk < s.next) (hd : (s.heap blk).delivered = true) (hpar : (s.heap blk).parents = e :: rest)
    (hq : (s.heap blk).qcRef = some e) : TwoChain H (s.heap e).hash (s.heap blk).hash := by
  have hpb : blk ≠ s.b0 := by
    rintro rfl; have := (hw.parent hb hpar).2.2; rw [hw.roots.b0_height] at this; omega
  obtain ⟨hhash, hmap⟩ := hl.child hb hd hpb hpar
  cases hqc : (s.heap blk).data.qc with
  | none => rw [(hw.obj blk hb).qc_none hqc] at hq; cases hq
  | some qc =>
    obtain ⟨a, ha, hah⟩ := hl.qcRef blk hb hd qc hqc
    rw [hq] at ha; cases ha
    exact ⟨_, _, qc, hhash, hmap, hqc, hah.symm⟩

theorem Linked.of_twoChain (hH : Function.Injective H) {s : Core} (hl : s.Linked H) (hw : s.Wf)
    {g : Ptr} {p : Hash} (hg : g < s.next) (hd : (s.heap g).delivered = true)
    (hc : TwoChain H p (s.heap g).hash) :
    ∃ a rest, (s.heap g).qcRef = some a ∧ (s.heap g).parents = a :: rest ∧ (s.heap a).hash = p := by
  obtain ⟨d, rest, qc, hgd, hpd, hqc, hqh⟩ := hc
  have hgb : g ≠ s.b0 := by
    rintro rfl; rw [hl.b0_hash] at hgd; rw [← hH hgd] at hpd; cases hpd
  have hdata : (s.heap g).data = d := hH ((hl.hash g hg hgb).symm.trans hgd)
  obtain ⟨a, rest', hpar⟩ := List.exists_cons_of_ne_nil (hl.parents g hg hd hgb).1
  obtain ⟨-, hmap⟩ := hl.child hg hd hgb hpar
  rw [hdata, hpd] at hmap
  obtain ⟨a', ha', hah'⟩ := hl.qcRef g hg hd qc (hdata ▸ hqc)
  have hal := (hw.parent hg hpar).1
  have ha'l := (hw.obj g hg).qcRef_lt a' ha'
  have : a' = a := Option.some.inj ((hl.stored a' ha'l).symm.trans
    (by rw [hah', hqh, (List.cons.inj hmap).1]; exact hl.stored a hal))
  subst this
  exact ⟨a', rest', ha', hpar, (List.cons.inj hmap).1.symm⟩

end Core

end HotStuff
