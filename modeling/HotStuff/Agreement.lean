import HotStuff.Backing
import HotStuff.CommitLog
import Mathlib.Data.Finset.Card
import Mathlib.Logic.Equiv.List

/-!
# Agreement

A system of replicas, at most `f` of them Byzantine and at most `3f + 1` in all, each
honest one a `HotStuffCore` as `HotStuffBase::start` leaves it, with `nmajority = 2f + 1`.
A step is one call other than `prune` of one honest replica, with any arguments the rest
of the system can produce: a vote of an honest replica arrives only once it was cast, and
a certificate a delivered block carries stands for `2f + 1` replicas, every honest one of
which voted for the block (`RawCert`). Messages may be reordered, delayed, duplicated or
lost. Each vote is cast under a lock (`Locked`), two quorums share an honest replica, and
so the blocks honest replicas commit lie on one chain.
-/

namespace HotStuff

instance : Encodable QuorumCert :=
  Encodable.ofEquiv (Hash × List ReplicaID × Bool)
    ⟨fun q => (q.objHash, q.parts, q.computed), fun t => ⟨t.1, t.2.1, t.2.2⟩, fun _ => rfl, fun _ => rfl⟩

instance : Encodable BlockData :=
  Encodable.ofEquiv (List Hash × List Hash × Option QuorumCert × List Nat)
    ⟨fun d => (d.parentHashes, d.cmds, d.qc, d.extra), fun t => ⟨t.1, t.2.1, t.2.2.1, t.2.2.2⟩,
      fun _ => rfl, fun _ => rfl⟩

/-- A hash without collisions: the encoding of the content. -/
def encodeHash : BlockData → Hash := Encodable.encode

theorem encodeHash_injective : Function.Injective encodeHash := Encodable.encode_injective

/-- The replicas of a system, `faulty` the Byzantine ones among them. -/
structure System where
  replicas : List ReplicaID
  nfaulty : Nat
  faulty : List ReplicaID
  size_le : replicas.toFinset.card ≤ 3 * nfaulty + 1
  faulty_le : faulty.toFinset.card ≤ nfaulty

abbrev World := ReplicaID → Core

/-- Replica `v` voted for a block with hash `h`. -/
def Voted (w : World) (v : ReplicaID) (h : Hash) : Prop :=
  ∃ g ∈ (w v).votes, ((w v).heap g).hash = h

namespace Core

theorem votes_prefix {s s' : Core} (hk : Keeps s s') : s.votes <+: s'.votes :=
  hk.out.filterMap _

theorem VoteInv.mem_of_lt {s s' : Core} (hv : s'.VoteInv) (hp : s.votes <+: s'.votes) {g g' : Ptr}
    (hg : g ∈ s.votes) (hg' : g' ∈ s'.votes) (hlt : (s'.heap g').height < (s'.heap g).height) :
    g' ∈ s.votes := by
  obtain ⟨l, hl⟩ := hp
  have hs := hv.sorted
  unfold voteHeights at hs
  rw [← hl, List.map_append, List.pairwise_append] at hs
  rw [← hl, List.mem_append] at hg'
  refine hg'.resolve_right fun h => ?_
  exact absurd (hs.2.2 _ (List.mem_map_of_mem _ hg) _ (List.mem_map_of_mem _ h)) (not_lt.mpr hlt.le)

theorem VoteInv.eq_of_height {s : Core} (hv : s.VoteInv) {g g' : Ptr} (hg : g ∈ s.votes)
    (hg' : g' ∈ s.votes) (hh : (s.heap g).height = (s.heap g').height) : g = g' := by
  have hs := hv.sorted
  unfold voteHeights at hs
  rw [List.pairwise_map] at hs
  generalize s.votes = l at hs hg hg'
  induction l with
  | nil => cases hg
  | cons x l ih =>
    obtain ⟨hx, hl⟩ := List.pairwise_cons.mp hs
    rcases List.mem_cons.mp hg with rfl | hgl
    · rcases List.mem_cons.mp hg' with rfl | hgl'
      · rfl
      · exact absurd hh (hx _ hgl').ne
    · rcases List.mem_cons.mp hg' with rfl | hgl'
      · exact absurd hh.symm (hx _ hgl).ne
      · exact ih hl hgl hgl'

theorem votes_init (H : BlockData → Hash) (id : ReplicaID) (rs : List ReplicaID) (nfaulty : Nat) :
    (init H id rs nfaulty).votes = [] := by
  unfold init onInit votes; rw [foldl_addReplica_eq]; rfl

theorem reachable_id {H : BlockData → Hash} {A : Core → Input → Prop} (hA : ∀ s i, A s i → i.NoPrune s)
    {id : ReplicaID} {rs : List ReplicaID} {nfaulty : Nat} {s : Core}
    (hr : Reachable H A (init H id rs nfaulty) s) : s.id = id ∧ s.nmajority = 2 * nfaulty + 1 := by
  have h0 : (init H id rs nfaulty).id = id ∧ (init H id rs nfaulty).nmajority = 2 * nfaulty + 1 := by
    unfold init onInit; rw [foldl_addReplica_eq]; exact ⟨rfl, rfl⟩
  refine hr.induct_on H (P := fun s => s.id = id ∧ s.nmajority = 2 * nfaulty + 1) h0
    fun s s' i hr' hs ha he => ?_
  have hk := (tracks_exec (reachable_wf (fun _ _ h => (hA _ _ h).1) hr') (hA _ _ ha) he).keeps
  exact ⟨hk.id.trans hs.1, hk.nmajority.trans hs.2⟩

end Core

namespace System

variable (sys : System) (H : BlockData → Hash)

def Honest (r : ReplicaID) : Prop := r ∈ sys.replicas ∧ r ∉ sys.faulty

def start : World := fun r => Core.init H r sys.replicas sys.nfaulty

def Quorum (Q : Finset ReplicaID) : Prop := Q ⊆ sys.replicas.toFinset ∧ 2 * sys.nfaulty + 1 ≤ Q.card

/-- A vote of `v` for `h` can arrive: `v` is a replica, and an honest one voted for `h`. -/
def VoteOk (w : World) (v : ReplicaID) (h : Hash) : Prop :=
  v ∈ sys.replicas ∧ (v ∉ sys.faulty → Voted w v h)

/-- A certificate for `h` can be formed: `h` is genesis, or a quorum stands behind it,
each honest member with a vote for it. -/
def RawCert (w : World) (h : Hash) : Prop :=
  h = H genesisData ∨ ∃ Q, sys.Quorum Q ∧ ∀ v ∈ Q, v ∉ sys.faulty → Voted w v h

/-- One call of one honest replica, admitted by the rest of the system. -/
inductive Step : World → World → Prop
  | exec {w : World} {r : ReplicaID} {i : Input} {s' : Core} : sys.Honest r →
      i.Admits (sys.VoteOk w) (sys.RawCert H w) (w r) → exec H (w r) i = .ok s' →
      Step w (Function.update w r s')

inductive Reachable : World → Prop
  | start : Reachable (sys.start H)
  | step {w w' : World} : Reachable w → sys.Step H w w' → Reachable w'

/-- The lock of the vote of `r` for `g`: a certified block `c` of height `k`, below `g` on
its primary chain, at least as high as the certified parent of every lower block `r`
voted for. -/
def Locked (w : World) (r : ReplicaID) (g : Ptr) : Prop :=
  ∃ c k, sys.RawCert H w c ∧ Height H c k ∧ k < ((w r).heap g).height ∧
    Extends H ((w r).heap g).hash c ∧
    ∀ g' ∈ (w r).votes, ((w r).heap g').height < ((w r).heap g).height → ∀ a rest,
      ((w r).heap g').qcRef = some a → ((w r).heap g').parents = a :: rest →
        ((w r).heap a).height ≤ k

/-- A certificate for `h` whose honest voters all voted under a lock. -/
def LockedCert (w : World) (h : Hash) : Prop :=
  h = H genesisData ∨ ∃ Q, sys.Quorum Q ∧ ∀ v ∈ Q, v ∉ sys.faulty →
    ∃ g ∈ (w v).votes, ((w v).heap g).hash = h ∧ sys.Locked H w v g

/-- The invariant of the system: each honest replica ran its own calls, admitted by the
world as it is now, and each of its votes was cast under a lock or for a block whose
certificate was already there. -/
structure Safe (w : World) : Prop where
  run : ∀ r, sys.Honest r → HotStuff.Reachable H (Input.Admits (sys.VoteOk w) (sys.RawCert H w))
    (Core.init H r sys.replicas sys.nfaulty) (w r)
  vote : ∀ r, sys.Honest r → ∀ g ∈ (w r).votes, sys.Locked H w r g ∨ sys.LockedCert H w ((w r).heap g).hash

/-- What its own run gives an honest replica. -/
structure ReplicaOk (w : World) (r : ReplicaID) : Prop where
  mono : (w r).MonoInv
  linked : (w r).Linked H
  backed : (w r).Backed (sys.VoteOk w) (sys.RawCert H w)
  log : ∃ q, (w r).ChainLog q
  id : (w r).id = r
  nmajority : (w r).nmajority = 2 * sys.nfaulty + 1

variable {sys H}

theorem Quorum.inter {Q Q' : Finset ReplicaID} (hQ : sys.Quorum Q) (hQ' : sys.Quorum Q') :
    ∃ v ∈ Q, v ∈ Q' ∧ v ∉ sys.faulty := by
  by_contra hne
  push_neg at hne
  have hsub : Q ∩ Q' ⊆ sys.faulty.toFinset := fun v hv =>
    List.mem_toFinset.mpr (hne v (Finset.mem_inter.mp hv).1 (Finset.mem_inter.mp hv).2)
  have h1 := Finset.card_le_card hsub
  have h2 := Finset.card_le_card (Finset.union_subset hQ.1 hQ'.1)
  have h3 := Finset.card_union_add_card_inter Q Q'
  have := sys.size_le; have := sys.faulty_le; have := hQ.2; have := hQ'.2
  omega

theorem Quorum.honest {Q : Finset ReplicaID} (hQ : sys.Quorum Q) {v : ReplicaID} (hv : v ∈ Q)
    (hf : v ∉ sys.faulty) : sys.Honest v :=
  ⟨List.mem_toFinset.mp (hQ.1 hv), hf⟩

theorem Safe.replica (hH : Function.Injective H) {w : World} (hs : sys.Safe H w) {r : ReplicaID}
    (hr : sys.Honest r) : sys.ReplicaOk H w r :=
  have hrun := hs.run r hr
  ⟨Core.reachable_monoInv (hrun.mono H fun _ _ ha => ha.1.1),
    Core.reachable_linked (fun _ _ ha => ha.1) hrun, Core.reachable_backed hH hrun,
    (Core.reachable_chainLog (hrun.mono H fun _ _ ha => ha.1)).2,
    (Core.reachable_id (fun _ _ ha => ha.1) hrun).1, (Core.reachable_id (fun _ _ ha => ha.1) hrun).2⟩

theorem ReplicaOk.rawCert {w : World} {r : ReplicaID} (ho : sys.ReplicaOk H w r) (hr : sys.Honest r)
    {c : Ptr} (hc : c < (w r).next) (h : (w r).Certified (sys.RawCert H w) c) :
    sys.RawCert H w ((w r).heap c).hash := by
  by_cases hcb : c = (w r).b0
  · subst hcb; exact .inl ho.linked.b0_hash
  rcases h with h | h | h
  · exact h
  · exact absurd h hcb
  obtain ⟨hnd, hvv⟩ := ho.backed.voted c hc hcb
  refine .inr ⟨((w r).heap c).voted.toFinset, ⟨fun v hv => ?_, ?_⟩, fun v hv hvf => ?_⟩
  · rcases hvv v (List.mem_toFinset.mp hv) with h | ⟨rfl, -⟩
    · exact List.mem_toFinset.mpr h.1
    · rw [ho.id]; exact List.mem_toFinset.mpr hr.1
  · rw [List.toFinset_card_of_nodup hnd, ← ho.nmajority]; exact h
  · rcases hvv v (List.mem_toFinset.mp hv) with h | ⟨rfl, hcv⟩
    · exact h.2 hvf
    · rw [ho.id]; exact ⟨c, hcv, rfl⟩

/-! ## Later worlds -/

/-- `w'` keeps, at every honest replica, the objects of `w`, and its votes are in
increasing height. -/
def Later (w w' : World) : Prop := ∀ v, sys.Honest v → Core.Keeps (w v) (w' v) ∧ (w' v).VoteInv

section Later

variable {w w' : World} (hH : Function.Injective H) (hs : sys.Safe H w) (hl : sys.Later w w')
include hH hs hl

theorem Later.voted {v : ReplicaID} (hv : sys.Honest v) {h : Hash} (hvt : Voted w v h) : Voted w' v h := by
  obtain ⟨g, hg, hgh⟩ := hvt
  have hk := (hl v hv).1
  exact ⟨g, (Core.votes_prefix hk).subset hg,
    (hk.obj g ((hs.replica hH hv).mono.votes.lt g hg)).1.trans hgh⟩

theorem Later.rawCert {h : Hash} (hc : sys.RawCert H w h) : sys.RawCert H w' h :=
  hc.imp_right fun ⟨Q, hQ, hv⟩ =>
    ⟨Q, hQ, fun v hvQ hvf => hl.voted hH hs (hQ.honest hvQ hvf) (hv v hvQ hvf)⟩

theorem Later.voteOk {v : ReplicaID} {h : Hash} (hc : sys.VoteOk w v h) : sys.VoteOk w' v h :=
  ⟨hc.1, fun hvf => hl.voted hH hs ⟨hc.1, hvf⟩ (hc.2 hvf)⟩

theorem Later.locked {v : ReplicaID} (hv : sys.Honest v) {g : Ptr} (hg : g ∈ (w v).votes)
    (hlk : sys.Locked H w v g) : sys.Locked H w' v g := by
  obtain ⟨c, k, hc, hck, hkg, hext, hlev⟩ := hlk
  have ho := hs.replica hH hv
  obtain ⟨hk, hvi'⟩ := hl v hv
  have hvi := ho.mono.votes
  obtain ⟨-, hgh, -, -⟩ := hk.frozen g (hvi.lt g hg) (hvi.delivered g hg)
  refine ⟨c, k, hl.rawCert hH hs hc, hck, by rw [hgh]; exact hkg,
    by rw [(hk.obj g (hvi.lt g hg)).1]; exact hext, fun g' hg' hlt a rest ha hp => ?_⟩
  have hg'o := hvi'.mem_of_lt (Core.votes_prefix hk) hg hg' hlt
  obtain ⟨-, hgh', hp', ha'⟩ := hk.frozen g' (hvi.lt g' hg'o) (hvi.delivered g' hg'o)
  rw [ha'] at ha; rw [hp'] at hp
  obtain ⟨hal, had, -⟩ := ho.mono.wf.parent (hvi.lt g' hg'o) hp
  rw [(hk.frozen a hal had).2.1]
  exact hlev g' hg'o (by rw [← hgh', ← hgh]; exact hlt) a rest ha hp

theorem Later.lockedCert {h : Hash} (hc : sys.LockedCert H w h) : sys.LockedCert H w' h := by
  refine hc.imp_right fun ⟨Q, hQ, hv⟩ => ⟨Q, hQ, fun v hvQ hvf => ?_⟩
  obtain ⟨g, hg, hgh, hlk⟩ := hv v hvQ hvf
  have hv' := hQ.honest hvQ hvf
  have hk := (hl v hv').1
  exact ⟨g, (Core.votes_prefix hk).subset hg,
    (hk.obj g ((hs.replica hH hv').mono.votes.lt g hg)).1.trans hgh, hl.locked hH hs hv' hg hlk⟩

end Later

/-! ## The invariant along runs -/

theorem Safe.cert {w : World} (hs : sys.Safe H w) {h : Hash} (hc : sys.RawCert H w h) :
    sys.LockedCert H w h := by
  rcases hc with hg | ⟨Q, hQ, hv⟩
  · exact .inl hg
  by_cases hex : ∃ v ∈ Q, v ∉ sys.faulty ∧ ∃ g ∈ (w v).votes, ((w v).heap g).hash = h ∧
      ¬ sys.Locked H w v g
  · obtain ⟨v, hvQ, hvf, g, hg, hgh, hnl⟩ := hex
    exact hgh ▸ (hs.vote v (hQ.honest hvQ hvf) g hg).resolve_left hnl
  · push_neg at hex
    refine .inr ⟨Q, hQ, fun v hvQ hvf => ?_⟩
    obtain ⟨g, hg, hgh⟩ := hv v hvQ hvf
    exact ⟨g, hg, hgh, hex v hvQ hvf g hg hgh⟩

theorem safe_start : sys.Safe H (sys.start H) :=
  ⟨fun _ _ => .refl, fun r _ g hg => by simp [start, Core.votes_init] at hg⟩

/-- One step keeps the system safe: the replica that moves casts at most one vote, under
the lock `exec_vote_lock` gives it, and every certificate and lock stays. -/
theorem Safe.step (hH : Function.Injective H) {w w' : World} (hs : sys.Safe H w)
    (hst : sys.Step H w w') : sys.Safe H w' := by
  cases hst with
  | @exec r i s' hr ha he =>
  have ho := hs.replica hH hr
  have ht := Core.tracks_exec ho.mono.wf ha.1 he
  have hm' := (ho.mono.exec ha.1.1 he).1
  have hself : Function.update w r s' r = s' := Function.update_same _ _ _
  have hother : ∀ v, v ≠ r → Function.update w r s' v = w v := fun v hv => Function.update_noteq hv _ _
  have hl : sys.Later w (Function.update w r s') := fun v hv => by
    by_cases hvr : v = r
    · subst hvr; rw [hself]; exact ⟨ht.keeps, hm'.votes⟩
    · rw [hother v hvr]; exact ⟨.refl _, (hs.replica hH hv).mono.votes⟩
  have hadm : ∀ (s : Core) (j : Input), j.Admits (sys.VoteOk w) (sys.RawCert H w) s →
      j.Admits (sys.VoteOk (Function.update w r s')) (sys.RawCert H (Function.update w r s')) s :=
    fun _ _ h => h.mono (fun _ _ => hl.voteOk hH hs) (fun _ => hl.rawCert hH hs)
  refine ⟨fun v hv => ?_, fun v hv g hg => ?_⟩
  · by_cases hvr : v = r
    · subst hvr; rw [hself]; exact ((hs.run v hv).tail i ha he).mono H hadm
    · rw [hother v hvr]; exact (hs.run v hv).mono H hadm
  by_cases hvr : v = r
  swap
  · rw [hother v hvr] at hg ⊢
    exact (hs.vote v hv g hg).imp (hl.locked hH hs hv hg) (hl.lockedCert hH hs)
  subst hvr
  rw [hself] at hg ⊢
  have old : ∀ g ∈ (w v).votes, sys.Locked H (Function.update w v s') v g ∨
      sys.LockedCert H (Function.update w v s') (s'.heap g).hash := fun g hg => by
    rw [(ht.keeps.obj g (ho.mono.votes.lt g hg)).1]
    exact (hs.vote v hr g hg).imp (hl.locked hH hs hr hg) (hl.lockedCert hH hs)
  rcases Core.exec_vote_lock hH ho.mono ho.backed ho.linked ha.1 he with hvs | ⟨b, c, q, hvs, hcl, hcc, hwalk, hlev⟩
  · exact old g (hvs ▸ hg)
  rw [hvs, List.mem_append, List.mem_singleton] at hg
  rcases hg with hg | rfl
  · exact old g hg
  have hcr := ho.rawCert hr hcl hcc
  have hch : (s'.heap c).hash = ((w v).heap c).hash := (ht.keeps.obj c hcl).1
  rcases hwalk.height_le with hcb | hlt
  · right; rw [← hcb, hch]; exact hl.lockedCert hH hs (hs.cert hcr)
  left
  have hgv : g ∈ s'.votes := by rw [hvs]; exact List.mem_append_right _ (List.mem_singleton_self _)
  have hgl := hm'.votes.lt g hgv
  have hgd := hm'.votes.delivered g hgv
  have hl' := ht.linked ho.linked
  obtain ⟨hcl', hcd', -, -⟩ := hwalk.wf hm'.wf hgl hgd
  unfold Locked; rw [hself]
  refine ⟨(s'.heap c).hash, (s'.heap c).height, by rw [hch]; exact hl.rawCert hH hs hcr,
    hl'.height hm'.wf hcl' hcd', hlt, hl'.extends_of_walkPath hm'.wf hwalk hgl hgd c (List.mem_cons_self _ _),
    fun g' hg' hlt' a rest ha hp => hlev g' ?_ a rest ha hp⟩
  rw [hvs, List.mem_append, List.mem_singleton] at hg'
  exact hg'.resolve_right fun he => absurd hlt' (by rw [he]; exact lt_irrefl _)

theorem reachable_safe (hH : Function.Injective H) {w : World} (hw : sys.Reachable H w) :
    sys.Safe H w := by
  induction hw with
  | start => exact safe_start
  | step _ hst ih => exact ih.step hH hst

/-! ## Certified blocks form one chain -/

section Safe

variable {w : World} (hH : Function.Injective H) (hs : sys.Safe H w)
include hH hs

/-- Two certified blocks of one height are one block: an honest replica in both quorums
voted for both, and it votes once per height. -/
theorem Safe.rawCert_unique {h h' : Hash} {n : Nat} (hc : sys.RawCert H w h)
    (hc' : sys.RawCert H w h') (hn : Height H h n) (hn' : Height H h' n) : h = h' := by
  rcases hc with rfl | ⟨Q, hQ, hQv⟩
  · rw [hn.inv_genesis hH] at hn'; exact hn'.eq_genesis.symm
  rcases hc' with rfl | ⟨Q', hQ', hQv'⟩
  · rw [hn'.inv_genesis hH] at hn; exact hn.eq_genesis
  obtain ⟨v, hvQ, hvQ', hvf⟩ := hQ.inter hQ'
  have ho := hs.replica hH (hQ.honest hvQ hvf)
  have hvi := ho.mono.votes
  obtain ⟨g, hg, rfl⟩ := hQv v hvQ hvf
  obtain ⟨g', hg', rfl⟩ := hQv' v hvQ' hvf
  have e := ((ho.linked.height ho.mono.wf (hvi.lt g hg) (hvi.delivered g hg)).unique hH hn).trans
    ((ho.linked.height ho.mono.wf (hvi.lt g' hg') (hvi.delivered g' hg')).unique hH hn').symm
  rw [hvi.eq_of_height hg hg' e]

/-- Every certified block at or above the parent `p` of a certified two-chain `p ← blk`
extends `p`. Above `blk`, an honest replica voted both for `blk` and, under a lock at
least as high as `p`, for the higher block; the lock is certified and lower, and extends
`p` by induction. -/
theorem Safe.extends_of_twoChain {p blk : Hash} {m : Nat} (hp : sys.RawCert H w p)
    (hb : sys.RawCert H w blk) (hc : TwoChain H p blk) (hm : Height H p m) :
    ∀ n c, sys.RawCert H w c → Height H c n → m ≤ n → Extends H c p := by
  intro n
  induction n using Nat.strong_induction_on with
  | _ n ih =>
  intro c hcc hcn hmn
  rcases Nat.lt_or_ge (m + 1) n with hlt | hle
  · rcases hs.cert hcc with rfl | ⟨Q, hQ, hQv⟩
    · rw [hcn.inv_genesis hH] at hlt; omega
    rcases hb with rfl | ⟨Q', hQ', hQv'⟩
    · obtain ⟨d, rest, qc, hd, hpd, -⟩ := hc
      rw [← hH hd] at hpd; cases hpd
    obtain ⟨v, hvQ, hvQ', hvf⟩ := hQ.inter hQ'
    have ho := hs.replica hH (hQ.honest hvQ hvf)
    have hvi := ho.mono.votes
    have hw := ho.mono.wf
    obtain ⟨g2, hg2, hg2h, c', k, hc'c, hc'k, hkn, hext, hlev⟩ := hQv v hvQ hvf
    obtain ⟨g1, hg1, hg1h⟩ := hQv' v hvQ' hvf
    have e1 := (hg1h ▸ ho.linked.height hw (hvi.lt g1 hg1) (hvi.delivered g1 hg1)).unique hH (hc.height hm)
    have e2 := (hg2h ▸ ho.linked.height hw (hvi.lt g2 hg2) (hvi.delivered g2 hg2)).unique hH hcn
    obtain ⟨a, rest, ha, hpar, hah⟩ :=
      ho.linked.of_twoChain hH hw (hvi.lt g1 hg1) (hvi.delivered g1 hg1) (hg1h ▸ hc)
    have hak := hlev g1 hg1 (by omega) a rest ha hpar
    obtain ⟨hal, had, -⟩ := hw.parent (hvi.lt g1 hg1) hpar
    have e3 := (hah ▸ ho.linked.height hw hal had).unique hH hm
    exact (hg2h ▸ hext).trans (ih k (by omega) c' hc'c hc'k (by omega))
  · rcases Nat.lt_or_ge m n with hlt | hle'
    · obtain rfl : n = m + 1 := by omega
      rw [hs.rawCert_unique hH hcc hb hcn (hc.height hm)]
      exact hc.extends
    · obtain rfl : n = m := by omega
      rw [hs.rawCert_unique hH hcc hp hcn hm]
      exact .refl _

theorem Safe.bexec {r : ReplicaID} (hr : sys.Honest r) :
    sys.RawCert H w ((w r).heap (w r).bexec).hash ∧ ((w r).bexec = (w r).b0 ∨
      ∃ blk, sys.RawCert H w blk ∧ TwoChain H ((w r).heap (w r).bexec).hash blk) := by
  have ho := hs.replica hH hr
  have hw := ho.mono.wf
  rcases ho.backed.bexec with he | ⟨blk, hbl, hbd, hbc, rest, hbp, hbr⟩
  · exact ⟨.inl (he ▸ ho.linked.b0_hash), .inl he⟩
  exact ⟨ho.rawCert hr hw.roots.bexec_lt (ho.backed.qcRef blk hbl hbd _ hbr),
    .inr ⟨_, ho.rawCert hr hbl hbc, ho.linked.twoChain hw hbl hbd hbp hbr⟩⟩

theorem Safe.bexec_extends {r r' : ReplicaID} (hr : sys.Honest r) (hr' : sys.Honest r')
    (hle : ((w r).heap (w r).bexec).height ≤ ((w r').heap (w r').bexec).height) :
    Extends H ((w r').heap (w r').bexec).hash ((w r).heap (w r).bexec).hash := by
  have ho := hs.replica hH hr
  have ho' := hs.replica hH hr'
  have hh := ho.linked.height ho.mono.wf ho.mono.wf.roots.bexec_lt ho.mono.wf.roots.bexec_delivered
  have hh' := ho'.linked.height ho'.mono.wf ho'.mono.wf.roots.bexec_lt ho'.mono.wf.roots.bexec_delivered
  obtain ⟨hp, hb⟩ := hs.bexec hH hr
  rcases hb with he | ⟨blk, hblk, hc⟩
  · rw [he, ho.linked.b0_hash]; exact hh'.extends_genesis
  exact hs.extends_of_twoChain hH hp hblk hc hh _ _ (hs.bexec hH hr').1 hh' hle

end Safe

theorem ReplicaOk.decided {w : World} {r : ReplicaID} (ho : sys.ReplicaOk H w r) {x : Ptr}
    (hx : x < (w r).next) (hd : ((w r).heap x).decision = true) :
    Extends H ((w r).heap (w r).bexec).hash ((w r).heap x).hash ∧
      Height H ((w r).heap x).hash ((w r).heap x).height := by
  obtain ⟨q, hc⟩ := ho.log
  have hw := ho.mono.wf
  have hmem : x ∈ (w r).b0 :: q := List.mem_cons.mpr (hc.decided x hx hd)
  obtain ⟨hxl, hxd⟩ := hc.live x hmem
  exact ⟨ho.linked.extends_of_walkPath hw hc.path hw.roots.bexec_lt hw.roots.bexec_delivered x hmem,
    ho.linked.height hw hxl hxd⟩

/-- Agreement: in every reachable system, any two blocks decided at honest replicas, at
one replica or at two, lie on one primary chain, and two such blocks of one height are
one block. -/
theorem agreement (hH : Function.Injective H) {w : World} (hw : sys.Reachable H w)
    {r r' : ReplicaID} (hr : sys.Honest r) (hr' : sys.Honest r') {x x' : Ptr}
    (hx : x < (w r).next) (hdx : ((w r).heap x).decision = true)
    (hx' : x' < (w r').next) (hdx' : ((w r').heap x').decision = true) :
    (Extends H ((w r).heap x).hash ((w r').heap x').hash ∨
      Extends H ((w r').heap x').hash ((w r).heap x).hash) ∧
    (((w r).heap x).height = ((w r').heap x').height →
      ((w r).heap x).hash = ((w r').heap x').hash) := by
  have hs := reachable_safe hH hw
  obtain ⟨he, hh⟩ := (hs.replica hH hr).decided hx hdx
  obtain ⟨he', hh'⟩ := (hs.replica hH hr').decided hx' hdx'
  have hcomp : Extends H ((w r).heap x).hash ((w r').heap x').hash ∨
      Extends H ((w r').heap x').hash ((w r).heap x).hash := by
    rcases le_total ((w r).heap (w r).bexec).height ((w r').heap (w r').bexec).height with hle | hle
    · exact ((hs.bexec_extends hH hr hr' hle).trans he).total hH he'
    · exact (((hs.bexec_extends hH hr' hr hle).trans he').total hH he).symm
  refine ⟨hcomp, fun hn => ?_⟩
  rw [← hn] at hh'
  rcases hcomp with hc | hc
  · exact ((hc.lt_height hH hh hh').resolve_left (lt_irrefl _))
  · exact ((hc.lt_height hH hh' hh).resolve_left (lt_irrefl _)).symm

/-- Four replicas, one of them Byzantine. -/
def four : System := ⟨[0, 1, 2, 3], 1, [3], by decide, by decide⟩

theorem Step.fetch_stored {w : World} {r : ReplicaID} (hr : sys.Honest r) (u : ReplicaID) (b : Ptr) :
    sys.Step H w (Function.update w r ((w r).addBlk (Block.ofData H ((w u).heap b).data)).1) :=
  .exec (i := .fetch _) hr ⟨⟨trivial, fun _ _ h => by cases h⟩, trivial⟩ rfl

theorem Step.vote_cast {w : World} {r v : ReplicaID} {g : Ptr} {s' : Core} (hr : sys.Honest r)
    (hv : sys.Honest v) (hg : g ∈ (w v).votes)
    (he : HotStuff.exec H (w r) (.receiveVote ⟨v, ((w v).heap g).hash⟩) = .ok s') :
    sys.Step H w (Function.update w r s') :=
  .exec (i := .receiveVote _) hr ⟨⟨trivial, fun _ _ h => by cases h⟩, hv.1, fun _ => ⟨g, hg, rfl⟩⟩ he

theorem Step.vote_byzantine {w : World} {r v : ReplicaID} {s' : Core} (hr : sys.Honest r)
    (hv : v ∈ sys.replicas) (hf : v ∈ sys.faulty) (u : ReplicaID) (g : Ptr)
    (he : HotStuff.exec H (w r) (.receiveVote ⟨v, ((w u).heap g).hash⟩) = .ok s') :
    sys.Step H w (Function.update w r s') :=
  .exec (i := .receiveVote _) hr ⟨⟨trivial, fun _ _ h => by cases h⟩, hv, fun h => absurd hf h⟩ he

theorem four_rawCert {w : World} {h : Hash} (h0 : Voted w 0 h) (h1 : Voted w 1 h) :
    four.RawCert encodeHash w h :=
  .inr ⟨{0, 1, 3}, ⟨by decide, by decide⟩, fun v hv hf => by
    simp only [Finset.mem_insert, Finset.mem_singleton] at hv
    rcases hv with rfl | rfl | rfl
    exacts [h0, h1, absurd (List.mem_singleton_self 3) hf]⟩

/-- Replica 0 of `four` proposes `B1`, `B2` on `B1` and `B3` on `B2`; replica 1 fetches,
delivers and votes for each, and Byzantine replica 3 votes too. Proposing `B3` commits
`B1` at replica 0, and its proposal commits `B1` at replica 1. -/
theorem agreement_four_commit :
    ∃ w, four.Reachable encodeHash w ∧ ((w 0).heap 1).decision = true ∧ ((w 1).heap 1).decision = true ∧
      (Extends encodeHash ((w 0).heap 1).hash ((w 1).heap 1).hash ∨
        Extends encodeHash ((w 1).heap 1).hash ((w 0).heap 1).hash) ∧
      (((w 0).heap 1).height = ((w 1).heap 1).height → ((w 0).heap 1).hash = ((w 1).heap 1).hash) :=
  have h0 : four.Honest 0 := ⟨by decide, by decide⟩
  have h1 : four.Honest 1 := ⟨by decide, by decide⟩
  have r1 := (Reachable.start : four.Reachable encodeHash (four.start encodeHash)).step
    (.exec (i := .propose [7] [0] []) h0 ⟨⟨by decide, fun _ _ h => by cases h⟩, trivial⟩ rfl)
  have r2 := r1.step (Step.fetch_stored h1 0 1)
  have r3 := r2.step (.exec (i := .deliver 1) h1
    ⟨⟨by decide, fun _ _ h => by cases h⟩, fun _ h => by cases h; exact .inl rfl⟩ rfl)
  have r4 := r3.step (.exec (i := .receiveProposal 0 1) h1 ⟨⟨by decide, fun _ _ h => by cases h⟩, trivial⟩ rfl)
  have r5 := r4.step (Step.vote_cast (g := 1) h0 h1 (by decide) rfl)
  have r6 := r5.step (Step.vote_byzantine (v := 3) h0 (by decide) (by decide) 0 1 rfl)
  have r7 := r6.step (.exec (i := .propose [8] [1] []) h0 ⟨⟨by decide, fun _ _ h => by cases h⟩, trivial⟩ rfl)
  have r8 := r7.step (Step.fetch_stored h1 0 2)
  have r9 := r8.step (.exec (i := .deliver 2) h1 ⟨⟨by decide, fun _ _ h => by cases h⟩,
    fun _ h => by cases h; exact four_rawCert ⟨1, by decide, rfl⟩ ⟨1, by decide, rfl⟩⟩ rfl)
  have r10 := r9.step (.exec (i := .receiveProposal 0 2) h1 ⟨⟨by decide, fun _ _ h => by cases h⟩, trivial⟩ rfl)
  have r11 := r10.step (Step.vote_cast (g := 2) h0 h1 (by decide) rfl)
  have r12 := r11.step (Step.vote_byzantine (v := 3) h0 (by decide) (by decide) 0 2 rfl)
  have r13 := r12.step (.exec (i := .propose [9] [2] []) h0 ⟨⟨by decide, fun _ _ h => by cases h⟩, trivial⟩ rfl)
  have r14 := r13.step (Step.fetch_stored h1 0 3)
  have r15 := r14.step (.exec (i := .deliver 3) h1 ⟨⟨by decide, fun _ _ h => by cases h⟩,
    fun _ h => by cases h; exact four_rawCert ⟨2, by decide, rfl⟩ ⟨2, by decide, rfl⟩⟩ rfl)
  have r16 := r15.step (.exec (i := .receiveProposal 0 3) h1 ⟨⟨by decide, fun _ _ h => by cases h⟩, trivial⟩ rfl)
  ⟨_, r16, rfl, rfl, agreement encodeHash_injective r16 h0 h1 (by decide) rfl (by decide) rfl⟩

end System

end HotStuff
