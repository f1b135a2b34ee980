import HotStuff.Linked
import HotStuff.Monotone

/-!
# What a replica holds is backed

Against two predicates that stand for the rest of the system, `V v h` (a vote of `v` for
`h` can arrive) and `C h` (a delivered block can carry a certificate for `h`), every run
whose calls respect them (`Input.Admits`) keeps the replica `Backed`: its counted voters
are admissible or itself, the certificates of its delivered blocks are in `C` or gathered
here, `hqc.first` and `bexec` come from such certificates, and every vote was cast with
its certified parent below `hqc.first`. That lock is what the agreement argument uses.
-/

namespace HotStuff

namespace Input

/-- The calls of a replica that never prunes, in a system where a vote of `v` for `h`
arrives only if `V v h`, and a delivered block carries a certificate for `h` only if
`C h`. -/
def Admits (V : ReplicaID → Hash → Prop) (C : Hash → Prop) (s : Core) (i : Input) : Prop :=
  i.NoPrune s ∧
    match i with
    | .receiveVote v => V v.voter v.blkHash
    | .deliver b => ∀ qc, (s.heap b).data.qc = some qc → C qc.objHash
    | _ => True

theorem Admits.mono {V V' : ReplicaID → Hash → Prop} {C C' : Hash → Prop}
    (hV : ∀ v h, V v h → V' v h) (hC : ∀ h, C h → C' h) {s : Core} {i : Input}
    (ha : i.Admits V C s) : i.Admits V' C' s := by
  refine ⟨ha.1, ?_⟩
  cases i with
  | receiveVote v => exact hV _ _ ha.2
  | deliver b => exact fun qc hqc => hC _ (ha.2 qc hqc)
  | _ => trivial

end Input

namespace Core

/-- `q` holds a certificate of its own: it is genesis, or `nmajority` replicas voted for it. -/
def Quorate (s : Core) (q : Ptr) : Prop := q = s.b0 ∨ s.nmajority ≤ (s.heap q).voted.length

/-- `c` is certified as far as the replica can tell: a certificate for its hash arrived
in a delivered block, or `c` gathered its own. -/
def Certified (C : Hash → Prop) (s : Core) (c : Ptr) : Prop := C (s.heap c).hash ∨ s.Quorate c

theorem Quorate.keeps {s s' : Core} (hk : Keeps s s') {q : Ptr} (hq : q < s.next) (h : s.Quorate q) :
    s'.Quorate q := by
  rcases h with rfl | h
  · exact .inl hk.b0.symm
  · exact .inr (by rw [hk.nmajority]; exact h.trans (hk.obj q hq).2.2.length_le)

theorem Certified.keeps {C : Hash → Prop} {s s' : Core} (hk : Keeps s s') {c : Ptr} (hc : c < s.next)
    (h : s.Certified C c) : s'.Certified C c :=
  h.imp (fun h' => by rwa [(hk.obj c hc).1]) (·.keeps hk hc)

theorem votes_append (s : Core) (v : Nat) (l : List Effect) :
    ({ s with vheight := v, out := s.out ++ l } : Core).votes = s.votes ++ l.filterMap Effect.voteBlk :=
  List.filterMap_append _ _ _

theorem keeps_updateHqc {s s' : Core} {blk : Ptr} {qc : Option QuorumCert}
    (h : s.updateHqc blk qc = .ok s') : Keeps s s' := by
  rcases updateHqc_cases h with rfl | ⟨-, q, -, rfl⟩
  · exact .refl _
  · exact keeps_frame rfl rfl rfl rfl rfl rfl (List.prefix_append _ _)

theorem keeps_commit (s : Core) (queue : List Ptr) (p : Ptr) : Keeps s (s.commit queue p) := by
  have he : (s.commit queue p).storage = s.storage ∧ (s.commit queue p).b0 = s.b0 ∧
      (s.commit queue p).id = s.id ∧ (s.commit queue p).nmajority = s.nmajority := by
    unfold commit; rw [foldl_commitBlk_eq]; exact ⟨rfl, rfl, rfl, rfl⟩
  have hx : ∀ a, ∃ d, (s.commit queue p).heap a = { s.heap a with decision := d } :=
    foldl_commitBlk_heap s queue.reverse
  refine ⟨(foldl_commitBlk_next s _).ge, fun h q hq => ?_, fun a _ => ?_, fun a _ hd => ?_,
    he.2.1, he.2.2.1, he.2.2.2, foldl_commitBlk_out s _⟩
  · rw [he.1]; exact hq
  · obtain ⟨d, hd⟩ := hx a; rw [hd]; exact ⟨rfl, rfl, List.suffix_refl _⟩
  · obtain ⟨d, hd'⟩ := hx a; rw [hd']; exact ⟨hd, rfl, rfl, rfl⟩

theorem checkCommit_frame {s s' : Core} {blk : Ptr} (h : s.checkCommit blk = .ok s') :
    s'.hqc = s.hqc ∧ s'.votes = s.votes ∧ ∀ x, ∃ d, s'.heap x = { s.heap x with decision := d } := by
  rcases checkCommit_cases h with rfl | ⟨p, rest, r, -, -, -, -, -, -, rfl⟩
  · exact ⟨rfl, rfl, fun x => ⟨_, rfl⟩⟩
  · refine ⟨?_, foldl_commitBlk_votes s _, foldl_commitBlk_heap s _⟩
    unfold commit; rw [foldl_commitBlk_eq]

theorem keeps_checkCommit {s s' : Core} {blk : Ptr} (h : s.checkCommit blk = .ok s') : Keeps s s' := by
  rcases checkCommit_cases h with rfl | ⟨p, rest, r, -, -, -, -, -, -, rfl⟩
  · exact .refl _
  · exact keeps_commit s r.2 p

theorem keeps_update {s s' : Core} {nblk : Ptr} (h : s.update nblk = .ok s') : Keeps s s' := by
  obtain ⟨blk, s1, -, h1, h2⟩ := update_cases h
  exact (keeps_updateHqc h1).trans (keeps_checkCommit h2)

theorem update_lock {s s' : Core} {nblk : Ptr} (h : s.update nblk = .ok s') :
    ∀ a, (s'.heap nblk).qcRef = some a → (s'.heap a).height ≤ s'.hqcHeight := by
  obtain ⟨blk, s1, hblk, h1, h2⟩ := update_cases h
  obtain ⟨hq2, -, hh2⟩ := checkCommit_frame h2
  obtain ⟨hheap, -, -⟩ := updateHqc_heap h1
  have hheight : ∀ x, (s'.heap x).height = (s1.heap x).height := fun x => by
    obtain ⟨d, hx⟩ := hh2 x; rw [hx]
  have hq' : s'.hqcHeight = s1.hqcHeight := by unfold hqcHeight; rw [hq2, hheight]
  intro a ha
  obtain ⟨d, hx⟩ := hh2 nblk
  rw [hx, hheap] at ha
  rw [hblk] at ha
  cases ha
  rw [hheight, hq', hheap]
  exact (updateHqc_hqcHeight h1).1

section Oracles

variable (V : ReplicaID → Hash → Prop) (C : Hash → Prop)

/-- Every voter counted for a block other than `b0` is counted once and is admissible,
or is the replica itself after its own vote for the block. -/
def VotedOk (s : Core) : Prop :=
  ∀ p < s.next, p ≠ s.b0 → (s.heap p).voted.Nodup ∧
    ∀ v ∈ (s.heap p).voted, V v (s.heap p).hash ∨ v = s.id ∧ p ∈ s.votes

/-- What a replica holds is backed by admissible votes and certificates: the counted
voters, the certified block of every delivered block, `hqc.first`, the certified child
that made `bexec` final, and, for every vote, that `hqc.first` has been at least as high
as the certified parent of the block voted for. -/
structure Backed (s : Core) : Prop where
  voted : s.VotedOk V
  qcRef : ∀ p < s.next, (s.heap p).delivered = true → ∀ a, (s.heap p).qcRef = some a →
    s.Certified C a
  hqc : s.Certified C s.hqc.1
  bexec : s.bexec = s.b0 ∨ ∃ blk < s.next, (s.heap blk).delivered = true ∧ s.Certified C blk ∧
    ∃ rest, (s.heap blk).parents = s.bexec :: rest ∧ (s.heap blk).qcRef = some s.bexec
  lock : ∀ g ∈ s.votes, g < s.next ∧ (s.heap g).delivered = true ∧
    ∀ a rest, (s.heap g).qcRef = some a → (s.heap g).parents = a :: rest →
      (s.heap a).height ≤ s.hqcHeight

variable {V C}

theorem VotedOk.keep {s s' : Core} (hv : s.VotedOk V) (hk : Keeps s s') (hvs : s.votes ⊆ s'.votes)
    (hvoted : ∀ p < s'.next, (s'.heap p).voted = [] ∨
      p < s.next ∧ (s'.heap p).voted = (s.heap p).voted) : s'.VotedOk V := by
  intro p hp hpb
  rcases hvoted p hp with h | ⟨hp', h⟩
  · rw [h]; exact ⟨List.nodup_nil, fun _ hv => by cases hv⟩
  · rw [h, (hk.obj p hp').1, hk.id]
    obtain ⟨hn, hvv⟩ := hv p hp' (hk.b0 ▸ hpb)
    exact ⟨hn, fun v hmem => (hvv v hmem).imp_right fun ⟨h1, h2⟩ => ⟨h1, hvs h2⟩⟩

theorem Backed.frame {s s' : Core} (hb : s.Backed V C)
    (hr : Roots s.heap s.next s.storage s.b0 s.bexec s.hqc.1)
    (ho : ∀ q < s.next, (s.heap q).delivered = true → ObjOk s.heap s.next q)
    (hk : Keeps s s') (hvoted : s'.VotedOk V)
    (hdel : ∀ p < s'.next, (s'.heap p).delivered = true → (p < s.next ∧ (s.heap p).delivered = true) ∨
      ∀ a, (s'.heap p).qcRef = some a → a < s.next ∧ s.Certified C a)
    (hq : s'.hqc.1 = s.hqc.1 ∨ s'.Certified C s'.hqc.1 ∧ s.hqcHeight ≤ s'.hqcHeight)
    (he : s'.bexec = s.bexec ∨ ∃ blk < s.next, (s.heap blk).delivered = true ∧ s.Certified C blk ∧
      ∃ rest, (s.heap blk).parents = s'.bexec :: rest ∧ (s.heap blk).qcRef = some s'.bexec)
    (hvs : ∀ g ∈ s'.votes, g ∈ s.votes ∨ g < s'.next ∧ (s'.heap g).delivered = true ∧
      ∀ a rest, (s'.heap g).qcRef = some a → (s'.heap g).parents = a :: rest →
        (s'.heap a).height ≤ s'.hqcHeight) :
    s'.Backed V C := by
  have hhqc : s'.Certified C s'.hqc.1 ∧ s.hqcHeight ≤ s'.hqcHeight := by
    rcases hq with hq | hq
    · obtain ⟨-, hh', -, -⟩ := hk.frozen _ hr.hqc_lt hr.hqc_delivered
      refine ⟨hq ▸ hb.hqc.keeps hk hr.hqc_lt, ?_⟩
      unfold hqcHeight; rw [hq, hh']
    · exact hq
  have hblk : ∀ {e}, (∃ blk < s.next, (s.heap blk).delivered = true ∧ s.Certified C blk ∧
      ∃ rest, (s.heap blk).parents = e :: rest ∧ (s.heap blk).qcRef = some e) →
      ∃ blk < s'.next, (s'.heap blk).delivered = true ∧ s'.Certified C blk ∧
        ∃ rest, (s'.heap blk).parents = e :: rest ∧ (s'.heap blk).qcRef = some e := by
    rintro e ⟨blk, hbl, hbd, hbc, rest, hbp, hbr⟩
    obtain ⟨hbd', -, hbp', hbr'⟩ := hk.frozen blk hbl hbd
    exact ⟨blk, lt_of_lt_of_le hbl hk.next_le, hbd', hbc.keeps hk hbl, rest, hbp'.trans hbp,
      hbr'.trans hbr⟩
  refine ⟨hvoted, fun p hp hd a ha => ?_, hhqc.1, ?_, fun g hg => ?_⟩
  · rcases hdel p hp hd with ⟨hp', hd'⟩ | h
    · rw [(hk.frozen p hp' hd').2.2.2] at ha
      exact (hb.qcRef p hp' hd' a ha).keeps hk ((ho p hp' hd').qcRef_lt a ha)
    · obtain ⟨ha', hc⟩ := h a ha
      exact hc.keeps hk ha'
  · rcases he with he | he
    · rw [he, hk.b0]
      exact hb.bexec.imp_right hblk
    · exact .inr (hblk he)
  · rcases hvs g hg with hg | h
    · obtain ⟨hgl, hgd, hgk⟩ := hb.lock g hg
      obtain ⟨hgd', -, hgp', hga'⟩ := hk.frozen g hgl hgd
      refine ⟨lt_of_lt_of_le hgl hk.next_le, hgd', fun a rest hga hgp => ?_⟩
      rw [hga'] at hga; rw [hgp'] at hgp
      obtain ⟨had, -⟩ := (ho g hgl hgd).parent a rest hgp
      rw [(hk.frozen a ((ho g hgl hgd).parents_lt a (by simp [hgp])) had).2.1]
      exact (hgk a rest hga hgp).trans hhqc.2
    · exact h

/-! ## The writes a call is made of -/

theorem Backed.same {s s' : Core} (hb : s.Backed V C) (hh : s'.heap = s.heap) (hn : s'.next = s.next)
    (h0 : s'.b0 = s.b0) (hi : s'.id = s.id)
    (hm : s'.nmajority = s.nmajority) (hq : s'.hqc.1 = s.hqc.1) (he : s'.bexec = s.bexec)
    (hv : s'.votes = s.votes) : s'.Backed V C := by
  obtain ⟨hv1, hv2, hv3, hv4, hv5⟩ := hb
  refine ⟨?_, ?_, ?_, ?_, ?_⟩ <;>
    simp only [VotedOk, Certified, Quorate, hqcHeight, hh, hn, h0, hi, hm, hq, he, hv] <;> assumption

theorem Backed.emit {s : Core} (hb : s.Backed V C) {e : Effect} (he : e.voteBlk = none) :
    (s.emit e).Backed V C :=
  hb.same rfl rfl rfl rfl rfl rfl rfl (by simp [he])

theorem Backed.modBlk {s : Core} (hb : s.Backed V C)
    (hr : Roots s.heap s.next s.storage s.b0 s.bexec s.hqc.1)
    (ho : ∀ q < s.next, (s.heap q).delivered = true → ObjOk s.heap s.next q) {b : Ptr}
    {f : Block → Block} (hf : KeepsShape f) (hv : ∀ x, (f x).voted = x.voted) :
    (s.modBlk b f).Backed V C := by
  have hk : Keeps s (s.modBlk b f) := keeps_modBlk hf (by simp only [hv, List.suffix_refl])
  refine hb.frame hr ho hk (hb.voted.keep hk (fun _ hg => hg) fun p hp => .inr ⟨hp, ?_⟩)
    (fun p hp hd => .inl ⟨hp, by rwa [hf.heap_delivered] at hd⟩) (.inl rfl) (.inl rfl)
    (fun _ hg => .inl hg)
  by_cases hpb : p = b <;> simp [hpb, hv]

theorem Backed.addVoter {s : Core} (hb : s.Backed V C) (hw : s.Wf) {b : Ptr} {v : ReplicaID}
    (hvn : v ∉ (s.heap b).voted) (hV : V v (s.heap b).hash ∨ v = s.id ∧ b ∈ s.votes) (qc : QuorumCert) :
    (s.modBlk b fun x => { x with voted := v :: x.voted, selfQc := some qc }).Backed V C := by
  have hf := keepsShape_vote (v :: ·) fun _ => some qc
  have hk : Keeps s (s.modBlk b fun x => { x with voted := v :: x.voted, selfQc := some qc }) :=
    keeps_modBlk hf (List.suffix_cons _ _)
  refine hb.frame hw.roots (fun q hq _ => hw.obj q hq) hk (fun p hp hpb => ?_)
    (fun p hp hd => .inl ⟨hp, by rwa [hf.heap_delivered] at hd⟩) (.inl rfl) (.inl rfl)
    (fun _ hg => .inl hg)
  obtain ⟨hn, hvv⟩ := hb.voted p hp hpb
  by_cases hpb' : p = b
  · subst hpb'
    simp only [modBlk_heap_self, List.nodup_cons, List.mem_cons, modBlk_id]
    exact ⟨⟨hvn, hn⟩, fun w hw => hw.elim (fun h => h ▸ hV) (hvv w)⟩
  · simpa [hpb'] using ⟨hn, hvv⟩

theorem Backed.addBlk {s : Core} (hb : s.Backed V C) (hw : s.Wf) {x : Block} (hxv : x.voted = [])
    (hxd : x.delivered = false) : (s.addBlk x).1.Backed V C := by
  cases hst : s.storage x.hash with
  | some p => rw [addBlk_of_some s x hst]; exact hb
  | none =>
    have hk := keeps_addBlk s x
    rw [addBlk_of_none s x hst] at hk ⊢
    have hold : ∀ p < s.next + 1, p ≠ s.next → p < s.next := fun p hp hne =>
      Nat.lt_of_le_of_ne (Nat.le_of_lt_succ hp) hne
    refine hb.frame hw.roots (fun q hq _ => hw.obj q hq) hk
      (hb.voted.keep hk (fun _ hg => hg) fun p hp => ?_) (fun p hp hd => .inl ?_) (.inl rfl) (.inl rfl)
      (fun _ hg => .inl hg)
    · by_cases hpn : p = s.next
      · subst hpn; simp [hxv]
      · exact .inr ⟨hold p hp hpn, by simp [hpn]⟩
    · by_cases hpn : p = s.next
      · subst hpn; simp [hxd] at hd
      · simp only [hpn, if_false] at hd
        exact ⟨hold p hp hpn, hd⟩

theorem Backed.onDeliverBlk {s s' : Core} (hb : s.Backed V C)
    (hr : Roots s.heap s.next s.storage s.b0 s.bexec s.hqc.1)
    (ho : ∀ q < s.next, (s.heap q).delivered = true → ObjOk s.heap s.next q) {b : Ptr} {r : Bool}
    (hres : ∀ a, s.resolveQcRef b = .ok (some a) → a < s.next ∧ s.Certified C a)
    (h : s.onDeliverBlk b = .ok (r, s')) : s'.Backed V C := by
  have hk := keeps_onDeliverBlk h
  rcases onDeliverBlk_cases h with ⟨-, -, rfl⟩ | ⟨hnd, -, p0, rest, qcRef, -, hq, rfl⟩
  · exact hb
  refine hb.frame hr ho hk (hb.voted.keep hk (fun _ hg => hg) fun p hp => .inr ⟨hp, ?_⟩)
    (fun p hp hd => ?_) (.inl rfl) (.inl rfl) (fun _ hg => .inl hg)
  · by_cases hpb : p = b <;> simp [hpb, setDelivered]
  · by_cases hpb : p = b
    · subst hpb
      refine .inr fun a ha => hres a ?_
      simp only [modBlk_heap_self, setDelivered] at ha
      rwa [← ha]
    · exact .inl ⟨hp, by simpa [hpb] using hd⟩

theorem Backed.updateHqc {s s' : Core} (hb : s.Backed V C) (hw : s.Wf) {blk : Ptr}
    {qc : Option QuorumCert} (hc : s.Certified C blk) (h : s.updateHqc blk qc = .ok s') :
    s'.Backed V C := by
  rcases updateHqc_cases h with rfl | ⟨-, q, -, rfl⟩
  · exact hb
  have hk : Keeps s ({ s with hqc := (blk, q) }.emit .hqcUpdate) :=
    keeps_frame rfl rfl rfl rfl rfl rfl (List.prefix_append _ _)
  have hv : ({ s with hqc := (blk, q) }.emit .hqcUpdate).votes = s.votes := by simp [Effect.voteBlk]; rfl
  exact hb.frame hw.roots (fun q hq _ => hw.obj q hq) hk
    (hb.voted.keep hk (fun _ hg => hv ▸ hg) fun p hp => .inr ⟨hp, rfl⟩) (fun p hp hd => .inl ⟨hp, hd⟩)
    (.inr ⟨hc, (updateHqc_hqcHeight h).2⟩) (.inl rfl) (fun g hg => .inl (hv ▸ hg))

theorem Backed.checkCommit {s s' : Core} (hb : s.Backed V C) (hw : s.Wf) {blk : Ptr} (hbl : blk < s.next)
    (hc : s.Certified C blk) (h : s.checkCommit blk = .ok s') : s'.Backed V C := by
  obtain ⟨hq', hv', hx⟩ := checkCommit_frame h
  rcases checkCommit_cases h with rfl | ⟨p, rest, r, hq, -, hp, -, -, -, rfl⟩
  · exact hb
  have hk := keeps_commit s r.2 p
  have hn : (s.commit r.2 p).next = s.next := foldl_commitBlk_next s _
  have hbd : (s.heap blk).delivered = true := by
    by_contra hn
    have := ((hw.obj blk hbl).fresh (by simpa using hn)).2.2
    rw [hp] at this; cases this
  have hsame : ∀ x, ((s.commit r.2 p).heap x).voted = (s.heap x).voted ∧
      ((s.commit r.2 p).heap x).delivered = (s.heap x).delivered := fun x => by
    obtain ⟨d, hd⟩ := hx x; rw [hd]; exact ⟨rfl, rfl⟩
  refine hb.frame hw.roots (fun q hq _ => hw.obj q hq) hk
    (hb.voted.keep hk (fun _ hg => hv' ▸ hg) fun x hx => .inr ⟨hn ▸ hx, (hsame x).1⟩)
    (fun x hx hd => .inl ⟨hn ▸ hx, (hsame x).2 ▸ hd⟩) (.inl (congrArg Prod.fst hq'))
    (.inr ⟨blk, hbl, hbd, hc, rest, hp, hq⟩) (fun g hg => .inl (hv' ▸ hg))

theorem Backed.update {s s' : Core} (hb : s.Backed V C) (hw : s.Wf) {nblk : Ptr} (hn : nblk < s.next)
    (hd : (s.heap nblk).delivered = true) (h : s.update nblk = .ok s') : s'.Backed V C := by
  obtain ⟨blk, s1, hblk, h1, h2⟩ := update_cases h
  have hc := hb.qcRef nblk hn hd blk hblk
  have hbl := (hw.obj nblk hn).qcRef_lt blk hblk
  exact (hb.updateHqc hw hc h1).checkCommit (hw.updateHqc hbl h1) ((updateHqc_heap h1).2.1 ▸ hbl)
    (hc.keeps (keeps_updateHqc h1) hbl) h2

theorem Backed.onReceiveVote {s s' : Core} (hb : s.Backed V C) (hw : s.Wf) {v : Vote}
    (hV : ∀ b, s.storage v.blkHash = some b → V v.voter v.blkHash ∨ v.voter = s.id ∧ b ∈ s.votes)
    (h : s.onReceiveVote v = .ok s') : s'.Backed V C := by
  obtain ⟨b, hg, hc⟩ := onReceiveVote_cases h
  obtain ⟨hsb, -⟩ := getDeliveredBlk_ok hg
  have hbh := (hw.roots.storage _ _ hsb).2
  rcases hc with rfl | ⟨qc, hvn, -, hc⟩
  · exact hb
  have hm := hb.addVoter hw hvn (by rw [hbh]; exact hV b hsb) qc
  rcases hc with rfl | ⟨hlen, h'⟩
  · exact hm
  · have hf := keepsShape_vote (v.voter :: ·) fun _ => some qc
    refine (hm.emit (e := .qcFinish b) rfl).updateHqc ((hf.wf hw).emit _) (.inr (.inr ?_)) h'
    simp [hlen]

theorem Backed.cast {s : Core} (hb : s.Backed V C) (hw : s.Wf) {b : Ptr} (hbl : b < s.next)
    (hbd : (s.heap b).delivered = true)
    (hlock : ∀ a rest, (s.heap b).qcRef = some a → (s.heap b).parents = a :: rest →
      (s.heap a).height ≤ s.hqcHeight)
    (vh : Nat) {l : List Effect}
    (hl : l.filterMap Effect.voteBlk = [] ∨ l.filterMap Effect.voteBlk = [b]) :
    { s with vheight := vh, out := s.out ++ l }.Backed V C := by
  have hv : ({ s with vheight := vh, out := s.out ++ l } : Core).votes =
      s.votes ++ l.filterMap Effect.voteBlk := List.filterMap_append s.out l _
  have hk : Keeps s { s with vheight := vh, out := s.out ++ l } :=
    keeps_frame rfl rfl rfl rfl rfl rfl (List.prefix_append _ _)
  refine hb.frame hw.roots (fun q hq _ => hw.obj q hq) hk
    (hb.voted.keep hk (fun g hg => hv ▸ List.mem_append_left _ hg) fun p hp => .inr ⟨hp, rfl⟩)
    (fun p hp hd => .inl ⟨hp, hd⟩) (.inl rfl) (.inl rfl) fun g hg => ?_
  rw [hv, List.mem_append] at hg
  rcases hg with hg | hg
  · exact .inl hg
  · have : g = b := by rcases hl with h | h <;> simp_all
    subst this
    exact .inr ⟨hbl, hbd, hlock⟩

theorem Backed.onReceiveProposal {s s' : Core} (hb : s.Backed V C) (hw : s.Wf) {r : ReplicaID}
    {bnew : Ptr} (hn : bnew < s.next) (h : s.onReceiveProposal r bnew = .ok s') : s'.Backed V C := by
  obtain ⟨hd, s1, op, h1, -, rfl⟩ := onReceiveProposal_cases h
  have hk1 := keeps_update h1
  rw [List.append_assoc]
  refine (hb.update hw hn hd h1).cast (hw.update hn h1) (lt_of_lt_of_le hn hk1.next_le)
    (hk1.frozen _ hn hd).1 (fun a _ ha _ => update_lock h1 a ha) _ ?_
  cases (s1.heap bnew).qcRef <;> split_ifs <;> simp [Effect.voteBlk]

theorem Backed.proposeStored {s s' : Core} (hb : s.Backed V C) {bnew : Ptr} (hs : s.WfBut bnew)
    (hst : s.storage (s.heap bnew).hash = some bnew)
    (hres : ∀ a, s.resolveQcRef bnew = .ok (some a) → a < s.next ∧ s.Certified C a)
    (h : s.proposeStored bnew = .ok s') : s'.Backed V C := by
  obtain ⟨r, s2, s3, s4, h2, h3, -, h4, rfl⟩ := proposeStored_cases h
  generalize hfd : (fun x : Block => { x with selfQc := some (createQuorumCert (s.heap bnew).hash) }) = f
    at h2
  have hf : KeepsShape f := hfd ▸ keepsShape_vote (fun l => l) fun _ => _
  have ho : ∀ q < s.next, (s.heap q).delivered = true → ObjOk s.heap s.next q := fun q hq hd =>
    if hqb : q = bnew then hqb ▸ hs.self (hqb ▸ hd) else hs.obj q hq hqb
  have hk1 : Keeps s (s.modBlk bnew f) := keeps_modBlk hf (by subst hfd; exact List.suffix_refl _)
  have hres1 : ∀ a, (s.modBlk bnew f).resolveQcRef bnew = .ok (some a) →
      a < s.next ∧ (s.modBlk bnew f).Certified C a := fun a ha => by
    have : (s.modBlk bnew f).resolveQcRef bnew = s.resolveQcRef bnew := by
      unfold resolveQcRef; rw [hf.heap_data, hf.heap_qcRef]; rfl
    obtain ⟨hal, hac⟩ := hres a (this ▸ ha)
    exact ⟨hal, hac.keeps hk1 hal⟩
  have hb2 := (hb.modBlk hs.roots ho hf fun _ => by rw [← hfd]).onDeliverBlk (hf.roots hs.roots)
    (fun q hq hd => hf.objOk (ho q hq (by rwa [hf.heap_delivered] at hd))) hres1 h2
  have w2 := hs.onDeliverBlk (hfd ▸ h2)
  have hk2 := keeps_onDeliverBlk h2
  have hn2 : bnew < s2.next := lt_of_lt_of_le hs.lt (hk1.trans hk2).next_le
  have hd2 : (s2.heap bnew).delivered = true := by
    rcases onDeliverBlk_cases h2 with ⟨hd, -, rfl⟩ | ⟨-, -, _, _, _, -, -, rfl⟩
    · exact hd
    · simp [setDelivered]
  have hk3 := keeps_update h3
  have w3 := w2.update hn2 h3
  have hb3 := (hb2.update w2 hn2 hd2 h3).cast w3 (lt_of_lt_of_le hn2 hk3.next_le)
    (hk3.frozen _ hn2 hd2).1 (fun a _ ha _ => update_lock h3 a ha) (s3.heap bnew).height
    (l := [.vote bnew none]) (.inr rfl)
  have hst3 := ((hk1.trans hk2).trans hk3).storage _ _ hst
  refine (hb3.onReceiveVote ⟨w3.obj, w3.roots⟩ (fun b hb' => .inr ⟨rfl, ?_⟩) h4).emit rfl
  rw [show b = bnew from Option.some.inj (hb'.symm.trans hst3)]
  show bnew ∈ ({ s3 with vheight := (s3.heap bnew).height }.emit (.vote bnew none)).votes
  simp [Effect.voteBlk]

theorem addBlk_stored {s : Core} (hw : s.Wf) (x : Block) :
    (s.addBlk x).1.storage ((s.addBlk x).1.heap (s.addBlk x).2).hash = some (s.addBlk x).2 := by
  cases hs : s.storage x.hash with
  | some q => rw [addBlk_of_some s x hs, (hw.roots.storage _ _ hs).2]; exact hs
  | none => rw [addBlk_of_none s x hs]; simp

variable {H : BlockData → Hash}

theorem addBlk_data (hH : Function.Injective H) {s : Core} (hw : s.Wf) (hl : s.Linked H) {x : Block}
    (hx : x.hash = H x.data) (hg : x.data ≠ genesisData) :
    ((s.addBlk x).1.heap (s.addBlk x).2).data = x.data := by
  cases hs : s.storage x.hash with
  | some q =>
    rw [addBlk_of_some s x hs]
    obtain ⟨hq, hqh⟩ := hw.roots.storage _ _ hs
    by_cases hqb : q = s.b0
    · subst hqb; rw [hl.b0_hash, hx] at hqh; exact absurd (hH hqh).symm hg
    · rw [hl.hash q hq hqb, hx] at hqh; exact hH hqh
  | none => rw [addBlk_of_none s x hs]; simp

theorem addBlk_hash {s : Core} (hw : s.Wf) (x : Block) :
    ((s.addBlk x).1.heap (s.addBlk x).2).hash = x.hash := by
  cases hs : s.storage x.hash with
  | some q => rw [addBlk_of_some s x hs]; exact (hw.roots.storage _ _ hs).2
  | none => rw [addBlk_of_none s x hs]; simp

theorem Backed.onPropose (hH : Function.Injective H) {s s' : Core} (hb : s.Backed V C) (hw : s.Wf)
    (hl : s.Linked H) {cmds : List Hash} {parents : List Ptr} {extra : List Nat}
    (hps : ∀ p ∈ parents, p < s.next) (h : s.onPropose H cmds parents extra = .ok s') :
    s'.Backed V C := by
  obtain ⟨p, rest, r, x, rfl, hr, hx, hws, h'⟩ := onPropose_block hw hps h
  have hp0 : p < ({ s with tails := s.tails.filter fun t => t ∉ p :: rest } : Core).next :=
    hps p (List.mem_cons_self _ _)
  have hr0 : ({ s with tails := s.tails.filter fun t => t ∉ p :: rest } : Core).proposalQc p = .ok r := hr
  have hw0 : { s with tails := s.tails.filter fun t => t ∉ p :: rest }.Wf := ⟨hw.obj, hw.roots⟩
  have hl0 : { s with tails := s.tails.filter fun t => t ∉ p :: rest }.Linked H :=
    ⟨hl.1, hl.2, hl.3, hl.4, hl.5, hl.6⟩
  have hb0 : { s with tails := s.tails.filter fun t => t ∉ p :: rest }.Backed V C :=
    hb.same rfl rfl rfl rfl rfl rfl rfl rfl
  generalize { s with tails := s.tails.filter fun t => t ∉ p :: rest } = s0 at hp0 hr0 hw0 hl0 hb0 hws h'
  have hk := keeps_addBlk s0 x
  have hdata := addBlk_data hH hw0 hl0 (x := x) (by rw [hx]; rfl) (ne_genesisData (by rw [hx]; rfl))
  refine (hb0.addBlk hw0 (by rw [hx]; rfl) (by rw [hx]; rfl)).proposeStored hws (addBlk_stored hw0 x)
    (fun a ha => ?_) h'
  rcases resolveQcRef_ok ha with ⟨hn, hq⟩ | ⟨qc, q, hqc, hsq, hq⟩
  · rw [hws.qc_none hn] at hq; cases hq
  cases hq
  rw [hdata, hx] at hqc
  rcases proposalQc_ok hr0 with rfl | ⟨qc', rfl⟩
  · cases hqc
  cases hqc
  obtain ⟨-, hmaj, hsq'⟩ := proposalQc_quorate hr0
  rw [hl0.selfQc p hp0 qc hsq', hk.storage _ _ (hl0.stored p hp0)] at hsq
  cases hsq
  exact ⟨lt_of_lt_of_le hp0 hk.next_le, Certified.keeps hk hp0 (.inr (.inr hmaj))⟩

theorem Backed.exec (hH : Function.Injective H) {s s' : Core} (hb : s.Backed V C) (hw : s.Wf)
    (hl : s.Linked H) {i : Input} (ha : i.Admits V C s) (h : exec H s i = .ok s') : s'.Backed V C := by
  cases i with
  | fetch d => cases h; exact hb.addBlk hw rfl rfl
  | deliver b =>
    obtain ⟨⟨r, s''⟩, h', rfl⟩ := except_map_eq_ok.mp h
    refine hb.onDeliverBlk hw.roots (fun q hq _ => hw.obj q hq) (fun a hra => ?_) h'
    rcases resolveQcRef_ok hra with ⟨-, hq⟩ | ⟨qc, q, hqc, hsq, hq⟩
    · cases hd : (s.heap b).delivered
      · rw [((hw.obj b ha.1.1).fresh hd).1] at hq; cases hq
      · exact ⟨(hw.obj b ha.1.1).qcRef_lt a hq.symm, hb.qcRef b ha.1.1 hd a hq.symm⟩
    · cases hq
      obtain ⟨hql, hqh⟩ := hw.roots.storage _ _ hsq
      exact ⟨hql, .inl (hqh ▸ ha.2 qc hqc)⟩
  | propose cmds parents extra => exact hb.onPropose hH hw hl ha.1.1 h
  | receiveProposal r b => exact hb.onReceiveProposal hw ha.1.1 h
  | receiveVote v => exact hb.onReceiveVote hw (fun _ _ => .inl ha.2) h
  | prune k rel => exact absurd rfl (ha.1.2 k rel)

theorem backed_init (H : BlockData → Hash) (id : ReplicaID) (rs : List ReplicaID) (nfaulty : Nat) :
    (init H id rs nfaulty).Backed V C := by
  have hf : (init H id rs nfaulty).next = 1 ∧ (init H id rs nfaulty).b0 = 0 ∧
      (init H id rs nfaulty).hqc.1 = 0 ∧ (init H id rs nfaulty).bexec = 0 ∧
      (init H id rs nfaulty).votes = [] ∧ ((init H id rs nfaulty).heap 0).qcRef = some 0 := by
    unfold init onInit votes; rw [foldl_addReplica_eq]; exact ⟨rfl, rfl, rfl, rfl, rfl, rfl⟩
  obtain ⟨hn, h0, hq, he, hv, hr⟩ := hf
  have hlt : ∀ p < (init H id rs nfaulty).next, p = 0 := fun p hp => Nat.lt_one_iff.mp (hn ▸ hp)
  refine ⟨fun p hp hpb => absurd (h0 ▸ hlt p hp) hpb, fun p hp _ a ha => .inr (.inl ?_),
    .inr (.inl (by rw [hq, h0])), .inl (by rw [he, h0]), by simp [hv]⟩
  rw [hlt p hp, hr] at ha
  cases ha; exact h0.symm

theorem reachable_backed (hH : Function.Injective H) {id : ReplicaID} {rs : List ReplicaID}
    {nfaulty : Nat} {s : Core} (hr : Reachable H (Input.Admits V C) (init H id rs nfaulty) s) :
    s.Backed V C :=
  hr.induct_on H (backed_init H id rs nfaulty) fun _ _ _ hr' hb ha h =>
    hb.exec hH (reachable_wf (fun _ _ ha => ha.1.1) hr') (reachable_linked (fun _ _ ha => ha.1) hr') ha h

theorem Backed.mono {V' : ReplicaID → Hash → Prop} {C' : Hash → Prop} (hV : ∀ v h, V v h → V' v h)
    (hC : ∀ h, C h → C' h) {s : Core} (hb : s.Backed V C) : s.Backed V' C' :=
  ⟨fun p hp hpb => ⟨(hb.voted p hp hpb).1, fun v hv => ((hb.voted p hp hpb).2 v hv).imp_left (hV _ _)⟩,
    fun p hp hd a ha => (hb.qcRef p hp hd a ha).imp_left (hC _), hb.hqc.imp_left (hC _),
    hb.bexec.imp_right fun ⟨blk, hbl, hbd, hbc, hrest⟩ => ⟨blk, hbl, hbd, hbc.imp_left (hC _), hrest⟩,
    hb.lock⟩

/-! ## The lock a vote is cast under -/

theorem update_hqc {s s' : Core} {nblk : Ptr} (h : s.update nblk = .ok s') :
    s'.hqc.1 = s.hqc.1 ∨ (s.heap nblk).qcRef = some s'.hqc.1 := by
  obtain ⟨blk, s1, hblk, h1, h2⟩ := update_cases h
  rw [(checkCommit_frame h2).1]
  rcases updateHqc_cases h1 with rfl | ⟨-, q, -, rfl⟩
  · exact .inl rfl
  · exact .inr hblk

theorem opinion_walk {s : Core} {bnew : Ptr} (h : s.opinion bnew = .ok true) :
    ∃ q, WalkPath s s.hqcHeight bnew s.hqc.1 q := by
  unfold opinion at h
  split_ifs at h
  · obtain ⟨r, hr, he⟩ := except_map_eq_ok.mp h
    exact ⟨r.2, (of_decide_eq_true he) ▸ walk_path hr⟩
  · cases h

theorem onReceiveProposal_vote {s s' : Core} (hb : s.Backed V C) (hw : s.Wf) {r : ReplicaID}
    {bnew : Ptr} (hn : bnew < s.next) (h : s.onReceiveProposal r bnew = .ok s') :
    s'.votes = s.votes ∨ ∃ q, s'.votes = s.votes ++ [bnew] ∧ s'.hqc.1 < s.next ∧
      s.Certified C s'.hqc.1 ∧ WalkPath s' s'.hqcHeight bnew s'.hqc.1 q := by
  obtain ⟨hd, s1, op, h1, h2, rfl⟩ := onReceiveProposal_cases h
  have hA : ((s1.heap bnew).qcRef.toList.map Effect.qcFinish).filterMap Effect.voteBlk = [] := by
    cases (s1.heap bnew).qcRef <;> rfl
  rw [List.append_assoc, votes_append, (quiet_update hw hn h1).2, List.filterMap_append, hA,
    List.nil_append]
  by_cases hop : op = true ∧ s1.negVote = false
  · rw [if_pos hop]
    obtain ⟨rfl, -⟩ := hop
    obtain ⟨q, hq⟩ := opinion_walk h2
    have hc : s1.hqc.1 < s.next ∧ s.Certified C s1.hqc.1 := by
      rcases update_hqc h1 with he | he
      · rw [he]; exact ⟨hw.roots.hqc_lt, hb.hqc⟩
      · exact ⟨(hw.obj bnew hn).qcRef_lt _ he, hb.qcRef bnew hn hd _ he⟩
    exact .inr ⟨q, rfl, hc.1, hc.2, hq.transfer fun _ _ => ⟨rfl, rfl⟩⟩
  · rw [if_neg hop]; exact .inl (List.append_nil _)

theorem proposeStored_qc {s s' : Core} {bnew : Ptr} (hs : s.WfBut bnew)
    (h : s.proposeStored bnew = .ok s') : (s.heap bnew).data.qc ≠ none := by
  intro hq
  have hr := hs.qc_none hq
  obtain ⟨r, s2, s3, -, h2, h3, -⟩ := proposeStored_cases h
  obtain ⟨blk, -, hblk, -⟩ := update_cases h3
  rcases onDeliverBlk_cases h2 with ⟨-, -, rfl⟩ | ⟨-, -, p0, rest, qcRef, -, hres, rfl⟩
  · simp [hr] at hblk
  · rcases resolveQcRef_ok hres with ⟨-, rfl⟩ | ⟨qc, q, hqc, -⟩
    · simp [setDelivered, hr] at hblk
    · simp [hq] at hqc

theorem onPropose_vote (hH : Function.Injective H) {s s' : Core} (hw : s.Wf) (hl : s.Linked H)
    {cmds : List Hash} {parents : List Ptr} {extra : List Nat} (hps : ∀ p ∈ parents, p < s.next)
    (h : s.onPropose H cmds parents extra = .ok s') :
    ∃ p bnew rest, p < s.next ∧ s.Quorate p ∧ s'.votes = s.votes ++ [bnew] ∧
      s.vheight < (s'.heap bnew).height ∧ (s'.heap bnew).delivered = true ∧
      (s'.heap bnew).parents = p :: rest := by
  obtain ⟨p, rest, r, x, rfl, hr, hx, hws, h'⟩ := onPropose_block hw hps h
  have hp := hps p (List.mem_cons_self _ _)
  have hw0 : { s with tails := s.tails.filter fun t => t ∉ p :: rest }.Wf := ⟨hw.obj, hw.roots⟩
  have hl0 : { s with tails := s.tails.filter fun t => t ∉ p :: rest }.Linked H :=
    ⟨hl.1, hl.2, hl.3, hl.4, hl.5, hl.6⟩
  have hxh : x.hash = H x.data := by rw [hx]; rfl
  have hxg : x.data ≠ genesisData := ne_genesisData (by rw [hx]; rfl)
  have hdata := addBlk_data hH hw0 hl0 hxh hxg
  have hhash := addBlk_hash hw0 x
  have hq0 := quiet_addBlk hw0.roots x
  have hg := proposeStored_grows hws h'
  have ht := tracks_proposeStored (H := H) (fun h q hq => (hws.roots.storage h q hq).2) h'
  have hl' := ht.linked ((tracks_addBlk hw0 hxh (by rw [hx]; rfl) (by rw [hx]; rfl)).linked hl0)
  have hw' := proposeStored_wf hws h'
  have hk := (keeps_addBlk _ x).trans ht.keeps
  have hqc := proposeStored_qc hws h'
  rw [hdata, hx] at hqc
  rcases proposalQc_ok hr with rfl | ⟨qc, rfl⟩
  · exact absurd rfl hqc
  obtain ⟨-, hmaj, -⟩ := proposalQc_quorate hr
  generalize { s with tails := s.tails.filter fun t => t ∉ p :: rest }.addBlk x = sb at *
  have hbl' : sb.2 < s'.next := lt_of_lt_of_le hws.lt ht.keeps.next_le
  obtain ⟨hh', hd', -⟩ := ht.keeps.obj sb.2 hws.lt
  have hbb : sb.2 ≠ s'.b0 := fun he => hxg (hH (by rw [← hxh, ← hhash, ← hh', he, hl'.b0_hash]))
  obtain ⟨hne, hmap⟩ := hl'.parents sb.2 hbl' hg.2.2.2.2 hbb
  obtain ⟨a, rest', hpar⟩ := List.exists_cons_of_ne_nil hne
  rw [hpar, hd', hdata, hx] at hmap
  simp only [List.map_cons, Block.new, Block.ofData] at hmap
  have hap : (s'.heap a).hash = (s'.heap p).hash := (List.cons.inj hmap).1.trans (hk.obj p hp).1.symm
  have ha := (hw'.parent hbl' hpar).1
  obtain rfl : a = p := Option.some.inj ((hl'.stored a ha).symm.trans
    (hap ▸ hl'.stored p (lt_of_lt_of_le hp hk.next_le)))
  exact ⟨a, sb.2, rest', hp, .inr hmaj, hg.2.2.1.trans (by rw [hq0.2]; rfl),
    lt_of_le_of_lt hq0.1.vheight_le hg.2.2.2.1, hg.2.2.2.2, hpar⟩

/-- A call casts at most one vote, and casts it under a lock: a block `c` certified before
the call, on the primary chain of the voted block, and at least as high as the certified
parent of every block voted for before. -/
theorem exec_vote_lock (hH : Function.Injective H) {s s' : Core} (hm : s.MonoInv) (hb : s.Backed V C)
    (hl : s.Linked H) {i : Input} (hv : i.NoPrune s) (h : exec H s i = .ok s') :
    s'.votes = s.votes ∨ ∃ b c q, s'.votes = s.votes ++ [b] ∧ c < s.next ∧ s.Certified C c ∧
      WalkPath s' (s'.heap c).height b c q ∧
      ∀ g ∈ s.votes, ∀ a rest, (s'.heap g).qcRef = some a → (s'.heap g).parents = a :: rest →
        (s'.heap a).height ≤ (s'.heap c).height := by
  have hw := hm.wf
  cases i with
  | fetch d => cases h; exact .inl (quiet_addBlk hw.roots _).2
  | deliver b =>
    obtain ⟨⟨r, s''⟩, h', rfl⟩ := except_map_eq_ok.mp h
    exact .inl (quiet_onDeliverBlk hw.roots h').2
  | receiveVote v => exact .inl (quiet_onReceiveVote hw h).2
  | prune k rel => exact absurd rfl (hv.2 k rel)
  | receiveProposal r b =>
    have hb' := hb.onReceiveProposal hw hv.1 h
    refine (onReceiveProposal_vote hb hw hv.1 h).imp_right fun ⟨q, hvs, hc, hcc, hq⟩ =>
      ⟨b, _, q, hvs, hc, hcc, hq, fun g hg a rest ha hp => ?_⟩
    exact (hb'.lock g (hvs ▸ List.mem_append_left _ hg)).2.2 a rest ha hp
  | propose cmds parents extra =>
    obtain ⟨p, bnew, rest, hp, hq, hvs, hvh, -, hpar⟩ := onPropose_vote hH hw hl hv.1 h
    have hw' := hw.exec hv.1 h
    have hk := (tracks_exec (H := H) hw hv h).keeps
    have hbl := ((exec_grows hw hv.1 h).2 hm.votes).lt bnew (hvs ▸ List.mem_append_right _ (List.mem_singleton_self _))
    have hph := (hw'.parent hbl hpar).2.2
    refine .inr ⟨bnew, p, [bnew], hvs, hp, .inr hq, .step (by omega) hpar (.stop le_rfl),
      fun g hg a rest' ha hgp => ?_⟩
    have hgl := hm.votes.lt g hg
    have hgh := (hk.frozen g hgl (hm.votes.delivered g hg)).2.1
    have hgv := hm.votes.le_vheight g hg
    have hga := (hw'.parent (lt_of_lt_of_le hgl hk.next_le) hgp).2.2
    omega

end Oracles

end Core

end HotStuff
