import HotStuff.Delivery
import HotStuff.Linked
import HotStuff.Wire

/-!
# Fetching blocks from a peer

A replica asks a peer for blocks with `MsgReqBlock`. The peer's `req_blk_handler` fetches
every requested hash without asking anyone, and `promise::all` of those fetches sends back
a `MsgRespBlock` with the stored blocks in the order asked. The requester's
`resp_blk_handler` parses the blocks into its storage (`postponed_parse`) and then runs
`on_fetch_blk` for each, which resolves the fetch waiting on its hash.

The pipeline of `HotStuffBase` takes a fetched block as one `respBlock` event. The handler
is such a run: storing every block first and resolving the fetches afterwards ends where
handling the blocks one at a time does, whatever bytes the peer sent. A request that a peer
storing every requested block answers resolves every requested fetch.
-/

namespace HotStuff

namespace BlockCodec

variable (H : BlockData → Hash)

/-- The codec reads a block as `Block::unserialize` builds one: a fresh object of the data
it read, under the hash of that data. -/
def ReadsData (c : BlockCodec) : Prop :=
  ∀ bytes b rest, c.get bytes = some (b, rest) → ∃ d, b = Block.ofData H d

/-- The codec reads back each block it writes with the block's hash, for hashes that fit a
`uint256_t`. -/
def KeepsHash (c : BlockCodec) : Prop :=
  ∀ b : Block, b.hash < 2 ^ 256 → ∀ rest, ∃ b', c.get (c.put b ++ rest) = some (b', rest) ∧ b'.hash = b.hash

end BlockCodec

theorem hashCodec_readsData : hashCodec.ReadsData extraHash := by
  intro bytes b rest h
  obtain ⟨r, -, he⟩ := Option.map_eq_some'.mp h
  cases he
  exact ⟨_, rfl⟩

theorem hashCodec_keepsHash : hashCodec.KeepsHash := fun b hb rest =>
  ⟨_, by simp only [hashCodec, getLe_leBytes]; rfl,
    Nat.mod_eq_of_lt (lt_of_lt_of_eq hb (by decide : (2 : Nat) ^ 256 = 256 ^ 32))⟩

namespace Base

/-- `HotStuffBase::on_fetch_blk(blk)`: the fetch waiting on the block's hash resolves and
its entry of `blk_fetch_waiting` is erased. -/
def onFetchBlk (s : Base) (p : Ptr) : Base :=
  { s with fetchWaiting := s.fetchWaiting.erase (s.core.heap p).hash }

/-- `HotStuffBase::resp_blk_handler`: `postponed_parse` stores the blocks, then
`on_fetch_blk` runs for each object it kept, in order. A response that does not parse
raises out of the handler (`none`). -/
def respBlkHandler (c : BlockCodec) (s : Base) (bytes : List UInt8) : Option Base :=
  (MsgRespBlock.postponedParse c s.core bytes).map fun r => r.2.foldl onFetchBlk { s with core := r.1 }

/-- `HotStuffBase::req_blk_handler`: a fetch of each requested hash that asks no replica;
the peer after them, and the `MsgRespBlock` that `promise::all` of the fetches sends when
every requested block is stored already (`none` while one is missing: the response then
waits for it). A request that does not parse raises (`none`). -/
def reqBlkHandler (c : BlockCodec) (s : Base) (req : List UInt8) : Option (Base × Option (List UInt8)) :=
  (MsgReqBlock.ofStream req).map fun hs =>
    (hs.foldl asyncFetchBlk s, (hs.mapM s.core.storage).map fun ps => MsgRespBlock.serialized c (ps.map s.core.heap))

variable (H : BlockData → Hash)

/-! ## The handler as pipeline events -/

theorem run_respBlock (s : Base) (ds : List BlockData) :
    s.run H (ds.map .respBlock) =
      .ok { s with core := ds.foldl (fun c d => (c.addBlk (Block.ofData H d)).1) s.core,
                   fetchWaiting := (ds.map H).foldl List.erase s.fetchWaiting } := by
  induction ds generalizing s with
  | nil => rfl
  | cons d ds ih => rw [List.map_cons, run_cons_of_ok H _ (rfl : s.step H (.respBlock d) = _), ih]; rfl

theorem foldl_onFetchBlk (s : Base) (ps : List Ptr) :
    ps.foldl onFetchBlk s =
      { s with fetchWaiting := (ps.map fun p => (s.core.heap p).hash).foldl List.erase s.fetchWaiting } := by
  induction ps generalizing s with
  | nil => rfl
  | cons p ps ih => rw [List.foldl_cons, ih]; rfl

theorem addBlk_storage (c : Core) (x : Block) : (c.addBlk x).1.storage x.hash = some (c.addBlk x).2 := by
  cases hs : c.storage x.hash with
  | some p => rw [Core.addBlk_of_some c x hs]; exact hs
  | none => rw [Core.addBlk_of_none c x hs]; simp

theorem coreGrows_foldl_addBlk : ∀ (ds : List BlockData) (c : Core),
    CoreGrows c (ds.foldl (fun c d => (c.addBlk (Block.ofData H d)).1) c)
  | [], _ => ⟨le_rfl, fun _ _ h => h, fun _ _ => rfl, fun _ _ h => h⟩
  | _ :: ds, c => (coreGrows_addBlk c _).trans (coreGrows_foldl_addBlk ds _)

theorem storageOk_foldl_addBlk : ∀ (ds : List BlockData) {c : Core}, MsgRespBlock.StorageOk c →
    MsgRespBlock.StorageOk (ds.foldl (fun c d => (c.addBlk (Block.ofData H d)).1) c)
  | [], _, hs => hs
  | _ :: ds, _, hs => storageOk_foldl_addBlk ds (hs.addBlk _).1

theorem parseBlks_ofData {c : BlockCodec} (hc : c.ReadsData H) :
    ∀ (n : Nat) (s : Core) {s' : Core} {bytes : List UInt8} {ps : List Ptr},
      MsgRespBlock.parseBlks c n s bytes = some (s', ps) →
      ∃ ds : List BlockData, s' = ds.foldl (fun c d => (c.addBlk (Block.ofData H d)).1) s ∧
        List.Forall₂ (fun h p => s'.storage h = some p) (ds.map H) ps
  | 0, _, _, _, _, h => by cases h; exact ⟨[], rfl, .nil⟩
  | n + 1, s, _, _, _, h => by
    obtain ⟨⟨b, rest⟩, hg, h'⟩ := Option.bind_eq_some.mp h
    obtain ⟨⟨s'', ps'⟩, hp, he⟩ := Option.map_eq_some'.mp h'
    cases he
    obtain ⟨d, rfl⟩ := hc _ _ _ hg
    obtain ⟨ds, rfl, hf⟩ := parseBlks_ofData hc n _ hp
    exact ⟨d :: ds, rfl, .cons ((coreGrows_foldl_addBlk H ds _).storage _ _ (addBlk_storage s _)) hf⟩

theorem respBlkHandler_run {c : BlockCodec} (hc : c.ReadsData H) {s s' : Base}
    (hst : MsgRespBlock.StorageOk s.core) {bytes : List UInt8} (h : respBlkHandler c s bytes = some s') :
    ∃ ds : List BlockData, s.run H (ds.map .respBlock) = .ok s' := by
  obtain ⟨⟨c', ps⟩, hp, rfl⟩ := Option.map_eq_some'.mp h
  obtain ⟨r, -, hp'⟩ := Option.bind_eq_some.mp hp
  obtain ⟨ds, rfl, hf⟩ := parseBlks_ofData H hc _ _ hp'
  have hst' := storageOk_foldl_addBlk H ds hst
  refine ⟨ds, ?_⟩
  rw [run_respBlock, foldl_onFetchBlk, Core.map_hash_of_forall₂ (fun h p hp => (hst' h p hp).2) hf]

/-- `resp_blk_handler` is a run of the pipeline: whatever a peer sends, the handler raises
or leaves the replica in a state the pipeline's `respBlock` events reach, one event per
block of the response, so every property of the pipeline's runs holds after it. -/
theorem respBlkHandler_refines {c : BlockCodec} (hc : c.ReadsData H) {id : ReplicaID}
    {rs : List ReplicaID} {nfaulty : Nat} {s s' : Base} (hr : Reachable H (init H id rs nfaulty) s)
    {bytes : List UInt8} (h : respBlkHandler c s bytes = some s') :
    ∃ ds : List BlockData, s.run H (ds.map .respBlock) = .ok s' ∧ Reachable H (init H id rs nfaulty) s' :=
  have ⟨ds, hds⟩ := respBlkHandler_run H hc (reachable_pipeInv H hr).wf.roots.storage h
  ⟨ds, hds, reachable_of_run H _ hr hds⟩

/-- Replica 0 waits on the fetch of hash `1`, named by a vote; a response carrying the block
of that hash stores it and resolves the fetch, as one `respBlock` event does. -/
theorem respBlkHandler_refines_vote :
    ∃ s s', Reachable extraHash (init extraHash 0 [0, 1, 2, 3] 1) s ∧ s.fetchWaiting = [1] ∧
      respBlkHandler hashCodec s
        (MsgRespBlock.serialized hashCodec [Block.ofData extraHash ⟨[0], [], none, [1]⟩]) = some s' ∧
      s'.fetchWaiting = [] ∧
      ∃ ds : List BlockData, s.run extraHash (ds.map .respBlock) = .ok s' ∧
        Reachable extraHash (init extraHash 0 [0, 1, 2, 3] 1) s' :=
  have hr : Reachable extraHash (init extraHash 0 [0, 1, 2, 3] 1)
      ((init extraHash 0 [0, 1, 2, 3] 1).asyncDeliverBlk 1) :=
    reachable_of_run extraHash [.vote ⟨1, 1⟩] .refl rfl
  have hh : respBlkHandler hashCodec ((init extraHash 0 [0, 1, 2, 3] 1).asyncDeliverBlk 1)
      (MsgRespBlock.serialized hashCodec [Block.ofData extraHash ⟨[0], [], none, [1]⟩]) = some _ := rfl
  ⟨_, _, hr, rfl, hh, rfl, respBlkHandler_refines extraHash hashCodec_readsData hr hh⟩

/-! ## `blk_fetch_waiting` -/

theorem asyncFetchBlk_nodup {s : Base} (hn : s.fetchWaiting.Nodup) (h : Hash) :
    (s.asyncFetchBlk h).fetchWaiting.Nodup := by
  unfold asyncFetchBlk
  split_ifs with hf
  · exact hn
  · exact List.nodup_cons.mpr ⟨fun hm => hf (by simp [hm]), hn⟩

theorem asyncDeliverBlk_nodup {s : Base} (hn : s.fetchWaiting.Nodup) (h : Hash) :
    (s.asyncDeliverBlk h).fetchWaiting.Nodup := by
  unfold asyncDeliverBlk
  split_ifs
  · exact hn
  · exact asyncFetchBlk_nodup hn h

theorem foldl_asyncDeliverBlk_nodup : ∀ (l : List Hash) {s : Base}, s.fetchWaiting.Nodup →
    (l.foldl asyncDeliverBlk s).fetchWaiting.Nodup
  | [], _, hn => hn
  | h :: l, _, hn => foldl_asyncDeliverBlk_nodup l (asyncDeliverBlk_nodup hn h)

theorem onFetched_nodup {s : Base} (hn : s.fetchWaiting.Nodup) (h : Hash) :
    (s.onFetched h).fetchWaiting.Nodup := by
  unfold onFetched
  split
  · exact hn
  · refine foldl_asyncDeliverBlk_nodup _ ?_
    split
    · exact asyncFetchBlk_nodup (s := { s with conts := s.conts.erase h }) hn _
    · exact hn

theorem step_nodup {s s' : Base} (hn : s.fetchWaiting.Nodup) {e : Event} (h : s.step H e = .ok s') :
    s'.fetchWaiting.Nodup := by
  cases moves_of_step H h with
  | propose d => exact asyncDeliverBlk_nodup (s := { s with core := (s.core.addBlk (Block.ofData H d)).1 }) hn _
  | respBlock d => exact hn.erase _
  | deliver n => exact asyncDeliverBlk_nodup hn n
  | fetched _ _ => exact onFetched_nodup hn _
  | verified | handOver | onPropose | idle => exact hn

theorem reachable_nodup {id : ReplicaID} {rs : List ReplicaID} {nfaulty : Nat} {s : Base}
    (hr : Reachable H (init H id rs nfaulty) s) : s.fetchWaiting.Nodup := by
  induction hr with
  | refl => exact List.nodup_nil
  | tail e _ h ih => exact step_nodup H ih h

theorem foldl_erase_subset : ∀ (l w : List Hash), l.foldl List.erase w ⊆ w
  | [], w => List.Subset.refl w
  | a :: l, w => fun _ hx => List.erase_subset _ _ (foldl_erase_subset l (w.erase a) hx)

theorem not_mem_foldl_erase {h : Hash} : ∀ {l w : List Hash}, w.Nodup → h ∈ l → h ∉ l.foldl List.erase w
  | a :: l, w, hw, hm => by
    rw [List.foldl_cons]
    rcases List.mem_cons.mp hm with rfl | hm
    · exact fun h' => hw.not_mem_erase (foldl_erase_subset l _ h')
    · exact not_mem_foldl_erase (hw.erase a) hm

/-! ## The exchange -/

theorem mapM_storage {st : Hash → Option Ptr} :
    ∀ {hs : List Hash}, (∀ h ∈ hs, (st h).isSome = true) →
      ∃ ps, hs.mapM st = some ps ∧ List.Forall₂ (fun h p => st h = some p) hs ps
  | [], _ => ⟨[], rfl, .nil⟩
  | h :: hs, hf => by
    obtain ⟨p, hp⟩ := Option.isSome_iff_exists.mp (hf h (List.mem_cons_self _ _))
    obtain ⟨ps, hps, hf'⟩ := mapM_storage fun h' hm => hf h' (List.mem_cons_of_mem _ hm)
    exact ⟨p :: ps, by rw [List.mapM_cons, hp, hps]; rfl, .cons hp hf'⟩

theorem isSome_of_forall₂ {st : Hash → Option Ptr} :
    ∀ {hs : List Hash} {ps : List Ptr}, List.Forall₂ (fun h p => st h = some p) hs ps →
      ∀ h ∈ hs, (st h).isSome = true
  | _, _, .nil => fun _ h => absurd h (List.not_mem_nil _)
  | _, _, .cons hp hf => fun _ hm => by
    rcases List.mem_cons.mp hm with rfl | hm
    · rw [hp]; rfl
    · exact isSome_of_forall₂ hf _ hm

theorem foldl_asyncFetchBlk_fetched : ∀ {hs : List Hash} {s : Base},
    (∀ h ∈ hs, s.core.isBlkFetched h = true) → hs.foldl asyncFetchBlk s = s
  | [], _, _ => rfl
  | h :: hs, s, hf => by
    have hs1 : s.asyncFetchBlk h = s := by
      unfold asyncFetchBlk; rw [if_pos (by rw [hf h (List.mem_cons_self _ _)]; rfl)]
    rw [List.foldl_cons, hs1]
    exact foldl_asyncFetchBlk_fetched fun h' hm => hf h' (List.mem_cons_of_mem _ hm)

/-- A block request answered at once: a peer that stores every requested block sends them
back without changing its state, and the requester's `resp_blk_handler` stores each of
them and resolves the fetch of every requested hash, in a state its pipeline reaches,
where `blk_fetch_waiting` still holds no hash twice. -/
theorem fetch_request_resolved {c : BlockCodec} (hc : c.ReadsData H) (hk : c.KeepsHash)
    {id id' : ReplicaID} {rs rs' : List ReplicaID} {nfaulty nfaulty' : Nat} {rq sv : Base}
    (hrq : Reachable H (init H id rs nfaulty) rq) (hsv : Reachable H (init H id' rs' nfaulty') sv)
    {hs : List Hash} (hlen : hs.length < 2 ^ 32) (hh : ∀ h ∈ hs, h < 2 ^ 256)
    (hst : ∀ h ∈ hs, sv.core.isBlkFetched h = true) :
    ∃ resp, reqBlkHandler c sv (MsgReqBlock.serialized hs) = some (sv, some resp) ∧
      ∃ rq', respBlkHandler c rq resp = some rq' ∧ Reachable H (init H id rs nfaulty) rq' ∧
        (∀ h ∈ hs, rq'.fetchResolved h = true) ∧ rq'.fetchWaiting.Nodup := by
  have wsv := (reachable_pipeInv H hsv).wf
  have wrq := (reachable_pipeInv H hrq).wf
  obtain ⟨ps, hps, hf⟩ := mapM_storage hst
  have hmap : (ps.map sv.core.heap).map Block.hash = hs := by
    rw [List.map_map]; exact Core.map_hash_of_forall₂ (fun h p hp => (wsv.roots.storage h p hp).2) hf
  have hcb : ∀ b ∈ ps.map sv.core.heap, ∀ rest, ∃ b', c.get (c.put b ++ rest) = some (b', rest) ∧
      b'.hash = b.hash := fun b hb => hk b (hh _ (by rw [← hmap]; exact List.mem_map_of_mem _ hb))
  obtain ⟨s', ps', hp', hst', -, -, hmap'⟩ := MsgRespBlock.parseBlks_flatMap hcb [] wrq.roots.storage
  rw [List.append_nil] at hp'
  have hn : (ps.map sv.core.heap).length % 256 ^ 4 = (ps.map sv.core.heap).length :=
    Nat.mod_eq_of_lt (by rw [← List.length_map _ Block.hash, hmap]; simpa using hlen)
  have hresp : respBlkHandler c rq (MsgRespBlock.serialized c (ps.map sv.core.heap)) =
      some (ps'.foldl onFetchBlk { rq with core := s' }) := by
    rw [respBlkHandler, MsgRespBlock.postponedParse, MsgRespBlock.serialized, getLe_leBytes, hn,
      Option.some_bind, hp']
    rfl
  obtain ⟨ds, -, hf'⟩ := parseBlks_ofData H hc _ _ hp'
  obtain ⟨es, hes⟩ := respBlkHandler_run H hc wrq.roots.storage hresp
  have hrq' := reachable_of_run H _ hrq hes
  refine ⟨_, ?_, _, hresp, hrq', fun h hm => ?_, reachable_nodup H hrq'⟩
  · simp only [reqBlkHandler, MsgReqBlock.ofStream_serialized hlen hh, Option.map_some',
      foldl_asyncFetchBlk_fetched hst, hps]
  · have hds : ds.map H = hs :=
      (Core.map_hash_of_forall₂ (fun h p hp => (hst' h p hp).2) hf').symm.trans (hmap'.trans hmap)
    have hfe : s'.isBlkFetched h = true := isSome_of_forall₂ hf' h (by rw [hds]; exact hm)
    have hnw : h ∉ (ps'.map fun p => (s'.heap p).hash).foldl List.erase rq.fetchWaiting := by
      rw [hmap', hmap]; exact not_mem_foldl_erase (reachable_nodup H hrq) hm
    rw [foldl_onFetchBlk]
    simp [fetchResolved, hfe, hnw]

/-- Replica 0 waits on the fetch of hash `1`; replica 1 stores the block of that hash, as its
proposal. Asked for `[1]`, replica 1 answers at once, and the answer resolves the fetch. -/
theorem fetch_request_resolved_vote :
    ∃ rq sv, Reachable extraHash (init extraHash 0 [0, 1, 2, 3] 1) rq ∧
      Reachable extraHash (init extraHash 1 [0, 1, 2, 3] 1) sv ∧ rq.fetchWaiting = [1] ∧
      ∃ resp, reqBlkHandler hashCodec sv (MsgReqBlock.serialized [1]) = some (sv, some resp) ∧
        ∃ rq', respBlkHandler hashCodec rq resp = some rq' ∧
          Reachable extraHash (init extraHash 0 [0, 1, 2, 3] 1) rq' ∧ (∀ h ∈ [1], rq'.fetchResolved h = true) ∧
          rq'.fetchWaiting.Nodup :=
  have hrq : Reachable extraHash (init extraHash 0 [0, 1, 2, 3] 1) _ :=
    reachable_of_run extraHash [.vote ⟨1, 1⟩] .refl rfl
  have hsv : Reachable extraHash (init extraHash 1 [0, 1, 2, 3] 1) _ :=
    reachable_of_run extraHash [.propose ⟨[0], [10], none, [1]⟩] .refl rfl
  ⟨_, _, hrq, hsv, rfl, fetch_request_resolved extraHash hashCodec_readsData hashCodec_keepsHash hrq hsv
    (by decide) (by decide) fun h hm => by rw [List.mem_singleton.mp hm]; rfl⟩

end Base

end HotStuff
