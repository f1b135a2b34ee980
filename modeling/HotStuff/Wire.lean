import HotStuff.Wf
import Mathlib.Algebra.Group.Nat.Basic

/-!
# The block request and response messages

`MsgReqBlock` carries block hashes and `MsgRespBlock` blocks, each as a little-endian
`uint32_t` count followed by the items. A `DataStream` is a list of bytes; reading raises
`std::ios_base::failure` (here `none`) when too few are left. A `uint256_t` hash is 32
bytes, lowest first. `Block::serialize` and `Block::unserialize` are not part of this
source; a `BlockCodec` stands for them. The count is cast to `uint32_t`, so a list of
`2 ^ 32` items or more is sent with its length modulo `2 ^ 32`.
-/

namespace HotStuff

/-- The `n` bytes of `x % 256 ^ n`, lowest first. -/
def leBytes : Nat → Nat → List UInt8
  | 0, _ => []
  | n + 1, x => UInt8.ofNat x :: leBytes n (x / 256)

/-- The number little-endian bytes stand for. -/
def leNat : List UInt8 → Nat
  | [] => 0
  | b :: bs => b.toNat + 256 * leNat bs

/-- `s >> x` for an integer of `n` bytes, then `letoh`: the value and the bytes after it. -/
def getLe (n : Nat) (s : List UInt8) : Option (Nat × List UInt8) :=
  if n ≤ s.length then some (leNat (s.take n), s.drop n) else none

/-- `n` items read one after another, as `resize(size)` and the loop over the items do. -/
def getMany {α : Type} (get : List UInt8 → Option (α × List UInt8)) :
    Nat → List UInt8 → Option (List α × List UInt8)
  | 0, s => some ([], s)
  | n + 1, s =>
    (get s).bind fun r => (getMany get n r.2).map fun r' => (r.1 :: r'.1, r'.2)

theorem length_leBytes (n x : Nat) : (leBytes n x).length = n := by
  induction n generalizing x with
  | zero => rfl
  | succ n ih => simp [leBytes, ih]

theorem leNat_leBytes (n x : Nat) : leNat (leBytes n x) = x % 256 ^ n := by
  induction n generalizing x with
  | zero => simp [leBytes, leNat, Nat.mod_one]
  | succ n ih =>
    have hb : (UInt8.ofNat x).toNat = x % 256 := rfl
    rw [leBytes, leNat, hb, ih, Nat.pow_succ', Nat.mod_mul]

theorem getLe_leBytes (n x : Nat) (rest : List UInt8) :
    getLe n (leBytes n x ++ rest) = some (x % 256 ^ n, rest) := by
  have hl := length_leBytes n x
  simp [getLe, hl, List.take_left' hl, List.drop_left' hl, leNat_leBytes]

theorem getMany_flatMap {α : Type} {get : List UInt8 → Option (α × List UInt8)} {put : α → List UInt8}
    (xs : List α) (hx : ∀ x ∈ xs, ∀ rest, get (put x ++ rest) = some (x, rest)) (rest : List UInt8) :
    getMany get xs.length (xs.flatMap put ++ rest) = some (xs, rest) := by
  induction xs with
  | nil => rfl
  | cons x xs ih =>
    simp only [List.length_cons, getMany, List.flatMap_cons, List.append_assoc,
      hx x (List.mem_cons_self x xs), Option.some_bind, ih fun y hy => hx y (List.mem_cons_of_mem x hy),
      Option.map_some']

/-! ## `MsgReqBlock` -/

namespace MsgReqBlock

def serialized (hs : List Hash) : List UInt8 :=
  leBytes 4 hs.length ++ hs.flatMap (leBytes 32)

/-- `MsgReqBlock(DataStream &&s)`: the hashes it reads. -/
def ofStream (s : List UInt8) : Option (List Hash) :=
  (getLe 4 s).bind fun r => (getMany (getLe 32) r.1 r.2).map (·.1)

end MsgReqBlock

/-! ## `MsgRespBlock` -/

/-- `Block::serialize` and `Block::unserialize`: the bytes of a block, and the block
read from the front of a stream with the bytes after it. -/
structure BlockCodec where
  put : Block → List UInt8
  get : List UInt8 → Option (Block × List UInt8)

namespace MsgRespBlock

def serialized (c : BlockCodec) (blks : List Block) : List UInt8 :=
  leBytes 4 blks.length ++ blks.flatMap c.put

/-- The loop of `postponed_parse`: each block is unserialized and handed to
`storage->add_blk`, which gives back the object stored for its hash. -/
def parseBlks (c : BlockCodec) : Nat → Core → List UInt8 → Option (Core × List Ptr)
  | 0, s, _ => some (s, [])
  | n + 1, s, bytes =>
    (c.get bytes).bind fun r =>
      (parseBlks c n (s.addBlk r.1).1 r.2).map fun r' => (r'.1, (s.addBlk r.1).2 :: r'.2)

/-- `MsgRespBlock::postponed_parse(hsc)`: the core after the blocks went to its storage,
and the objects `blks` holds. -/
def postponedParse (c : BlockCodec) (s : Core) (bytes : List UInt8) : Option (Core × List Ptr) :=
  (getLe 4 bytes).bind fun r => parseBlks c r.1 s r.2

end MsgRespBlock

/-! ## Round trips -/

namespace MsgReqBlock

/-- A list of fewer than `2 ^ 32` hashes, each a `uint256_t`, is read back as it was sent. -/
theorem ofStream_serialized {hs : List Hash} (hlen : hs.length < 2 ^ 32)
    (hh : ∀ h ∈ hs, h < 2 ^ 256) : ofStream (serialized hs) = some hs := by
  have hx : ∀ h ∈ hs, ∀ rest, getLe 32 (leBytes 32 h ++ rest) = some (h, rest) := fun h hm rest => by
    rw [getLe_leBytes, Nat.mod_eq_of_lt (by simpa using hh h hm)]
  have hn : hs.length % 256 ^ 4 = hs.length := Nat.mod_eq_of_lt (by simpa using hlen)
  have := getMany_flatMap hs hx []
  rw [List.append_nil] at this
  rw [ofStream, serialized, getLe_leBytes, hn, Option.some_bind, this]
  rfl

end MsgReqBlock

namespace MsgRespBlock

/-- What `add_blk` needs of the storage for the object it gives back to carry the hash
asked for: every stored pointer names an allocated object with that hash. -/
def StorageOk (s : Core) : Prop := ∀ h p, s.storage h = some p → p < s.next ∧ (s.heap p).hash = h

theorem StorageOk.addBlk {s : Core} (hs : StorageOk s) (b : Block) :
    StorageOk (s.addBlk b).1 ∧ ((s.addBlk b).1.heap (s.addBlk b).2).hash = b.hash ∧
      ∀ p < s.next, (s.addBlk b).1.heap p = s.heap p ∧ p < (s.addBlk b).1.next := by
  cases hb : s.storage b.hash with
  | some p =>
    rw [Core.addBlk_of_some s b hb]
    exact ⟨hs, (hs _ _ hb).2, fun _ hp => ⟨rfl, hp⟩⟩
  | none =>
    rw [Core.addBlk_of_none s b hb]
    refine ⟨fun h p hp => ?_, by simp, fun q hq => ⟨by simp [hq.ne], Nat.lt_succ_of_lt hq⟩⟩
    by_cases hh : h = b.hash
    · subst hh; simp only [if_true] at hp; cases hp; simp
    · simp only [hh, if_false] at hp
      have := hs h p hp
      exact ⟨Nat.lt_succ_of_lt this.1, by simp [this.1.ne, this.2]⟩

theorem parseBlks_flatMap {c : BlockCodec} {blks : List Block}
    (hc : ∀ b ∈ blks, ∀ rest, ∃ b', c.get (c.put b ++ rest) = some (b', rest) ∧ b'.hash = b.hash)
    (rest : List UInt8) {s : Core} (hs : StorageOk s) :
    ∃ s' ps, parseBlks c blks.length s (blks.flatMap c.put ++ rest) = some (s', ps) ∧
      StorageOk s' ∧ (∀ p < s.next, s'.heap p = s.heap p ∧ p < s'.next) ∧
      (∀ p ∈ ps, p < s'.next) ∧ ps.map (fun p => (s'.heap p).hash) = blks.map Block.hash := by
  induction blks generalizing s with
  | nil => exact ⟨s, [], rfl, hs, fun _ hp => ⟨rfl, hp⟩, by simp, rfl⟩
  | cons b blks ih =>
    obtain ⟨b', hg, hh⟩ := hc b (List.mem_cons_self b blks) (blks.flatMap c.put ++ rest)
    obtain ⟨hs1, hh1, hk1⟩ := hs.addBlk b'
    obtain ⟨s', ps, hp, hs', hk, hlt, hmap⟩ :=
      ih (fun x hx => hc x (List.mem_cons_of_mem b hx)) hs1
    have hq : (s.addBlk b').2 < (s.addBlk b').1.next := by
      cases hb : s.storage b'.hash with
      | some p => rw [Core.addBlk_of_some s b' hb]; exact (hs _ _ hb).1
      | none => rw [Core.addBlk_of_none s b' hb]; exact Nat.lt_succ_self _
    refine ⟨s', (s.addBlk b').2 :: ps, ?_, hs', fun p hp => ?_, ?_, ?_⟩
    · simp only [List.length_cons, parseBlks, List.flatMap_cons, List.append_assoc, hg,
        Option.some_bind, hp, Option.map_some']
    · obtain ⟨h1, h2⟩ := hk1 p hp
      obtain ⟨h3, h4⟩ := hk p h2
      exact ⟨h3.trans h1, h4⟩
    · simpa using ⟨(hk _ hq).2, hlt⟩
    · simp only [List.map_cons, hmap, (hk _ hq).1, hh1, hh]

end MsgRespBlock

/-- Both codecs round-trip on lists of fewer than `2 ^ 32` items: the hashes of a block
request are read back exactly, and parsing a block response into a storage that keeps
objects under their hashes gives as many objects as blocks were sent, in order, with
their hashes, when `Block`'s own codec keeps the hash. -/
theorem reqResp_round_trip {hs : List Hash} (hlen : hs.length < 2 ^ 32) (hh : ∀ h ∈ hs, h < 2 ^ 256)
    {c : BlockCodec} {blks : List Block} (hblen : blks.length < 2 ^ 32)
    (hc : ∀ b ∈ blks, ∀ rest, ∃ b', c.get (c.put b ++ rest) = some (b', rest) ∧ b'.hash = b.hash)
    {s : Core} (hst : MsgRespBlock.StorageOk s) :
    MsgReqBlock.ofStream (MsgReqBlock.serialized hs) = some hs ∧
      ∃ s' ps, MsgRespBlock.postponedParse c s (MsgRespBlock.serialized c blks) = some (s', ps) ∧
        ps.map (fun p => (s'.heap p).hash) = blks.map Block.hash := by
  refine ⟨MsgReqBlock.ofStream_serialized hlen hh, ?_⟩
  obtain ⟨s', ps, hp, -, -, -, hmap⟩ := MsgRespBlock.parseBlks_flatMap hc [] hst
  rw [List.append_nil] at hp
  have hn : blks.length % 256 ^ 4 = blks.length := Nat.mod_eq_of_lt (by simpa using hblen)
  refine ⟨s', ps, ?_, hmap⟩
  rw [MsgRespBlock.postponedParse, MsgRespBlock.serialized, getLe_leBytes, hn, Option.some_bind, hp]

/-- A block codec for runs on concrete inputs: it sends the hash alone and reads back the
block whose `extra` word is that hash. -/
def hashCodec : BlockCodec :=
  ⟨fun b => leBytes 32 b.hash, fun s => (getLe 32 s).map fun r => (Block.ofData extraHash ⟨[], [], none, [r.1]⟩, r.2)⟩

theorem reqResp_round_trip_two_blocks :
    MsgReqBlock.ofStream (MsgReqBlock.serialized [1, 2]) = some [1, 2] ∧
      ∃ s' ps, MsgRespBlock.postponedParse hashCodec (Core.init extraHash 0 [0, 1, 2, 3] 1)
          (MsgRespBlock.serialized hashCodec
            [Block.ofData extraHash ⟨[0], [], none, [5]⟩, Block.ofData extraHash ⟨[5], [], none, [6]⟩]) =
            some (s', ps) ∧
        ps.map (fun p => (s'.heap p).hash) =
          [Block.ofData extraHash ⟨[0], [], none, [5]⟩, Block.ofData extraHash ⟨[5], [], none, [6]⟩].map Block.hash :=
  reqResp_round_trip (by decide) (by decide) (by decide)
    (fun b hb rest => by
      rcases List.mem_pair.mp hb with rfl | rfl
      · exact ⟨Block.ofData extraHash ⟨[], [], none, [5]⟩, by simp only [hashCodec, getLe_leBytes]; rfl, rfl⟩
      · exact ⟨Block.ofData extraHash ⟨[], [], none, [6]⟩, by simp only [hashCodec, getLe_leBytes]; rfl, rfl⟩)
    (Core.wf_init extraHash 0 [0, 1, 2, 3] 1).roots.storage

/-- The count of a response is cast to `uint32_t`: `2 ^ 32` blocks are sent with the
count `0`, and `postponed_parse` reads none of them, whatever the block codec. -/
theorem postponedParse_replicate_wraps (c : BlockCodec) (s : Core) (b : Block) :
    MsgRespBlock.postponedParse c s (MsgRespBlock.serialized c (List.replicate (2 ^ 32) b)) =
      some (s, []) := by
  simp only [MsgRespBlock.postponedParse, MsgRespBlock.serialized, List.length_replicate, getLe_leBytes,
    Option.some_bind, MsgRespBlock.parseBlks]

theorem respBlock_count_wraps :
    MsgRespBlock.postponedParse hashCodec (Core.init extraHash 0 [0, 1, 2, 3] 1)
        (MsgRespBlock.serialized hashCodec (List.replicate (2 ^ 32) (Block.ofData extraHash ⟨[0], [], none, [5]⟩))) =
      some (Core.init extraHash 0 [0, 1, 2, 3] 1, []) :=
  postponedParse_replicate_wraps _ _ _

end HotStuff
