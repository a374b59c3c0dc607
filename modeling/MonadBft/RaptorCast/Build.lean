/-
  MonadBft.RaptorCast.Build — the packets of a message (`net/raptorcast/packet.go`,
  `net/raptorcast/assigner.go`).

  A message is cut into symbols, every chunk id gets a recipient (one node, every validator of a
  group in turn, or the validators in proportion to their stake), and the chunks are signed in
  batches with one tree each. The raptor encoder and the shuffle of the validators are parameters.

  Where the source writes into the parts of a zeroed buffer of the segment's length, which it
  covers, the packet is the parts in a row.
-/
import MonadBft.RaptorCast.Merkle

namespace MonadBft.RaptorCast

open Rlp WireAuth

inductive BuildError where
  | tooManyChunks
  | merkleTreeTooDeep
  | encoderFailed
  | chunkIDOverflow
  /-- a nil group, an encoding id or a shift out of range -/
  | panics
  deriving DecidableEq, Repr

/-- `raptor.Encoder`: whether `NewEncoder` takes a message with a symbol length, and the symbols;
`none` is the panic on an id out of range. -/
structure ErasureEncoder where
  accepts : Bytes → Nat → Bool
  encodeSymbol : Bytes → Nat → Nat → Option Bytes
  accepts_le : ∀ {src symbolLen}, accepts src symbolLen = true →
    (src.length + symbolLen - 1) / symbolLen ≤ sourceSymbolsMax
  length_encodeSymbol : ∀ {src symbolLen id b}, encodeSymbol src symbolLen id = some b → b.length = symbolLen

/-! ## Layout -/

/-- `packetLayoutV0`, with room for a symbol. -/
structure PacketLayout where
  segmentLen : Nat
  merkleTreeDepth : Nat
  depth_pos : 1 ≤ merkleTreeDepth
  room : packetHeaderLenV0 + 20 * (merkleTreeDepth - 1) + chunkHeaderLenV0 < segmentLen

namespace PacketLayout

variable (l : PacketLayout)

def chunkHeaderStart : Nat := packetHeaderLenV0 + 20 * (l.merkleTreeDepth - 1)

def symbolStart : Nat := l.chunkHeaderStart + chunkHeaderLenV0

def symbolLen : Nat := l.segmentLen - l.symbolStart

def numBaseSymbols (appMessageLen : Nat) : Nat := (appMessageLen + l.symbolLen - 1) / l.symbolLen

/-- `merkleBatchLen`; a depth above 63 does not fit the shift. -/
def merkleBatchLen : Option Nat := if l.merkleTreeDepth ≤ 63 then some (2 ^ (l.merkleTreeDepth - 1)) else none

theorem symbolLen_pos : 0 < l.symbolLen := by
  have := l.room
  unfold symbolLen symbolStart chunkHeaderStart
  omega

end PacketLayout

/-! ## Assignment -/

/-- `chunkAssignment`: the node that each chunk id goes to. -/
abbrev ChunkAssignment := List NodeId

def unicastAssignment (recipient : NodeId) (numChunks : Nat) : ChunkAssignment := List.replicate numChunks recipient

structure Chunk where
  chunkID : Nat
  recipient : NodeId
  deriving DecidableEq, Repr

def maxTriples : Nat := 2 ^ 16

def materialize (a : ChunkAssignment) : Except BuildError (List Chunk) :=
  if maxTriples < a.length then .error .tooManyChunks else .ok (a.zipIdx.map fun e => ⟨e.2, e.1⟩)

structure GroupView where
  author : NodeId
  members : List NodeId
  stakeOf : NodeId → Nat

structure StakePartition where
  validators : List (NodeId × Nat)
  totalStake : Nat
  deriving DecidableEq, Repr

/-- `stakePartitionFromGroup`; the sum of the stakes has 256 bits. -/
def stakePartitionFromGroup (group : GroupView) : StakePartition :=
  let validators := (group.members.filter (· ≠ group.author)).map fun m => (m, group.stakeOf m)
  ⟨validators, (validators.map (·.2)).sum % 2 ^ 256⟩

/-- `obligation`, with the rounding chunk. -/
def obligation (totalStake numScaledSymbols stake : Nat) : Option Nat :=
  let prod := stake * numScaledSymbols
  if stake = 0 ∨ totalStake = 0 then none
  else if 2 ^ 63 ≤ prod / totalStake then none
  else some (if prod % totalStake = 0 then prod / totalStake else prod / totalStake + 1)

/-- One pass of `assignRoundRobin`: a chunk for each that is still obliged, and who is left. -/
def dealPass : List (NodeId × Nat) → List NodeId × List (NodeId × Nat)
  | [] => ([], [])
  | (_, 0) :: rest => dealPass rest
  | (id, n + 1) :: rest =>
    let r := dealPass rest
    (id :: r.1, if n = 0 then r.2 else (id, n) :: r.2)

/-- The loop of `assignRoundRobin`; `none` if it has not ended after `fuel` passes. -/
def deal : Nat → List (NodeId × Nat) → Option (List NodeId)
  | 0, _ => none
  | _ + 1, [] => some []
  | _ + 1, [(id, n)] => some (List.replicate n id)
  | fuel + 1, remaining =>
    let r := dealPass remaining
    (deal fuel r.2).map (r.1 ++ ·)

def assignRoundRobin (p : StakePartition) (numBaseSymbols : Nat) (redundancy : Redundancy) : Option ChunkAssignment := do
  let numScaled ← scale redundancy numBaseSymbols
  let capacity := numScaled + p.validators.length
  let obligations ← p.validators.mapM fun v => (obligation p.totalStake numScaled v.2).map fun n => (v.1, n)
  let a ← deal ((obligations.map (·.2)).sum + obligations.length + 1) obligations
  if a.length < numScaled ∨ capacity < a.length then none else some a

def StakePartition.assign (p : StakePartition) (numBaseSymbols : Nat) (redundancy : Redundancy) :
    Except BuildError ChunkAssignment :=
  if p.validators = [] then .ok []
  else
    match assignRoundRobin p numBaseSymbols redundancy with
    | none => .error .tooManyChunks
    | some a => .ok a

/-- `shuffle`: the order of the validators, from a seed. -/
structure Shuffle where
  shuffle : Bytes → List (NodeId × Nat) → List (NodeId × Nat)
  perm : ∀ seed l, (shuffle seed l).Perm l

/-! ## Assembling -/

def buildHeaderV0 (mode : BroadcastMode) (treeDepth : Nat) (groupID : GroupId) (unixTsMs : UInt64) (appMessageHash : Bytes)
    (appMessageLen : Nat) : Except BuildError Bytes :=
  if treeDepth / 16 % 16 ≠ 0 then .error .merkleTreeTooDeep
  else
    let broadcastByte : UInt8 := match mode with
      | .primary => 0x80
      | .secondary => 0x40
      | .unspecified => 0
    .ok (littleEndian 2 0 ++ (broadcastByte ||| UInt8.ofNat (treeDepth % 16)) :: littleEndian 8 groupID.n ++
      littleEndian 8 unixTsMs.toNat ++ appMessageHash ++ littleEndian 4 appMessageLen)

structure UdpMessage where
  recipient : NodeId
  stride : Nat
  payload : Bytes
  deriving DecidableEq, Repr

/-- `encodeSymbols`: every chunk with its symbol. Chunks of one id have one symbol. -/
def encodeSymbols (E : ErasureEncoder) (appMessage : Bytes) (chunks : List Chunk) (layout : PacketLayout) :
    Except BuildError (List (Chunk × Bytes)) :=
  if !E.accepts appMessage layout.symbolLen then .error .encoderFailed
  else chunks.mapM fun c =>
    if chunks.length ≤ c.chunkID then .error .tooManyChunks
    else
      match E.encodeSymbol appMessage layout.symbolLen c.chunkID with
      | none => .error .panics
      | some symbol => .ok (c, symbol)

/-- `writeChunkHeader` and the symbol after it. -/
def chunkBytes (H : Hashing) (c : Chunk × Bytes) (merkleLeafIndex : Nat) : Except BuildError Bytes :=
  if 0xffff < c.1.chunkID then .error .chunkIDOverflow
  else .ok (H.computeHash c.1.recipient ++ UInt8.ofNat merkleLeafIndex :: 0 :: littleEndian 2 c.1.chunkID ++ c.2)

def assembleBatch (H : Hashing) (S : Signing) (key : NodeId) (layout : PacketLayout) (header : Bytes)
    (batch : List (Chunk × Bytes)) : Except BuildError (List UdpMessage) := do
  let bodies ← batch.zipIdx.mapM fun e => chunkBytes H e.1 e.2
  let tree := newMerkleTreeWithDepth (bodies.map H.sum256) layout.merkleTreeDepth
  let sig := S.sign key (header ++ tree.root H layout.merkleTreeDepth)
  return (batch.zip bodies).zipIdx.map fun e =>
    let payload := sig ++ header ++ (tree.proof H layout.merkleTreeDepth e.2).flatten ++ e.1.2
    ⟨e.1.1.1.recipient, payload.length, payload⟩

def batches {α : Type} (n : Nat) : Nat → List α → List (List α)
  | 0, _ => []
  | fuel + 1, l => if l.length = 0 then [] else l.take n :: batches n fuel (l.drop n)

def assemble (H : Hashing) (S : Signing) (E : ErasureEncoder) (chunks : List Chunk) (key : NodeId) (layout : PacketLayout)
    (appMessage header : Bytes) : Except BuildError (List UdpMessage) := do
  let encoded ← encodeSymbols E appMessage chunks layout
  match layout.merkleBatchLen with
  | none => .error .panics
  | some n =>
    let messages ← (batches n encoded.length encoded).mapM (assembleBatch H S key layout header)
    return messages.flatten

/-- `buildTarget`; a recipient that is the zero value is `none`. -/
structure BuildTarget where
  mode : BroadcastMode
  recipient : Option NodeId
  epoch : UInt64
  group : Option GroupView

def BuildTarget.members (t : BuildTarget) : List NodeId := (t.group.map (·.members)).getD []

def numSymbols (redundancy : Redundancy) (numBaseSymbols : Nat) : Except BuildError Nat :=
  match scale redundancy numBaseSymbols with
  | none => .error .tooManyChunks
  | some n => if maxTriples < n then .error .tooManyChunks else .ok n

/-- The first part of `buildInto`: the chunks, by the kind of target. -/
def targetChunks (R : Shuffle) (selfID : NodeId) (appHash : Bytes) (redundancy : Redundancy) (numBaseSymbols : Nat)
    (target : BuildTarget) : Except BuildError (List Chunk) :=
  match target.mode, target.recipient, target.group with
  | .unspecified, recipient, group =>
    if target.members = [] ∧ recipient.isSome then do
      -- to one node
      if recipient = some selfID then return []
      let n ← numSymbols redundancy numBaseSymbols
      materialize (unicastAssignment (recipient.getD 0) n)
    else do
      -- to every member of the group in turn
      let n ← numSymbols redundancy numBaseSymbols
      match group with
      | none => .error .panics
      | some g =>
        let chunks ← (g.members.filter (· ≠ selfID)).mapM fun m => materialize (unicastAssignment m n)
        return chunks.flatten
  | .primary, _, none => .error .panics
  | .primary, _, some g => do
    let part := stakePartitionFromGroup g
    let a ← ({ part with validators := R.shuffle appHash part.validators } : StakePartition).assign numBaseSymbols redundancy
    materialize a
  | .secondary, _, _ => .ok []

def buildInto (H : Hashing) (S : Signing) (E : ErasureEncoder) (R : Shuffle) (key : NodeId) (layout : PacketLayout)
    (redundancy : Redundancy) (unixTsMs : UInt64) (appMessage : Bytes) (target : BuildTarget) :
    Except BuildError (List UdpMessage) := do
  let appHash := H.computeAppMessageHash appMessage
  let chunks ← targetChunks R key appHash redundancy (layout.numBaseSymbols appMessage.length) target
  if maxNumPackets < chunks.length then .error .tooManyChunks
  else if chunks.length = 0 then .ok []
  else do
    let header ← buildHeaderV0 target.mode layout.merkleTreeDepth (primaryGroup target.epoch.toNat) unixTsMs appHash
      appMessage.length
    assemble H S E chunks key layout appMessage header

end MonadBft.RaptorCast
