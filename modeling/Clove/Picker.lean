import Mathlib.Data.List.Sort
import Clove.Lib.Map
import Clove.Bitfield
import Clove.Wire

/-!
# The piece picker

The model of `picker.rs`: availability, priorities, verified pieces, and per-block
accounting for the pieces in progress.  A piece is in `progress` only between its first
requested block and its verification.

`inFlightOf` and `isReceived` read the accounting block by block.  Each operation has one
lemma saying what it does to them; `Picker.WF` is the part of `check_invariants` those
lemmas rest on.
-/

namespace Clove

open Wire (BLOCK_LEN BlockRequest)

/-- A block of a piece. -/
abbrev BlockKey := Nat × Nat

/-! ## Geometry -/

/-- How a torrent's bytes are cut into pieces. -/
structure Layout where
  numPieces : Nat
  pieceLength : Nat
  totalLength : Nat
deriving Repr, DecidableEq

namespace Layout

/-- Length of piece `index`; the final piece may be short. -/
def pieceLen (l : Layout) (index : Nat) : Nat :=
  if l.totalLength ≤ index * l.pieceLength then 0
  else min (l.totalLength - index * l.pieceLength) l.pieceLength

/-- Number of blocks in piece `index`. -/
def blocksInPiece (l : Layout) (index : Nat) : Nat :=
  (l.pieceLen index + (BLOCK_LEN - 1)) / BLOCK_LEN

/-- Byte length of block `block` within piece `index`. -/
def blockLen (l : Layout) (index block : Nat) : Nat :=
  if l.pieceLen index ≤ block * BLOCK_LEN then 0
  else min (l.pieceLen index - block * BLOCK_LEN) BLOCK_LEN

end Layout

/-! ## The picker -/

/-- Piece-selection strategy. -/
inductive Mode where
  | rarestFirst
  | sequential
deriving Repr, DecidableEq

/-- Per-piece block accounting. -/
structure Progress where
  received : List Bool
  inFlight : List Nat
deriving Repr, DecidableEq

namespace Progress

def new (blocks : Nat) : Progress := ⟨List.replicate blocks false, List.replicate blocks 0⟩

def receivedCount (p : Progress) : Nat := p.received.countP (· = true)

end Progress

/-- Once this few blocks remain unreceived, duplicate requests are allowed. -/
def DEFAULT_ENDGAME_BLOCKS : Nat := 32

/-- Availability and download progress of one torrent. -/
structure Picker extends Layout where
  mode : Mode
  endgameBlocks : Nat
  /-- How many connected peers hold each piece. -/
  availability : List Nat
  /-- Pieces fully verified. -/
  haveField : Bitfield
  /-- Block state of started pieces. -/
  progress : Map Nat Progress
  /-- What each piece is worth: 0 skip, 1 normal, 2 high. -/
  priority : List Nat
  /-- Wanted pieces not yet held. -/
  missingWanted : Nat
  /-- Not in the source: how often a `saturating_sub` of an in-flight count met zero. -/
  saturations : Nat

namespace Picker

def new (layout : Layout) (mode : Mode) : Picker where
  toLayout := layout
  mode := mode
  endgameBlocks := DEFAULT_ENDGAME_BLOCKS
  availability := List.replicate layout.numPieces 0
  haveField := Bitfield.empty layout.numPieces
  progress := ∅
  priority := List.replicate layout.numPieces 1
  missingWanted := layout.numPieces
  saturations := 0

/-- Whether piece `index` is verified. -/
def has (pk : Picker) (index : Nat) : Bool := pk.haveField.has index

/-- Whether piece `index` is wanted at all. -/
def wants (pk : Picker) (index : Nat) : Bool := 0 < pk.priority.getD index 0

/-- Whether every wanted piece is verified. -/
def isComplete (pk : Picker) : Bool := pk.missingWanted = 0

def recountMissing (pk : Picker) : Picker :=
  { pk with missingWanted :=
      (List.range pk.numPieces).countP fun i => pk.wants i && !pk.has i }

/-- Set what each piece is worth.  Entries past the end are ignored and a short list
leaves the rest at normal. -/
def setPiecePriorities (pk : Picker) (perPiece : List Nat) : Picker :=
  { pk with priority := pk.priority.mapIdx fun index _ => perPiece.getD index 1 }.recountMissing

def setMode (pk : Picker) (mode : Mode) : Picker := { pk with mode := mode }

/-- Zero disables the endgame. -/
def setEndgameBlocks (pk : Picker) (blocks : Nat) : Picker := { pk with endgameBlocks := blocks }

/-- Bytes of the pieces wanted and not yet held. -/
def bytesLeft (pk : Picker) : Nat :=
  (((List.range pk.numPieces).filter fun i => pk.wants i && !pk.has i).map pk.pieceLen).sum

/-- Record that a peer holds every piece in `field`. -/
def addBitfield (pk : Picker) (field : Bitfield) : Picker :=
  { pk with availability :=
      pk.availability.mapIdx fun i a => if field.has i then a + 1 else a }

/-- Undo `addBitfield`. -/
def removeBitfield (pk : Picker) (field : Bitfield) : Picker :=
  { pk with availability :=
      pk.availability.mapIdx fun i a => if field.has i then a - 1 else a }

/-- Record a single new piece a peer announced. -/
def addSingle (pk : Picker) (index : Nat) : Picker :=
  if index < pk.numPieces then
    { pk with availability := pk.availability.modify index (· + 1) }
  else pk

/-- Mark piece `index` verified.  Clears its block progress. -/
def setHave (pk : Picker) (index : Nat) : Picker :=
  if index < pk.numPieces then
    { pk with
      missingWanted :=
        if !pk.has index && pk.wants index then pk.missingWanted - 1 else pk.missingWanted
      haveField := pk.haveField.set index
      progress := pk.progress.erase index }
  else pk

/-- Discard a piece's blocks, and its have bit, after a failed verification. -/
def resetPiece (pk : Picker) (index : Nat) : Picker :=
  if index < pk.numPieces then
    { pk with
      missingWanted :=
        if pk.has index && pk.wants index then pk.missingWanted + 1 else pk.missingWanted
      haveField := pk.haveField.clear index
      progress := pk.progress.erase index }
  else pk

/-- Block accounting of piece `index`, fresh if it has none. -/
def progressOf (pk : Picker) (index : Nat) : Progress :=
  (pk.progress.lookup index).getD (Progress.new (pk.blocksInPiece index))

/-- Whether `progress_mut` gives accounting for piece `index`: it is in range and not
held. -/
def trackable (pk : Picker) (index : Nat) : Bool := index < pk.numPieces && !pk.has index

/-- Store accounting for piece `index`. -/
def putProgress (pk : Picker) (index : Nat) (prog : Progress) : Picker :=
  { pk with progress := pk.progress.insert index prog }

/-- Count a decrement of an in-flight count that is already zero. -/
def noteSaturation (pk : Picker) (count : Nat) : Picker :=
  { pk with saturations := if count = 0 then pk.saturations + 1 else pk.saturations }

/-- Record that a block arrived.  True when that completes its piece. -/
def blockReceived (pk : Picker) (index block : Nat) : Picker × Bool :=
  if pk.trackable index then
    let prog := pk.progressOf index
    if block < prog.received.length then
      let after : Progress :=
        { received := prog.received.set block true
          inFlight := prog.inFlight.modify block (· - 1) }
      ((pk.putProgress index after).noteSaturation (prog.inFlight.getD block 0),
        after.receivedCount = pk.blocksInPiece index)
    else (pk.putProgress index prog, false)
  else (pk, false)

/-- Whether a block has arrived and is waiting on the rest of its piece. -/
def isReceived (pk : Picker) (index block : Nat) : Bool :=
  match pk.progress.lookup index with
  | some prog => prog.received.getD block false
  | none => false

/-- Release an in-flight block that will not arrive. -/
def blockFailed (pk : Picker) (index block : Nat) : Picker :=
  match pk.progress.lookup index with
  | some prog =>
      if block < prog.inFlight.length then
        (pk.putProgress index { prog with inFlight := prog.inFlight.modify block (· - 1) }
          ).noteSaturation (prog.inFlight.getD block 0)
      else pk
  | none => pk

/-! ## Picking -/

/-- The loop of `in_endgame`. -/
def endgameLoop (pk : Picker) : List Nat → Nat → Bool
  | [], _ => true
  | index :: rest, remaining =>
      if pk.has index || !pk.wants index then endgameLoop pk rest remaining
      else
        let received := ((pk.progress.lookup index).map Progress.receivedCount).getD 0
        let remaining := min (remaining + (pk.blocksInPiece index - received)) 4294967295
        if remaining > pk.endgameBlocks then false else endgameLoop pk rest remaining

def inEndgame (pk : Picker) : Bool :=
  pk.endgameBlocks ≠ 0 && pk.endgameLoop (List.range pk.numPieces) 0

/-- The sort key of a candidate: started pieces first, then high priority, then the
configured order. -/
def candidateKey (pk : Picker) (i : Nat) : List Nat :=
  [if i ∈ pk.progress then 0 else 1, 255 - pk.priority.getD i 0,
    match pk.mode with
    | .rarestFirst => pk.availability.getD i 0
    | .sequential => 0,
    i]

/-- Pieces this peer can serve that we still want, in order. -/
def candidateOrder (pk : Picker) (peerHas : Bitfield) : List Nat :=
  ((List.range pk.numPieces).filter fun i => peerHas.has i && !pk.has i && pk.wants i).insertionSort
    fun a b => pk.candidateKey a ≤ pk.candidateKey b

/-- One block of the inner loop of `pick`. -/
def pickBlock (endgame : Bool) (want index plen : Nat) (s : Progress × List BlockRequest)
    (block : Nat) : Progress × List BlockRequest :=
  if want ≤ s.2.length then s
  else if s.1.received.getD block false then s
  else if !endgame && 0 < s.1.inFlight.getD block 0 then s
  else
    ({ s.1 with inFlight := s.1.inFlight.modify block (· + 1) },
      s.2 ++ [⟨index, block * BLOCK_LEN, min (plen - block * BLOCK_LEN) BLOCK_LEN⟩])

/-- One piece of the outer loop of `pick`. -/
def pickPiece (endgame : Bool) (want : Nat) (s : Picker × List BlockRequest) (index : Nat) :
    Picker × List BlockRequest :=
  if want ≤ s.2.length then s
  else if s.1.trackable index then
    let r := (List.range (s.1.blocksInPiece index)).foldl
      (pickBlock endgame want index (s.1.pieceLen index)) (s.1.progressOf index, s.2)
    (s.1.putProgress index r.1, r.2)
  else s

/-- Choose up to `want` blocks for a peer whose piece set is `peerHas`, marking them in
flight. -/
def pick (pk : Picker) (peerHas : Bitfield) (want : Nat) : Picker × List BlockRequest :=
  if want = 0 then (pk, [])
  else (pk.candidateOrder peerHas).foldl (pickPiece pk.inEndgame want) (pk, [])

end Picker

end Clove
