import Strata.Component
import Strata.Component.Block
import Strata.Component.Footer

/-!
# Reading component files

An opened component file keeps footer and block index; data blocks and bloom filter are read when
they are needed, from the bytes the file then has. A key is looked for in one block only: the one
whose last key it is, or the first one whose last key lies above.
-/

namespace Strata

/-- An opened component file. -/
structure Archive where
  codec : Codec
  keyFields : Nat
  /-- The bytes of the file when it was opened. -/
  size : Nat
  footer : Footer
  entries : List IndexEntry

namespace Archive

/-- Positions in a file are below this. -/
def positionLimit : Nat := 2 ^ 63

/-- Read a stretch of a file. An empty one may lie behind the end. -/
def readRange (file : Bytes) (offset size : Nat) : Outcome Bytes :=
  if positionLimit ≤ offset then .error (.error (.file .badPosition))
  else if Bytes.limit ≤ size then .error .breach
  else if 0 < size ∧ file.length < offset + size then .error (.error (.file .endOfFile))
  else .ok (Bytes.slice file offset size)

/-- Open a file. The path is for messages. -/
def ofBytes (path : String) (codec : Codec) (keyFields : Nat) (file : Bytes) :
    Outcome Archive := do
  if file.length < Footer.size then throw (.error (.damage (.fileTooShort path)))
  let footerOffset := file.length - Footer.size
  let footer ← Footer.decode (file.drop footerOffset)
  if !footer.fits footerOffset then throw (.error (.damage (.footerOutside path)))
  let entries ← IndexEntry.decodeAll (Bytes.slice file footer.indexOffset footer.indexSize)
  let indexed ← Outcome.ofWord (entries.map IndexEntry.tuples).sum
  if indexed ≠ footer.tuples then
    throw (.error (.damage (.tupleCount path footer.tuples indexed)))
  return { codec, keyFields, size := file.length, footer, entries }

/-- The bloom filter. -/
def filter (a : Archive) (file : Bytes) : Outcome Bloom.Filter := do
  Bloom.Filter.decode (← readRange file a.footer.bloomOffset a.footer.bloomSize)

/-- The component of the file. -/
def component (a : Archive) (file : Bytes) (id : Nat) (name : String) : Outcome Component := do
  let filter ← a.filter file
  return {
    serial := id
    range := a.footer.range
    size := a.size
    contents := some ⟨name, filter, a.footer.tuples⟩ }

/-- The block of an entry of the block index. -/
def block (file : Bytes) (entry : IndexEntry) : Outcome Block := do
  let block ← Block.decode (← readRange file entry.offset entry.size)
  if block.length ≠ entry.tuples then
    throw (.error (.damage (.blockTuples entry.offset block.length entry.tuples)))
  return block

/-- The tuples of the blocks of a list of entries, in order. -/
def tuplesOf (codec : Codec) (file : Bytes) : List IndexEntry → Outcome (List Tuple)
  | [] => .ok []
  | entry :: rest => do
    let tuples ← (← block file entry).tuples codec
    return tuples ++ (← tuplesOf codec file rest)

/-- All tuples, in order. -/
def tuples (a : Archive) (file : Bytes) : Outcome (List Tuple) :=
  tuplesOf a.codec file a.entries

/-- Halve the stretch of `size` entries from `base` on until one is left: the last one whose key
is not above `key` where keys ascend, or the first of the stretch. -/
def narrow (entries : List IndexEntry) (key : Bytes) (base size : Nat) : Nat :=
  if size ≤ 1 then base
  else
    let half := size / 2
    match entries[base + half]? with
    | none => base
    | some entry =>
      let base := if compare entry.lastKey key = .gt then base else base + half
      narrow entries key base (size - half)
termination_by size

/-- The entry of the block a key is routed to. -/
def route? (a : Archive) (key : Bytes) : Option IndexEntry :=
  let base := narrow a.entries key 0 a.entries.length
  match a.entries[base]? with
  | none => none
  | some entry =>
    if compare entry.lastKey key = .lt then a.entries[base + 1]? else some entry

/-- Look for a key among the tuples of a block from `low` on and before `high`. -/
def search (codec : Codec) (keyFields : Nat) (block : Block) (key : Bytes) (low high : Nat) :
    Outcome (Option Tuple) :=
  if low < high then
    let mid := low + (high - low) / 2
    match block.offsets[mid]? with
    | none => .error .breach
    | some offset =>
      match codec.read block.data offset with
      | .error e => .error e
      | .ok tuple =>
        match compare (Tuple.keyBytes tuple keyFields) key with
        | .lt => search codec keyFields block key (mid + 1) high
        | .gt => search codec keyFields block key low mid
        | .eq => .ok (some tuple)
  else .ok none
termination_by high - low

/-- The tuple with these key bytes, if there is one. -/
def find? (a : Archive) (file : Bytes) (key : Bytes) : Outcome (Option Tuple) :=
  match a.route? key with
  | none => .ok none
  | some entry => do
    let block ← block file entry
    search a.codec a.keyFields block key 0 block.length

end Archive

end Strata
