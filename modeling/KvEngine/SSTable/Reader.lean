/-
  KvEngine.SSTable.Reader
  ───────────────────────
  `SSTableReader`: the footer check of `LoadFile`, and `GetFromBlock`.

  `GetFromBlock` reads at offsets it takes from the block; a read outside
  the block has no defined result and is `none`.
-/
import KvEngine.SSTable.Format

namespace KvEngine

structure SSTableReaderOptions where
  comparator : Option Comparator := none

namespace SSTableReader

/-! ## §1. Opening a file. -/

/-- `LoadFile` up to the blocks: the footer of the file, if it passes the
checks of size, magic number and checksum. -/
def loadFooter (fname : String) (file : Option Bytes) : Except Status SSTableFooter :=
  match file with
  | none => .error (.ioError ("Failed to open file: " ++ fname))
  | some content =>
      if content.length < SSTableFooter.kEncodedSize then .error (.corruption "File too small")
      else
        let footerData := content.drop (content.length - SSTableFooter.kEncodedSize)
        match SSTableFooter.decode footerData with
        | .error s => .error s
        | .ok footer =>
            if computeCRC32 (footerData.take (footerData.length - 4)) ≠ footer.crc32 then
              .error (.corruption "Footer CRC mismatch")
            else .ok footer

/-! ## §2. Looking up a key in a data block. -/

/-- What `GetFromBlock` stores through its output parameters. -/
structure Found where
  value : Bytes
  seq : UInt64
  deleted : Bool
  deriving DecidableEq, Repr

/-- `seekg(handle.offset)` and `read`: what the file does not have stays zero. -/
def readBlock (content : Bytes) (handle : BlockHandle) : Bytes :=
  let bytes := (content.drop handle.offset.toNat).take handle.size.toNat
  bytes ++ List.replicate (handle.size.toNat - bytes.length) 0

/-- The search over the restart points, which goes right every time. -/
def restartSearch : Nat → Nat → Nat → Nat
  | 0, left, _ => left
  | rounds + 1, left, right =>
      if left < right then restartSearch rounds ((left + right) / 2 + 1) right else left

/-- The loop over the entries from `pos` on; every round moves `pos` by 17
bytes or more, so `rounds` is the size of the block. -/
def entryLoop (options : SSTableReaderOptions) (data : Bytes) (searchEnd : Nat) (key : Bytes) :
    Nat → Nat → Bytes → Option (Status × Option Found)
  | 0, _, _ => some (.notFound "Key not found in block", none)
  | rounds + 1, pos, lastKey =>
      if pos < searchEnd ∧ pos + 12 ≤ data.length then do
        let shared ← load32 data pos
        let unshared ← load32 data (pos + 4)
        let valueLen ← load32 data (pos + 8)
        let seq ← load32 data (pos + 12)
        let deleted ← data[pos + 16]?
        let pos := pos + 17
        if pos + shared.toNat + unshared.toNat + valueLen.toNat > data.length then
          some (.notFound "Key not found in block", none)
        else
          let curKey := lastKey.take shared.toNat ++ (data.drop pos).take unshared.toNat
          let pos := pos + unshared.toNat
          let keyCmp := compareKeys options.comparator curKey key
          if keyCmp = 0 then
            some (.okStatus, some ⟨(data.drop pos).take valueLen.toNat, seq.toUInt64, deleted != 0⟩)
          else if keyCmp > 0 then some (.notFound "Key not found in block", none)
          else entryLoop options data searchEnd key rounds (pos + valueLen.toNat) curKey
      else some (.notFound "Key not found in block", none)

/-- `GetFromBlock` once the block is read. -/
def searchBlock (options : SSTableReaderOptions) (data key : Bytes) :
    Option (Status × Option Found) := do
  let size := data.length
  if size < 4 then some (.notFound "Empty block", none)
  else
    let numRestarts ← load32 data (size - 4)
    if numRestarts = 0 ∨ numRestarts.toNat > size / 4 then
      some (.corruption "Invalid restart count", none)
    else
      -- the product is taken in 32 bits, and may reach before the block
      let restartSize := (numRestarts * 4).toNat
      if size < 4 + restartSize then none
      else
        let restarts := size - 4 - restartSize
        let left := restartSearch numRestarts.toNat 0 numRestarts.toNat
        let restart (i : Nat) : Option UInt32 :=
          if 4 * i + 4 ≤ restartSize then load32 data (restarts + 4 * i)
          else if i < numRestarts.toNat then some 0 else none
        let searchStart ← if left > 0 then restart (left - 1) else some 0
        let searchEnd ←
          if left < numRestarts.toNat then (restart left).map UInt32.toNat else some restarts
        entryLoop options data searchEnd key size searchStart.toNat []

end SSTableReader

end KvEngine
