/-!
The BLAKE3 digest of a row of bytes: chunks of 1024 bytes are compressed block by block, and their
chaining values are joined pairwise in the tree whose left part is the greatest power of two.
-/

set_option autoImplicit false

namespace EntityStore

namespace Digest

abbrev Chaining := Vector UInt32 8

abbrev Block := Vector UInt32 16

def initial : Chaining :=
  #v[0x6A09E667, 0xBB67AE85, 0x3C6EF372, 0xA54FF53A, 0x510E527F, 0x9B05688C, 0x1F83D9AB, 0x5BE0CD19]

/-- Where each word of a message goes for the next round. -/
def order : Vector (Fin 16) 16 :=
  #v[2, 6, 3, 10, 7, 0, 4, 13, 1, 11, 12, 5, 9, 14, 15, 8]

def chunkStart : UInt32 := 1
def chunkEnd : UInt32 := 2
def parentFlag : UInt32 := 4
def rootFlag : UInt32 := 8

def rotateRight (w : UInt32) (n : UInt32) : UInt32 :=
  (w >>> n) ||| (w <<< (32 - n))

def mix (v : Block) (a b c d : Fin 16) (x y : UInt32) : Block :=
  let v := v.set a (v[a] + v[b] + x)
  let v := v.set d (rotateRight (v[d] ^^^ v[a]) 16)
  let v := v.set c (v[c] + v[d])
  let v := v.set b (rotateRight (v[b] ^^^ v[c]) 12)
  let v := v.set a (v[a] + v[b] + y)
  let v := v.set d (rotateRight (v[d] ^^^ v[a]) 8)
  let v := v.set c (v[c] + v[d])
  v.set b (rotateRight (v[b] ^^^ v[c]) 7)

/-- Mixes the columns, then the diagonals. -/
def round (v m : Block) : Block :=
  let v := mix v 0 4 8 12 m[0] m[1]
  let v := mix v 1 5 9 13 m[2] m[3]
  let v := mix v 2 6 10 14 m[4] m[5]
  let v := mix v 3 7 11 15 m[6] m[7]
  let v := mix v 0 5 10 15 m[8] m[9]
  let v := mix v 1 6 11 12 m[10] m[11]
  let v := mix v 2 7 8 13 m[12] m[13]
  mix v 3 4 9 14 m[14] m[15]

def rounds : Nat → Block → Block → Block
  | 0, v, _ => v
  | n + 1, v, m => rounds n (round v m) (order.map fun i ↦ m[i])

/-- What one compression works on. -/
structure Input where
  chaining : Chaining
  block : Block
  counter : UInt64
  length : UInt32
  flags : UInt32

def compress (i : Input) : Chaining :=
  let h := i.chaining
  let v : Block := #v[h[0], h[1], h[2], h[3], h[4], h[5], h[6], h[7],
    initial[0], initial[1], initial[2], initial[3],
    i.counter.toUInt32, (i.counter >>> 32).toUInt32, i.length, i.flags]
  let v := rounds 7 v i.block
  Vector.ofFn fun (j : Fin 8) ↦ v[j.val] ^^^ v[j.val + 8]

/-- The word at place `j` of a row of bytes, least byte first; bytes beyond the end are zero. -/
def wordAt (bytes : Array UInt8) (j : Nat) : UInt32 :=
  let byte (k : Nat) : UInt32 := (bytes.getD (4 * j + k) 0).toUInt32
  byte 0 ||| (byte 1 <<< 8) ||| (byte 2 <<< 16) ||| (byte 3 <<< 24)

def blockOf (bytes : Array UInt8) : Block :=
  Vector.ofFn fun (j : Fin 16) ↦ wordAt bytes j

/-- Cuts a row of bytes into pieces of a given size, at least one; `count` bounds their number. -/
def pieces (size : Nat) (bytes : Array UInt8) (count : Nat) : List (Array UInt8) :=
  (List.range count).map fun i ↦ bytes.extract (i * size) ((i + 1) * size)

def piecesOf (size : Nat) (bytes : Array UInt8) : List (Array UInt8) :=
  pieces size bytes (max 1 ((bytes.size + size - 1) / size))

/-- The last compression of a chunk, all earlier blocks done. -/
def chunkInput (index : Nat) (bytes : Array UInt8) : Input :=
  let blocks := piecesOf 64 bytes
  let last := blocks.length - 1
  let input (chaining : Chaining) (j : Nat) (block : Array UInt8) : Input :=
    { chaining, block := blockOf block, counter := index.toUInt64, length := block.size.toUInt32,
      flags := (if j = 0 then chunkStart else 0) ||| (if j = last then chunkEnd else 0) }
  let chaining :=
    (blocks.take last).zipIdx.foldl (fun h (block, j) ↦ compress (input h j block)) initial
  input chaining last (blocks.getLastD #[])

def parentInput (left right : Chaining) : Input :=
  { chaining := initial, block := left ++ right, counter := 0, length := 64, flags := parentFlag }

/-- Joins chaining values pairwise, an odd one at the end going up as it is. -/
def joinPairs : List Chaining → List Chaining
  | left :: right :: more => compress (parentInput left right) :: joinPairs more
  | rest => rest

/-- The last compression of the tree over the chunks' chaining values. -/
def treeInput : Nat → List Chaining → Input
  | _, [left, right] => parentInput left right
  | 0, hs => parentInput (hs.headD initial) initial
  | n + 1, hs => treeInput n (joinPairs hs)

def rootInput (bytes : Array UInt8) : Input :=
  match piecesOf 1024 bytes with
  | [chunk] => chunkInput 0 chunk
  | chunks =>
    treeInput chunks.length (chunks.zipIdx.map fun (chunk, i) ↦ compress (chunkInput i chunk))

def hexDigit (n : UInt8) : Char :=
  if n < 10 then Char.ofNat ('0'.toNat + n.toNat) else Char.ofNat ('a'.toNat + n.toNat - 10)

def hexByte (b : UInt8) : List Char :=
  [hexDigit (b >>> 4), hexDigit (b &&& 15)]

def hexWord (w : UInt32) : List Char :=
  [(0 : UInt32), 8, 16, 24].flatMap fun shift ↦ hexByte (w >>> shift).toUInt8

/-- The 32 bytes of the digest in hexadecimal digits. -/
def hex (bytes : ByteArray) : String :=
  let root := rootInput bytes.data
  String.ofList ((compress { root with flags := root.flags ||| rootFlag }).toList.flatMap hexWord)

end Digest

end EntityStore
