import MetricCapture.Packet.Capture
/-! Captures in blocks: a section header, an interface, and the packets seen on it. A block gives
its length in front and once more at its end. -/
namespace MetricCapture.Packet
open MetricCapture.Text

structure Block where
  kind : Nat
  length : Nat
  bytes : Bytes

/-- Reads `length` bytes behind the `done` ones of a block. A length that counts fewer than
those takes all that is left. -/
def readBody (length done : Nat) (s : Source) : Except StreamError (Bytes × Source) :=
  if length < done then
    match s.readAll with
    | .error _ => .error .corrupt
    | .ok bs => .ok (bs, ⟨[], .complete⟩)
  else
    match s.read (length - done) with
    | .error _ => .error .corrupt
    | .ok r => .ok r

def readBlock (big : Bool) (s : Source) : Except StreamError (Option (Block × Source)) :=
  match s.read 8 with
  | .error _ => .error .corrupt
  | .ok (header, rest) =>
    if header.length < 8 then .ok none
    else
      let length := Bytes.numberAt big 4 4 header
      match readBody length 8 rest with
      | .error e => .error e
      | .ok (body, rest') =>
        .ok (some (⟨Bytes.numberAt big 0 4 header, length, header ++ body⟩, rest'))

theorem length_readBody_le {length done : Nat} {s r : Source} {bs : Bytes}
    (h : readBody length done s = .ok (bs, r)) : r.bytes.length ≤ s.bytes.length := by
  unfold readBody at h
  split at h
  · split at h
    · cases h
    · cases h
      simp
  · split at h
    · cases h
    · rename_i h'
      cases h
      have := Source.length_read_le h'
      omega

theorem length_readBlock_lt {big : Bool} {s r : Source} {b : Block}
    (h : readBlock big s = .ok (some (b, r))) : r.bytes.length < s.bytes.length := by
  unfold readBlock at h
  split at h
  · cases h
  · rename_i h1
    split at h
    · cases h
    · dsimp only at h
      split at h
      · cases h
      · rename_i h2
        cases h
        have := Source.length_read_le h1
        have := length_readBody_le h2
        omega

structure BlockOption where
  code : Nat
  value : Bytes

def aligned (n : Nat) : Nat :=
  (n + 3) / 4 * 4

/-- Reads options up to the one that ends them. A comment has to be text as far as its first
zero byte. -/
def readOptions (big : Bool) (done : List BlockOption) (bs : Bytes) :
    Except StreamError (List BlockOption) :=
  if _h : bs = [] then .ok done.reverse
  else if bs.length < 4 then .error (.packet .shortHeader)
  else
    let code := Bytes.numberAt big 0 2 bs
    let value := Bytes.slice 4 (Bytes.numberAt big 2 2 bs) bs
    let comment := if code = 1 then value.takeWhile (· != 0) else []
    match Utf8.decode comment with
    | .error f => .error (.text f)
    | .ok _ =>
      if code = 0 then .ok (⟨code, value⟩ :: done).reverse
      else readOptions big (⟨code, value⟩ :: done) (bs.drop (4 + aligned value.length))
termination_by bs.length
decreasing_by
  have := List.length_pos_iff.2 _h
  simp only [List.length_drop]
  omega

/-- The bytes from an offset on up to the last four of the claimed length. A claim of less than
four counts from the end of the block. -/
def Block.optionBytes (b : Block) (offset : Nat) : Bytes :=
  let stop := if 4 ≤ b.length then b.length - 4 else b.bytes.length + b.length - 4
  (b.bytes.take stop).drop offset

def Block.checkRoom (b : Block) (fields : Nat) : Except StreamError Unit :=
  if b.bytes.length < fields || b.bytes.length < b.length then .error (.packet .shortHeader)
  else .ok ()

/-- The options of a block from an offset on. Behind them the length has to be given again. -/
def Block.options (big : Bool) (b : Block) (offset : Nat) :
    Except StreamError (List BlockOption) := do
  let options ← readOptions big [] (b.optionBytes offset)
  if Bytes.number big (b.bytes.drop (b.bytes.length - 4)) = b.length then pure options
  else .error (.packet .badBlock)

def readSection (s : Source) : Except StreamError (Bool × Source) :=
  match s.read 28 with
  | .error _ => .error .corrupt
  | .ok (header, rest) =>
    let refuse (f : CaptureFault) : Except StreamError (Bool × Source) :=
      .error (.packet (.badStart f))
    if header.length < 28 then refuse .shortSection
    else if header.take 4 ≠ [0x0A, 0x0D, 0x0D, 0x0A] then refuse .sectionType
    else
      let order := Bytes.slice 8 4 header
      let big : Bool := order = [0x1A, 0x2B, 0x3C, 0x4D]
      if !big && order ≠ [0x4D, 0x3C, 0x2B, 0x1A] then refuse .byteOrder
      else do
        let length := Bytes.numberAt big 4 4 header
        let (body, rest') ← readBody length 28 rest
        let block : Block := ⟨Bytes.numberAt big 0 4 header, length, header ++ body⟩
        block.checkRoom 28
        let _ ← block.options big 24
        let major := Bytes.numberAt big 12 2 header
        if major = 1 then pure (big, rest')
        else refuse (.version major (Bytes.numberAt big 14 2 header))

/-- Whether an option's value has the size its code asks for: one byte for the unit of time,
eight for an offset. -/
def BlockOption.fits (o : BlockOption) : Bool :=
  match o.code with
  | 9 => o.value.length == 1
  | 14 => o.value.length == 8
  | _ => true

def Block.linkType (big : Bool) (b : Block) : Except StreamError Nat := do
  b.checkRoom 20
  let options ← b.options big 16
  if options.all BlockOption.fits then pure (Bytes.numberAt big 8 2 b.bytes)
  else .error (.packet .badOption)

def readInterface (big : Bool) (s : Source) : Except StreamError (Nat × Source) :=
  match _h : readBlock big s with
  | .error e => .error e
  | .ok none => .error (.packet (.badStart .noInterface))
  | .ok (some (b, rest)) =>
    if b.kind = 1 then (b.linkType big).map (·, rest) else readInterface big rest
termination_by s.bytes.length
decreasing_by exact length_readBlock_lt _h

def Block.frame (big : Bool) (b : Block) : Except StreamError Bytes := do
  b.checkRoom 32
  let captured := Bytes.numberAt big 20 4 b.bytes
  let _ ← b.options big (28 + aligned captured)
  pure (Bytes.slice 28 captured b.bytes)

/-- Reads on by one block. Blocks of other kinds are passed over. -/
def readPacket (big : Bool) (s : Source) : Step :=
  match readBlock big s with
  | .error e => .stop (some e)
  | .ok none => .stop none
  | .ok (some (b, rest)) =>
    if b.kind = 6 || b.kind = 2 then
      match b.frame big with
      | .error e => .stop (some e)
      | .ok frame => .next (some frame) rest
    else .next none rest

theorem readPacket_shrinks (big : Bool) : Shrinks (readPacket big) := by
  intro s r f e
  unfold readPacket at e
  split at e
  · cases e
  · cases e
  · rename_i h
    have := length_readBlock_lt h
    split at e
    · split at e
      · cases e
      · cases e
        exact this
    · cases e
      exact this

def Capture.ofBlocks (s : Source) : Except StreamError Capture := do
  let (big, s1) ← readSection s
  let (linkType, s2) ← readInterface big s1
  pure ⟨linkType, collect (readPacket big) (readPacket_shrinks big) [] s2⟩

end MetricCapture.Packet
