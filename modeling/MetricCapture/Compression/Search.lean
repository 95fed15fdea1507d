import MetricCapture.Compression.Bits
/-! The search for copies: which parts of some content have come before in it. -/
namespace MetricCapture.Compression

/-- A sequence as it is written. Its number stands for an offset: one is the offset last used,
and an offset of its own is three less than its number. -/
structure NumberedSequence where
  literals : Nat
  copied : Nat
  number : Nat

/-- How content is searched: how far back copies may come from, the sizes of the two tables of
places, and how many bytes choose the place in the second one. -/
structure SearchPlan where
  windowLog : Nat
  longLog : Nat
  shortLog : Nat
  shortWidth : Nat

def SearchPlan.ofSize (size : Nat) : SearchPlan :=
  let (window, short, long, width) :=
    if size ≤ 16 * 1024 then (14, 14, 15, 4)
    else if size ≤ 128 * 1024 then (17, 15, 16, 5)
    else if size ≤ 256 * 1024 then (18, 16, 16, 4)
    else (21, 16, 17, 5)
  let fitting := min window (max 6 (Nat.log2 (size - 1) + 1))
  ⟨max 10 fitting, min long (fitting + 1), min short fitting, width⟩

/-- Where eight bytes, and where fewer bytes have last been seen. Zero is nowhere. -/
structure Places where
  long : Array Nat
  short : Array Nat

/-- A search of the bytes of a block, which ends at `stop`. Copies come from behind `lowest`. -/
structure Search where
  plan : SearchPlan
  data : Array UInt8
  stop : Nat
  lowest : Nat

namespace Search

def longPlace (s : Search) (i : Nat) : Nat :=
  ((wordAt s.data i 8 * 0xCF1BBCDCB7A56463) >>> UInt64.ofNat (64 - s.plan.longLog)).toNat

def shortPlace (s : Search) (i : Nat) : Nat :=
  if s.plan.shortWidth = 5 then
    (((wordAt s.data i 5 <<< 24) * 889523592379) >>> UInt64.ofNat (64 - s.plan.shortLog)).toNat
  else
    (((wordAt s.data i 4).toUInt32 * 2654435761) >>> UInt32.ofNat (32 - s.plan.shortLog)).toNat

def noteLong (s : Search) (i : Nat) (p : Places) : Places :=
  { p with long := p.long.setIfInBounds (s.longPlace i) i }

def noteShort (s : Search) (i : Nat) (p : Places) : Places :=
  { p with short := p.short.setIfInBounds (s.shortPlace i) i }

def note (s : Search) (i : Nat) (p : Places) : Places := s.noteShort i (s.noteLong i p)

def agreeUntil (s : Search) (offset i : Nat) : Nat :=
  if _h : i < s.stop ∧ s.data.getD i 0 = s.data.getD (i - offset) 0 then
    agreeUntil s offset (i + 1)
  else i
termination_by s.stop - i
decreasing_by omega

def lengthAt (s : Search) (offset i : Nat) : Nat := s.agreeUntil offset i - i

def agrees (s : Search) (count offset i : Nat) : Bool :=
  wordAt s.data i count == wordAt s.data (i - offset) count

def noteNext (s : Search) (stride next : Nat) (p : Places) : Places :=
  if stride < 3 then s.noteLong next p else p

structure Copy where
  start : Nat
  length : Nat
  offset : Nat

/-- Lets a copy start earlier, as far as the bytes in front agree and no literals but those
behind `anchor` are used up. -/
def growBack (s : Search) (anchor offset : Nat) : Nat → Nat → Copy
  | 0, length => ⟨0, length, offset⟩
  | start + 1, length =>
    if anchor ≤ start && s.lowest < start + 1 - offset &&
        s.data.getD start 0 == s.data.getD (start - offset) 0 then
      growBack s anchor offset start (length + 1)
    else ⟨start + 1, length, offset⟩

inductive Outcome where
  | nothing
  /-- A copy from the offset last used. -/
  | again (seen : Nat) (copy : Copy)
  | fresh (seen : Nat) (copy : Copy)

def preferNext (s : Search) (anchor offset i next candidate : Nat) : Copy :=
  let length := s.lengthAt offset i
  let other := next - candidate
  if s.lowest < candidate && s.agrees 8 other next && length < s.lengthAt other next then
    s.growBack anchor other next (s.lengthAt other next)
  else s.growBack anchor offset i length

/-- Looks for a copy from position `i` on; `next` is the position behind it. After long looking,
the steps grow: by one at each `mark`. -/
def look (s : Search) (anchor recent i next stride mark : Nat) (p : Places) : Outcome × Places :=
  if _h : next + 8 ≤ s.stop then
    let far := p.long.getD (s.longPlace i) 0
    let near := p.short.getD (s.shortPlace i) 0
    let p1 := s.note i p
    if 0 < recent && s.agrees 4 recent (i + 1) then
      (.again i ⟨i + 1, s.lengthAt recent (i + 1), recent⟩, p1)
    else if s.lowest < far && s.agrees 8 (i - far) i then
      (.fresh i (s.growBack anchor (i - far) i (s.lengthAt (i - far) i)),
        s.noteNext stride next p1)
    else if s.lowest < near && s.agrees 4 (i - near) i then
      (.fresh i (s.preferNext anchor (i - near) i next (p1.long.getD (s.longPlace next) 0)),
        s.noteNext stride next p1)
    else
      let (stride', mark') := if mark ≤ next then (stride + 1, mark + 256) else (stride, mark)
      look s anchor recent next (next + stride' + 1) stride' mark' p1
  else (.nothing, p)
termination_by s.stop - next
decreasing_by omega

structure Progress where
  places : Places
  /-- The two offsets last used; zero is none. -/
  first : Nat
  second : Nat
  /-- Where the literals begin that no sequence holds yet. -/
  anchor : Nat
  /-- The sequences found, the last of them first. -/
  found : List NumberedSequence

def follow (s : Search) : Nat → Progress → Progress
  | 0, g => g
  | fuel + 1, g =>
    let i := g.anchor
    if i + 8 ≤ s.stop && 0 < g.second && s.agrees 4 g.second i then
      let length := s.lengthAt g.second i
      follow s fuel
        { places := s.note i g.places
          first := g.second
          second := g.first
          anchor := i + length
          found := ⟨0, length, 1⟩ :: g.found }
    else g

def take (s : Search) (seen number : Nat) (c : Copy) (g : Progress) : Progress :=
  let behind := c.start + c.length
  let g' := { g with
    anchor := behind, found := ⟨c.start - g.anchor, c.length, number⟩ :: g.found }
  if behind + 8 ≤ s.stop then
    let places := s.noteShort (behind - 1) (s.noteShort (seen + 2)
      (s.noteLong (behind - 2) (s.noteLong (seen + 2) g.places)))
    s.follow s.stop { g' with places }
  else g'

def run (s : Search) : Nat → Nat → Progress → Progress
  | 0, _, g => g
  | fuel + 1, i, g =>
    match s.look g.anchor g.first i (i + 1) 0 (i + 256) g.places with
    | (.nothing, places) => { g with places }
    | (.again seen c, places) =>
      let g' := s.take seen 1 c { g with places }
      run s fuel g'.anchor g'
    | (.fresh seen c, places) =>
      let g' := s.take seen (c.offset + 3) c
        { g with places, first := c.offset, second := g.first }
      run s fuel g'.anchor g'

end Search

/-- What a search hands on from block to block: the places, and the last two offsets. -/
structure SearchState where
  places : Places
  first : Nat := 1
  second : Nat := 4

def SearchState.start (plan : SearchPlan) : SearchState where
  places := ⟨Array.replicate (2 ^ plan.longLog) 0, Array.replicate (2 ^ plan.shortLog) 0⟩

/-- The sequences of the block from `start` to `stop`, and the state behind it. Offsets that
reach too far back are set aside for the time being. -/
def searchBlock (plan : SearchPlan) (data : Array UInt8) (start stop : Nat) (s : SearchState) :
    List NumberedSequence × SearchState :=
  let reach := 2 ^ plan.windowLog
  let lowest := stop - reach
  let origin := if start = lowest then start + 1 else start
  let most := min origin reach
  let usable (offset : Nat) := if offset ≤ most then offset else 0
  let search : Search := ⟨plan, data, stop, lowest⟩
  let g := search.run (stop + 1 - start) origin
    ⟨s.places, usable s.first, usable s.second, start, []⟩
  let firstAside := if s.first ≤ most then 0 else s.first
  let secondAside :=
    if firstAside ≠ 0 && g.first ≠ 0 then firstAside
    else if s.second ≤ most then 0 else s.second
  (g.found.reverse,
    { places := g.places
      first := if g.first = 0 then firstAside else g.first
      second := if g.second = 0 then secondAside else g.second })

end MetricCapture.Compression
