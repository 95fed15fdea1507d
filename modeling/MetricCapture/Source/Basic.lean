import MetricCapture.Bytes.Order
/-! Byte sources: what a stream still has to give, and how it ends. -/
namespace MetricCapture

/-- How a stream ends. Plain bytes simply run out. A compressed stream may have been cut off or
be corrupt. -/
inductive Ending where
  | complete
  /-- The stream is cut off right behind bytes of a block that have been decompressed. A read that
  stops with at most this many of them to come loses them. -/
  | cut (window : Nat)
  /-- What follows the bytes is corrupt. Inside a frame the next block is looked at as soon as
  the bytes before it have been read; a further frame only by a read that asks for more. -/
  | corrupt (inFrame : Bool)
  deriving Repr, DecidableEq

structure Source where
  bytes : Bytes
  ending : Ending := .complete

namespace Source

structure Corrupt where
  deriving Repr, DecidableEq

def ofBytes (bs : Bytes) : Source := ⟨bs, .complete⟩

def advance (s : Source) (n : Nat) : Source :=
  let rest := s.bytes.drop n
  match s.ending with
  | .cut window => if (rest.drop window).isEmpty then ⟨[], .complete⟩ else ⟨rest, s.ending⟩
  | _ => ⟨rest, s.ending⟩

def fails (s : Source) (n : Nat) : Bool :=
  match s.ending with
  | .corrupt inFrame =>
    if inFrame then (s.bytes.drop n).isEmpty else (s.bytes.take n).length < n
  | _ => false

/-- Takes up to `n` bytes, fewer only when no more are left. A read that fails gives nothing. -/
def read (s : Source) (n : Nat) : Except Corrupt (Bytes × Source) :=
  if n = 0 then .ok ([], s)
  else if s.fails n then .error ⟨⟩
  else .ok (s.bytes.take n, s.advance n)

def peek (s : Source) (n : Nat) : Except Corrupt (Bytes × Source) := do
  let (head, rest) ← s.read n
  pure (head, { rest with bytes := head ++ rest.bytes })

theorem length_advance_le (s : Source) (n : Nat) :
    (s.advance n).bytes.length ≤ s.bytes.length - n := by
  unfold advance
  split
  · dsimp only
    split <;> simp
  · simp

theorem length_read_le {s r : Source} {n : Nat} {p : Bytes} (h : s.read n = .ok (p, r)) :
    r.bytes.length + p.length ≤ s.bytes.length := by
  unfold read at h
  split at h
  · cases h
    simp
  · split at h
    · cases h
    · cases h
      have := length_advance_le s n
      simp only [List.length_take]
      omega

def wholeStep : Nat := 0x100000

def readAll (s : Source) : Except Corrupt Bytes :=
  match _h : s.read wholeStep with
  | .error e => .error e
  | .ok (piece, rest) =>
    if _hp : piece = [] then .ok []
    else rest.readAll.map (piece ++ ·)
termination_by s.bytes.length
decreasing_by
  have := length_read_le _h
  have := List.length_pos_iff.mpr _hp
  omega

end Source
end MetricCapture
