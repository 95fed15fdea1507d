import MetricCapture.Cardinality.Registers
import MetricCapture.Message.Basic
import MetricCapture.Settings.Analysis
import MetricCapture.Sketch.Basic
import MetricCapture.Statistics.Tally
import MetricCapture.Text.Utf8
/-! Statistics of messages: counts, distributions of their attributes, and the number of
different contexts and tags. They take no more room however many messages there are. -/
namespace MetricCapture

open MetricCapture.Text

inductive Attribute where
  | nameLength
  | tagsPerMessage
  | valuesPerMessage
  | value
  | tagLength
  | unicodeTags
  deriving Repr, DecidableEq

def Attribute.all : List Attribute :=
  [.nameLength, .tagsPerMessage, .valuesPerMessage, .value, .tagLength, .unicodeTags]

theorem Attribute.mem_all (a : Attribute) : a ∈ all := by
  cases a <;> decide

structure Distributions where
  nameLength : Sketch
  tagsPerMessage : Sketch
  valuesPerMessage : Sketch
  value : Sketch
  tagLength : Sketch
  unicodeTags : Sketch

namespace Distributions

def uniform (s : Sketch) : Distributions := ⟨s, s, s, s, s, s⟩

def get (d : Distributions) : Attribute → Sketch
  | .nameLength => d.nameLength
  | .tagsPerMessage => d.tagsPerMessage
  | .valuesPerMessage => d.valuesPerMessage
  | .value => d.value
  | .tagLength => d.tagLength
  | .unicodeTags => d.unicodeTags

def set (d : Distributions) (a : Attribute) (s : Sketch) : Distributions :=
  match a with
  | .nameLength => { d with nameLength := s }
  | .tagsPerMessage => { d with tagsPerMessage := s }
  | .valuesPerMessage => { d with valuesPerMessage := s }
  | .value => { d with value := s }
  | .tagLength => { d with tagLength := s }
  | .unicodeTags => { d with unicodeTags := s }

theorem get_set (d : Distributions) (a b : Attribute) (s : Sketch) :
    (d.set a s).get b = if b = a then s else d.get b := by
  cases a <;> cases b <;> rfl

end Distributions

structure Statistics where
  total : Nat := 0
  valid : Nat := 0
  failed : Nat := 0
  byKind : Tally Kind := Tally.zero Kind.all
  byReason : Tally Reason := Tally.zero Reason.counted
  distributions : Distributions
  /-- Messages with more than one value. -/
  multivalue : Nat := 0
  /-- Values with a fractional part. -/
  fractional : Nat := 0
  /-- Messages with a rate below one. -/
  sampled : Nat := 0
  contexts : Registers
  tags : Registers

namespace Statistics

inductive Failure where
  | sketch (f : Sketch.Failure)
  | emptyLine
  | precisionMismatch
  /-- No register is empty where the estimate needs one. -/
  | noEmptyRegister
  /-- The registers estimate no fewer byte strings than there are hashes. -/
  | beyondHashes

def Failure.message : Failure → String
  | .sketch f => f.message
  | .emptyLine => "empty lines are not messages and must not be observed"
  | .precisionMismatch =>
    "Cannot merge HyperLogLog with different" ++ String.ofList (List.replicate 20 ' ') ++
      "precisions."
  | .noEmptyRegister => "float division by zero"
  | .beyondHashes => "cannot convert float NaN to integer"

def create (cfg : Settings.Analysis) : Except Failure Statistics := do
  let s ← (Sketch.create cfg.accuracy cfg.binLimit).mapError .sketch
  pure
    { distributions := Distributions.uniform s
      contexts := Registers.create cfg.precision
      tags := Registers.create cfg.precision }

abbrev Change := Statistics → Outcome Failure Statistics

def always (change : Statistics → Statistics) : Change :=
  fun s => ⟨change s, none⟩

def record (a : Attribute) (x : Float) : Change := fun s =>
  Outcome.ofExcept s <|
    ((s.distributions.get a).add x).mapError .sketch |>.map fun sketch =>
      { s with distributions := s.distributions.set a sketch }

def recordCount (a : Attribute) (n : Nat) : Change :=
  record a (Float.ofNat n)

def recordValue (x : Float) : List Change :=
  [record .value x,
    always fun s => if Number.isIntegral x then s else { s with fractional := s.fractional + 1 }]

/-- What a context is known by: the name and the different tags in order, a line each. -/
def contextKey (m : Message) : Bytes :=
  let tags := m.tags.eraseDups.mergeSort fun a b => !(b < a)
  Utf8.ofString ("\n".intercalate (m.name :: tags))

def recordMetric (m : Message) : List Change :=
  m.values.flatMap recordValue ++
    [always fun s => { s with contexts := s.contexts.observe (contextKey m) },
      always fun s =>
        { s with tags := m.tags.foldl (fun r tag => r.observe (Utf8.ofString tag)) s.tags }]

def beyondAscii (text : String) : Bool :=
  text.toList.any fun c => 128 ≤ c.toNat

def messageChanges (m : Message) : List Change :=
  [always fun s =>
      { s with total := s.total + 1, valid := s.valid + 1, byKind := s.byKind.bump m.kind },
    recordCount .nameLength m.name.utf8ByteSize,
    recordCount .tagsPerMessage m.tags.length,
    recordCount .valuesPerMessage m.values.length,
    always fun s =>
      { s with
        multivalue := if 1 < m.values.length then s.multivalue + 1 else s.multivalue
        sampled := if m.rate.any (· < 1.0) then s.sampled + 1 else s.sampled }] ++
    (if m.kind.isMetric then recordMetric m else []) ++
    m.tags.map (fun tag => recordCount .tagLength tag.utf8ByteSize) ++
    [recordCount .unicodeTags (m.tags.countP beyondAscii)]

/-- Counts a line that is no message. An empty line may not be counted. -/
def observeFailure (reason : Reason) : Change := fun s =>
  if reason = .emptyLine then ⟨s, some .emptyLine⟩
  else
    ⟨{ s with total := s.total + 1, failed := s.failed + 1, byReason := s.byReason.bump reason },
      none⟩

/-- Takes in one reading. A step that breaks off leaves the steps before it done. -/
def observe (s : Statistics) (r : Reading) : Outcome Failure Statistics :=
  match r with
  | .failure f => observeFailure f.reason s
  | .message m => Outcome.sequence s (messageChanges m)

def mergeRegisters (get : Statistics → Registers) (put : Statistics → Registers → Statistics)
    (other : Registers) : Change := fun s =>
  match (get s).merge other with
  | some r => ⟨put s r, none⟩
  | none => ⟨s, some .precisionMismatch⟩

def mergeAttribute (other : Distributions) (a : Attribute) : Change := fun s =>
  Outcome.ofExcept s <|
    ((s.distributions.get a).merge (other.get a)).mapError .sketch |>.map fun sketch =>
      { s with distributions := s.distributions.set a sketch }

def mergeChanges (other : Statistics) : List Change :=
  [always fun s =>
      { s with
        total := s.total + other.total
        valid := s.valid + other.valid
        failed := s.failed + other.failed
        byKind := s.byKind.merge other.byKind
        byReason := s.byReason.merge other.byReason }] ++
    Attribute.all.map (mergeAttribute other.distributions) ++
    [always fun s =>
        { s with
          multivalue := s.multivalue + other.multivalue
          fractional := s.fractional + other.fractional
          sampled := s.sampled + other.sampled },
      mergeRegisters (·.contexts) (fun s r => { s with contexts := r }) other.contexts,
      mergeRegisters (·.tags) (fun s r => { s with tags := r }) other.tags]

def merge (s other : Statistics) : Outcome Failure Statistics :=
  Outcome.sequence s (mergeChanges other)

end Statistics
end MetricCapture
