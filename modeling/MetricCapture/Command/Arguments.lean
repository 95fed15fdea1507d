/-! Command lines: options by any unambiguous beginning of their name, values behind them or
attached with an equals sign, and at most one argument that is no option. -/
namespace MetricCapture.Command

structure OptionSpec (κ : Type) where
  key : κ
  spellings : List String
  takesValue : Bool := false
  /-- Whether the arguments behind it are not looked at. -/
  ends : Bool := false

inductive Refusal where
  | ambiguous (text : String)
  | missingValue (text : String)
  | unexpectedValue (text : String)
  | unrecognized (text : String)
  | badValue (text : String)
  deriving Repr, DecidableEq

def Refusal.message : Refusal → String
  | .ambiguous text => "ambiguous option: " ++ text
  | .missingValue text => "expected one argument behind " ++ text
  | .unexpectedValue text => "no argument expected with " ++ text
  | .unrecognized text => "unrecognized argument: " ++ text
  | .badValue text => "invalid value: " ++ text

inductive Token (κ : Type) where
  | plain
  /-- Two dashes alone. Behind them nothing is an option. -/
  | separator
  | option (spec : OptionSpec κ) (attached : Option String)
  | unknown

variable {κ : Type}

def spelled (specs : List (OptionSpec κ)) (text : String) : Option (OptionSpec κ) :=
  specs.find? fun s => s.spellings.contains text

def beginning (specs : List (OptionSpec κ)) (text : String) : List (OptionSpec κ) :=
  specs.flatMap fun s =>
    (s.spellings.filter fun name => text.toList.isPrefixOf name.toList).map fun _ => s

def isNegativeNumber (cs : List Char) : Bool :=
  match cs with
  | '-' :: rest =>
    let whole := rest.takeWhile Char.isDigit
    match rest.dropWhile Char.isDigit with
    | [] => !whole.isEmpty
    | '.' :: fraction => !fraction.isEmpty && fraction.all Char.isDigit
    | _ => false
  | _ => false

def classifyOther (specs : List (OptionSpec κ)) (text : String) : Except Refusal (Token κ) :=
  let cs := text.toList
  let stem := String.ofList (cs.takeWhile (· != '='))
  let attached :=
    match cs.dropWhile (· != '=') with
    | [] => none
    | _ :: value => some (String.ofList value)
  match attached.bind fun _ => spelled specs stem with
  | some spec => .ok (.option spec attached)
  | none =>
    let candidates :=
      if "--".toList.isPrefixOf cs then (beginning specs stem).map fun s => (s, attached)
      else
        match spelled specs (String.ofList (cs.take 2)) with
        | some s => [(s, some (String.ofList (cs.drop 2)))]
        | none => []
    match candidates with
    | [(spec, value)] => .ok (.option spec value)
    | _ :: _ :: _ => .error (.ambiguous text)
    | [] => .ok (if isNegativeNumber cs || cs.contains ' ' then .plain else .unknown)

def classify (specs : List (OptionSpec κ)) (text : String) : Except Refusal (Token κ) :=
  match text.toList with
  | '-' :: _ :: _ =>
    match spelled specs text with
    | some spec => .ok (.option spec none)
    | none => classifyOther specs text
  | _ => .ok .plain

def tokens (specs : List (OptionSpec κ)) : List String → Except Refusal (List (Token κ × String))
  | [] => .ok []
  | text :: rest =>
    if text = "--" then .ok ((.separator, text) :: rest.map fun t => (.plain, t))
    else do
      let token ← classify specs text
      let others ← tokens specs rest
      pure ((token, text) :: others)

structure Collected (κ : Type) where
  /-- The argument that is no option, once its place is taken. The place may stay empty. -/
  input : Option (Option String) := none
  /-- The options in order, with their values. Two dashes attached to an option are no value. -/
  given : List (κ × Option String) := []
  /-- An argument for which there is no place. -/
  extra : Option String := none
  /-- Whether an option has ended the command line. -/
  ended : Bool := false

def Collected.give (c : Collected κ) (key : κ) (value : Option String) : Collected κ :=
  { c with given := c.given ++ [(key, value.filter (· != "--"))] }

def Collected.leave (c : Collected κ) (text : String) : Collected κ :=
  { c with extra := c.extra.or (some text) }

/-- Sorts arguments from the left. The argument that is no option takes a separator next to it
along. -/
def collect (c : Collected κ) : List (Token κ × String) → Except Refusal (Collected κ)
  | [] => .ok c
  | (.unknown, text) :: rest => collect (c.leave text) rest
  | (.option spec (some value), text) :: rest =>
    if spec.takesValue then collect (c.give spec.key (some value)) rest
    else .error (.unexpectedValue text)
  | (.option spec none, _) :: next@((.plain, value) :: rest) =>
    if spec.takesValue then collect { c with given := c.given ++ [(spec.key, some value)] } rest
    else if spec.ends then .ok { c.give spec.key none with ended := true }
    else collect (c.give spec.key none) next
  | (.option spec none, text) :: rest =>
    if spec.takesValue then .error (.missingValue text)
    else if spec.ends then .ok { c.give spec.key none with ended := true }
    else collect (c.give spec.key none) rest
  | (.separator, text) :: next@((.plain, value) :: rest) =>
    if c.input.isSome then collect (c.leave text) next
    else collect { c with input := some (some value) } rest
  | (.separator, text) :: rest =>
    if c.input.isSome then collect (c.leave text) rest
    else collect { c with input := some none } rest
  | (.plain, text) :: next@((.separator, _) :: rest) =>
    if c.input.isSome then collect (c.leave text) next
    else collect { c with input := some (some text) } rest
  | (.plain, text) :: rest =>
    if c.input.isSome then collect (c.leave text) rest
    else collect { c with input := some (some text) } rest

/-- The arguments of a command, sorted. Every one of them must have a place, unless an option has
ended the command line. -/
def Collected.ofArguments (specs : List (OptionSpec κ)) (args : List String) :
    Except Refusal (Collected κ) := do
  let c ← collect {} (← tokens specs args)
  match c.extra with
  | none => pure c
  | some text => if c.ended then pure c else .error (.unrecognized text)

def Collected.value? [BEq κ] (c : Collected κ) (key : κ) : Option (Option String) :=
  c.given.reverse.lookup key

end MetricCapture.Command
