import MetricCapture.Report.Basic
/-! Reports as plain text. -/
namespace MetricCapture.Report
open MetricCapture.Number

def figureText : Option Float → String
  | none => "n/a"
  | some x =>
    if isIntegral x then toString (truncate x)
    else String.ofList (((fixedText 4 x).reverse.dropWhile (· == '0')).dropWhile (· == '.')).reverse

def row (width : Nat) (entry : String × Nat) : String :=
  let pad := String.ofList (List.replicate (width - entry.1.length) ' ')
  "  " ++ entry.1 ++ pad ++ " " ++ toString entry.2

def attributeLines (entry : Attribute × Option Summary) : List String :=
  ["", entry.1.title ++ ":"] ++
    match entry.2 with
    | none => ["  n/a"]
    | some s =>
      ["  count=" ++ toString s.count ++ " min=" ++ figureText s.least ++ " max=" ++
          figureText s.greatest ++ " mean=" ++ figureText s.mean,
        "  " ++ " ".intercalate (s.quantiles.map fun f => f.1 ++ "=" ++ figureText f.2)]

def lines (r : Report) : List String :=
  (if r.aborted then
      ["PARTIAL REPORT (stream aborted: " ++ r.cause.getD "None" ++ ")", ""]
    else []) ++
    ["Total messages: " ++ toString r.total, "Valid messages: " ++ toString r.valid,
      "Failed messages: " ++ toString r.failed, "", "Messages by type:"] ++
    r.byKind.map (row 14) ++ [""] ++
    (if r.failed = 0 then []
      else "Failures by reason:" :: (r.byReason.filter (·.2 != 0)).map (row 22) ++ [""]) ++
    ["Multi-value messages: " ++ toString r.multivalue,
      "Sampled messages: " ++ toString r.sampled,
      "Fractional values: " ++ toString r.fractional,
      "Unique tags: " ++ toString r.tags, "Contexts: " ++ toString r.contexts] ++
    r.attributes.flatMap attributeLines

def text (r : Report) : String :=
  String.join (r.lines.map (· ++ "\n"))

end MetricCapture.Report
