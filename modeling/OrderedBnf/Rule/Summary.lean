import OrderedBnf.Rule.Basic

/-! One-line summaries of nodes. -/
namespace OrderedBnf

def summary (kind : Kind) (name : Option String) (range : Option (Int × Int))
    (covered : Option Text) : String :=
  let label := match name with
    | none => kind.label
    | some name => kind.label ++ " " ++ name
  let (start, stop) := match range with
    | none => ("None", "None")
    | some (start, stop) => (toString start, toString stop)
  let words := match covered with
    | none => "None"
    | some text => Text.quotedString (text.take 40)
  "<" ++ label ++ " [" ++ start ++ ":" ++ stop ++ "] " ++ words ++ ">"

def Rule.summary (rule : Rule) : String :=
  OrderedBnf.summary rule.kind rule.name? (some (rule.start, rule.stop)) (some rule.writtenAs)

end OrderedBnf
