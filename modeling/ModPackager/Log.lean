import ModPackager.Text.Quoted

/-!
# Log lines

A run notes what happens as events of a level, with a message and named values. A filter says, by the
part of the program that an event comes from, which levels are shown.
-/

namespace ModPackager.Log

/-- How much an event matters. -/
inductive Level
  | error
  | warn
  | info
  | debug
  | trace
deriving DecidableEq, Repr

/-- The number of a level; more detail means a larger number. -/
def Level.rank : Level → Nat
  | .error => 1
  | .warn => 2
  | .info => 3
  | .debug => 4
  | .trace => 5

/-- The name of a level, padded. -/
def Level.label : Level → String
  | .error => "ERROR"
  | .warn => " WARN"
  | .info => " INFO"
  | .debug => "DEBUG"
  | .trace => "TRACE"

/-- The code of a level's colour. -/
def Level.colour : Level → String
  | .error => "31"
  | .warn => "33"
  | .info => "32"
  | .debug => "34"
  | .trace => "35"

/-- Something that happened. -/
structure Event where
  /-- The part of the program that it comes from. -/
  source : String
  level : Level
  message : String
  /-- Named values as they are shown. -/
  fields : List (String × String)
deriving DecidableEq, Repr

/-- A list of texts as a value. -/
def listText (items : List String) : String :=
  "[" ++ ", ".intercalate (items.map Text.quoted) ++ "]"

/-! ### Showing -/

/-- Text between the escapes of a style. -/
def styled (coloured : Bool) (code text : String) : String :=
  if coloured then "\x1b[" ++ code ++ "m" ++ text ++ "\x1b[0m" else text

/-- The line of an event. -/
def Event.line (coloured : Bool) (event : Event) : String :=
  let fields := event.fields.map fun (name, value) =>
    " " ++ styled coloured "3" name ++ styled coloured "2" "=" ++ value
  styled coloured event.level.colour event.level.label ++ " " ++ event.message ++ "".intercalate fields
    ++ "\n"

/-! ### Filters -/

/-- A rule of a filter: the greatest rank shown of events whose source begins as given. -/
structure Rule where
  source : String
  greatest : Nat
deriving DecidableEq, Repr

/-- The words for levels, and for none. -/
def levelWords : List (String × Nat) :=
  [("off", 0), ("error", 1), ("warn", 2), ("info", 3), ("debug", 4), ("trace", 5), ("0", 0),
    ("1", 1), ("2", 2), ("3", 3), ("4", 4), ("5", 5)]

/-- The rank that a word stands for. -/
def rankOf? (word : String) : Option Nat := levelWords.lookup word.toLower

/-- Whether a text can name a part of a program. -/
def isSource (text : String) : Bool :=
  !text.isEmpty && text.all fun c => c.isAlphanum || c == '_' || c == ':' || c == '-'

/-- The rule that a text stands for. -/
def ruleOf? (text : String) : Option Rule :=
  match text.splitOn "=" with
  | [word] =>
    match rankOf? word with
    | some rank => some ⟨"", rank⟩
    | none => if isSource word then some ⟨word, 5⟩ else none
  | [source, word] =>
    if isSource source then (rankOf? word).map (Rule.mk source) else none
  | _ => none

/-- The rules of a filter. A text without rules shows errors only; one that is no filter is none. -/
def rules? (text : String) : Option (List Rule) :=
  match (text.splitOn ",").filter (!·.isEmpty) with
  | [] => some [⟨"", 1⟩]
  | parts => parts.mapM ruleOf?

/-- The rules of an environment: those of its variable, or the usual ones. -/
def rulesOf (text? : Option String) : List Rule :=
  (text?.bind rules?).getD [⟨"lovepack", 3⟩]

/-- Whether an event is shown: the rule with the longest beginning decides, of equal ones the last. -/
def shows (rules : List Rule) (event : Event) : Bool :=
  let fitting := rules.filter fun rule => rule.source.toList.isPrefixOf event.source.toList
  let longest := fitting.foldl (fun best rule =>
    match best with
    | none => some rule
    | some (other : Rule) =>
      if other.source.length ≤ rule.source.length then some rule else some other) none
  longest.any fun rule => event.level.rank ≤ rule.greatest

/-- The lines of the events that are shown. -/
def render (rules : List Rule) (coloured : Bool) (events : List Event) : String :=
  "".intercalate ((events.filter (shows rules)).map (Event.line coloured))

end ModPackager.Log
