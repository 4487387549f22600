/-!
# The log

Messages have a level, and only those at or above a threshold are shown. The threshold is named by a
word in capitals or small letters; any other word, or none, leaves warnings and above.
-/

namespace Glyph.CommandLine

inductive Level where
  | debug
  | error
  deriving DecidableEq, Repr

def Level.rank : Level → Nat
  | .debug => 10
  | .error => 40

def thresholds : List (String × Nat) :=
  [("NOTSET", 0), ("DEBUG", 10), ("INFO", 20), ("WARNING", 30), ("WARN", 30), ("ERROR", 40),
    ("CRITICAL", 50), ("FATAL", 50)]

/-- A letter as a capital, as far as the capital is one of the English alphabet: besides the small
letters of that alphabet, the dotless i and the long s have such capitals. -/
def capital (c : Char) : Char :=
  if c = 'ı' then 'I' else if c = 'ſ' then 'S' else c.toUpper

def defaultThreshold : Nat := 30

def threshold (word : Option String) : Nat :=
  match word with
  | none => defaultThreshold
  | some w => (thresholds.lookup (String.ofList (w.toList.map capital))).getD defaultThreshold

structure LogRecord where
  level : Level
  message : String
  deriving DecidableEq, Repr

def logText (limit : Nat) (records : List LogRecord) : String :=
  String.join ((records.filter fun r => limit ≤ r.level.rank).map fun r => r.message ++ "\n")

end Glyph.CommandLine
