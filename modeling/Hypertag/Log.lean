import Hypertag.Text.Blank
import Hypertag.Text.LowerCase

/-!
# The log

Lines with a level. Debug lines appear only when their flag, or the flag `all`, is switched on.
Timing lines belong to the flag `perf` and show a placeholder for the time, so that a log depends
on what was done and not on how long it took.
-/

namespace Hypertag

/-- The switched-on flags of a comma-separated list, each once. -/
def debugFlags (setting : Option Text) : List Text :=
  (((setting.getD []).split 0x2C).map fun flag => flag.trim.toLower).filter (!·.isEmpty)
    |>.foldl (fun seen flag => if flag ∈ seen then seen else seen ++ [flag]) []

def flagEnabled (flags : List Text) (flag : Text) : Bool :=
  decide (Text.ofString "all" ∈ flags) || decide (flag ∈ flags)

inductive Level where
  | log
  | info
  | warn
  | error
  deriving DecidableEq

def Level.name : Level → Text
  | log => "log"
  | info => "info"
  | warn => "warn"
  | error => "error"

structure LogLine where
  level : Level
  text : Text

/-- A silent log keeps no lines. -/
structure Log where
  flags : List Text
  silent : Bool
  lines : List LogLine

/-- A detail of a timing line: what it is called and its text. -/
abbrev Detail := Text × Text

namespace Detail

/-- The number that a key writes, when it writes one in the usual way. -/
def index? (key : Text) : Option Nat :=
  let cs := key.chars
  if cs.isEmpty || !cs.all Char.isDigit || (1 < cs.length && cs.head? = some '0') then none
  else
    let n := cs.foldl (fun n c => 10 * n + (c.toNat - '0'.toNat)) 0
    if n < 0xFFFFFFFF then some n else none

/-- Inserts a numbered detail before the first larger number. -/
def insertByIndex (n : Nat) (d : Detail) : List (Nat × Detail) → List (Nat × Detail)
  | [] => [(n, d)]
  | e :: es => if n < e.1 then (n, d) :: e :: es else e :: insertByIndex n d es

/-- Keys that are numbers come first, in numeric order; the others keep their order. -/
def arrange (details : List Detail) : List Detail :=
  let numbered := details.foldl
    (fun acc d => match index? d.1 with
      | some n => insertByIndex n d acc
      | none => acc) []
  numbered.map Prod.snd ++ details.filter fun d => (index? d.1).isNone

def render (details : List Detail) : Text :=
  " " ++ Text.joinWith " " ((arrange details).map fun d => d.1 ++ "=" ++ d.2)

end Detail

namespace Log

def new (flags : List Text) (silent : Bool) : Log := ⟨flags, silent, []⟩

def write (l : Log) (level : Level) (text : Text) : Log :=
  if l.silent then l else { l with lines := l.lines ++ [⟨level, text⟩] }

def enabled (l : Log) (flag : Text) : Bool := flagEnabled l.flags flag

def debug (l : Log) (flag message : Text) : Log :=
  if l.enabled flag then l.write .log ("[debug:" ++ flag ++ "] " ++ message) else l

/-- Reports that something labelled took its time. -/
def timing (l : Log) (label : Text) (details : Option (List Detail)) : Log :=
  if l.enabled "perf" then
    l.write .log ("[perf] " ++ label ++ " <t>ms" ++ details.elim [] Detail.render)
  else l

end Log

end Hypertag
