import ByteRope.Balance
import ByteRope.Bytes
import ByteRope.Text.Numeral

/-!
# Configuration

What the settings of a builder are, how they are read from texts, and what is wrong with a text
that cannot be read. A setting that is absent or unreadable keeps its default.
-/

namespace ByteRope

/-- What a builder does with a piece that is not balanced. -/
inductive Strategy where
  /-- Rebuild the piece as a balanced tree. -/
  | rebalance
  /-- Copy the piece, and all joins, into a leaf. -/
  | flatten
  /-- Leave it. -/
  | never
  deriving DecidableEq, Repr, Inhabited

namespace Strategy

/-- The strategies in the order in which tables list them. -/
def all : List Strategy := [rebalance, flatten, never]

/-- The name of a strategy. -/
def name : Strategy → String
  | rebalance => "rebalance"
  | flatten => "flatten"
  | never => "never"

/-- The strategy with exactly this name. -/
def ofName? (text : String) : Option Strategy :=
  all.find? (fun strategy => strategy.name == text)

/-- The words that stand for a strategy, in small letters. -/
def words : Strategy → List String
  | rebalance => ["rebalance", "balance", "rebuild"]
  | flatten => ["flatten", "flat"]
  | never => ["never", "off", "none"]

/-- Reads a word for a strategy; case and surrounding blanks do not matter. -/
def parse? (text : String) : Option Strategy :=
  all.find? (fun strategy => strategy.words.contains (Text.caseless text))

end Strategy

/-- The settings of a builder. Pieces of one encoding that come to at most `smallConcatBytes` bytes
together are merged into one leaf. -/
structure Config where
  balanceFactor : Nat := BalancePolicy.standard.factor
  smallConcatBytes : Nat := 0
  rebalance : Strategy := .rebalance
  deriving DecidableEq, Repr, Inhabited

/-- The names of the settings. -/
inductive Setting where
  | balanceFactor
  | smallConcatBytes
  | rebalance
  deriving DecidableEq, Repr

/-- The name of a setting in messages. -/
def Setting.name : Setting → String
  | balanceFactor => "balance_factor"
  | smallConcatBytes => "small_concat_bytes"
  | rebalance => "rebalance"

/-- What is wrong with the text or value of a setting. -/
inductive Complaint where
  | expectedPositive
  | expectedNumber
  | expectedStrategy
  | belowOne
  deriving DecidableEq, Repr

/-- The wording of a complaint. -/
def Complaint.message : Complaint → String
  | expectedPositive => "expected positive integer"
  | expectedNumber => "expected non-negative integer"
  | expectedStrategy => "expected rebalance|flatten|never"
  | belowOne => "must be at least 1"

/-- A setting whose value is not accepted, with the value as it was given. -/
structure Diagnostic where
  setting : Setting
  value : String
  complaint : Complaint
  deriving DecidableEq, Repr

/-- The text of a diagnostic. -/
def Diagnostic.message (diagnostic : Diagnostic) : String :=
  s!"{diagnostic.setting.name}={diagnostic.value} ({diagnostic.complaint.message})"

namespace Config

/-- The balance policy that the settings ask for. -/
def policy (config : Config) : BalancePolicy := ⟨config.balanceFactor⟩

/-- What is wrong with settings that were not read from texts. -/
def problems (config : Config) : List Diagnostic :=
  if config.balanceFactor = 0 then
    [⟨.balanceFactor, toString config.balanceFactor, .belowOne⟩]
  else
    []

/-- One line that tells the settings. -/
def summary (config : Config) : String :=
  let merge :=
    if config.smallConcatBytes = 0 then "merge off" else s!"merge <= {config.smallConcatBytes}B"
  s!"Rope: factor {config.balanceFactor} · {merge} · {config.rebalance.name}"

/-- The value of one setting: the default if it is absent, and the default with a diagnostic if its
text cannot be read. -/
def readField {α : Type} (setting : Setting) (complaint : Complaint) (standard : α)
    (read : String → Option α) : Option String → α × List Diagnostic
  | none => (standard, [])
  | some text =>
    match read text with
    | some value => (value, [])
    | none => (standard, [⟨setting, text, complaint⟩])

/-- Reads the settings, each from its text if there is one. -/
def read (text? : Setting → Option String) : Config × List Diagnostic :=
  let standard : Config := {}
  let (factor, noFactor) :=
    readField .balanceFactor .expectedPositive standard.balanceFactor
      (fun text => (Text.size? text).filter (fun value => decide (1 ≤ value)))
      (text? .balanceFactor)
  let (small, noSmall) :=
    readField .smallConcatBytes .expectedNumber standard.smallConcatBytes Text.size?
      (text? .smallConcatBytes)
  let (strategy, noStrategy) :=
    readField .rebalance .expectedStrategy standard.rebalance Strategy.parse? (text? .rebalance)
  let config : Config := ⟨factor, small, strategy⟩
  (config, noFactor ++ noSmall ++ noStrategy ++ config.problems)

/-- Reads the settings from octets. Octets that are not UTF-8 count as absent. -/
def readOctets (octets? : Setting → Option Bytes) : Config × List Diagnostic :=
  read fun setting => (octets? setting).bind Bytes.toText?

end Config

end ByteRope
