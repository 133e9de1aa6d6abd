/-!
# Faults of grammars

A grammar text may be malformed, which stops its reading, or it may have faults that are recorded
and reported by their number while the reading goes on.
-/

namespace LineGrammar

/-- A fault that is recorded while a grammar is read. -/
inductive GrammarFault where
  /-- The text is malformed. Nothing more is read. -/
  | malformed
  /-- A declared non-terminal has no rule. -/
  | ruleless
  /-- A rule mentions a symbol that was not declared. -/
  | undeclared
  /-- A terminal is a rule key, or the start symbol has no rule. -/
  | fixed
  deriving DecidableEq, Repr

namespace GrammarFault

def all : List GrammarFault := [malformed, ruleless, undeclared, fixed]

def number : GrammarFault → Nat
  | malformed => 0
  | ruleless => 1
  | undeclared => 2
  | fixed => 3

def isCritical : GrammarFault → Bool
  | malformed => true
  | _ => false

/-- Records a fault, once. -/
def record (fault : GrammarFault) (faults : List GrammarFault) : List GrammarFault :=
  if fault ∈ faults then faults else fault :: faults

def sorted (faults : List GrammarFault) : List GrammarFault :=
  all.filter (· ∈ faults)

/-- The recorded faults to report: where the text is malformed, only that. -/
def reported (faults : List GrammarFault) : List GrammarFault :=
  if malformed ∈ faults then [malformed] else sorted faults

def report (faults : List GrammarFault) : List String :=
  (reported faults).map fun fault => "P_ERROR CODE " ++ toString fault.number

end GrammarFault

/-- How a word fails to be grammar text. -/
inductive SyntaxFault where
  | separatorWithoutKey
  | missingSeparator (separator : String)
  | separatorInBody
  | lateDeclaration
  | ruleOutsideSection
  | symbolOutsideBody
  | endBeforeRules
  | endInsideRule
  | nothingDeclared
  deriving DecidableEq, Repr

def SyntaxFault.detail : SyntaxFault → String
  | separatorWithoutKey => "separator without a rule key"
  | missingSeparator separator => "expected '" ++ separator ++ "' after rule key"
  | separatorInBody => "separator inside a rule body"
  | lateDeclaration => "symbol declared after rules started"
  | ruleOutsideSection => "rule outside the rule section"
  | symbolOutsideBody => "symbol outside a rule body"
  | endBeforeRules => "grammar ended before the rule section"
  | endInsideRule => "grammar ended inside a rule"
  | nothingDeclared => "rules need declared terminals and non-terminals"

inductive GrammarError where
  /-- The word at this position does not fit; words are counted from one. -/
  | malformed (position : Nat) (fault : SyntaxFault)
  /-- The text was malformed before. -/
  | halted
  | unfinished
  deriving DecidableEq, Repr

def GrammarError.message : GrammarError → String
  | malformed position fault =>
    "Grammar syntax error at word " ++ toString position ++ ": " ++ fault.detail
  | halted => "Grammar ingestion stopped after a critical error"
  | unfinished => "Grammar is still being ingested"

end LineGrammar
