import RuleRegistry.Text.Blank
import RuleRegistry.Value.Compare

namespace RuleRegistry

abbrev Attributes := Entries Value

abbrev Tags := Entries (List Attributes)

structure Rule where
  expression : String
  tags : Tags := []
deriving Inhabited

inductive RuleError where
  | emptyExpression
deriving DecidableEq

def RuleError.message : RuleError → String
  | emptyExpression => "rule expression must not be empty"

namespace Tags

def add (tags : Tags) (tag : String) (attributes : Attributes) : Tags :=
  Entries.put tags tag ((Entries.find? tags tag).getD [] ++ [attributes])

def same (tags other : Tags) : Bool :=
  Entries.sameBy (fun xs ys => xs.length == ys.length &&
    (xs.zip ys).all fun p => Entries.sameBy Value.same p.1 p.2) tags other

end Tags

namespace Rule

def new (expression : String) : Except RuleError Rule :=
  if Text.isBlank expression then .error .emptyExpression else .ok ⟨expression, []⟩

/-- Replaces the expression, unless the new one is blank. -/
def setExpression (r : Rule) (expression : String) : Except RuleError Rule :=
  if Text.isBlank expression then .error .emptyExpression else .ok ⟨expression, r.tags⟩

def addTag (r : Rule) (tag : String) (attributes : Attributes) : Rule :=
  ⟨r.expression, Tags.add r.tags tag attributes⟩

def hasTag (r : Rule) (tag : String) : Bool := Entries.has r.tags tag

/-- The instances of a tag, none when the rule does not have it. -/
def tag (r : Rule) (tag : String) : List Attributes := (Entries.find? r.tags tag).getD []

def clearTag (r : Rule) (tag : String) : Rule := ⟨r.expression, Entries.erase r.tags tag⟩

def clearTags (r : Rule) : Rule := ⟨r.expression, []⟩

/-- Equality of expression and tags, whatever the order of tag names and attribute names. -/
def same (r other : Rule) : Bool :=
  r.expression == other.expression && Tags.same r.tags other.tags

end Rule

end RuleRegistry
