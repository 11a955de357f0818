import RuleRegistry.Path
import RuleRegistry.Rule

namespace RuleRegistry.Source

inductive Fault where
  | noMapping
  | ruleName
  | definition (rule : String)
  | unknownKeys (rule : String) (keys : List String)
  | resourceAndExpression (rule : String)
  | typeWithoutResource (rule : String)
  | noExpression (rule : String)
  | tags (rule : String)
  | notText (key rule : String)
  | attributeName (rule : String)
  | nestedKey (rule : String)
  | badRule (rule : String) (cause : RuleError)
  | noRoot
  | missingAttribute (element key : String)
  | unknownElement (element : String) (expected : List String)
deriving DecidableEq

def quoted (s : String) : String := "\"" ++ s ++ "\""

def definitionKeys : List String := ["resource", "type", "expression", "tags"]

namespace Fault

def message (path : Path) (fault : Fault) : String :=
  let file := quoted path.text
  match fault with
  | noMapping => "the file " ++ file ++ " must contain a YAML mapping"
  | ruleName => "rule names in " ++ file ++ " must be scalars"
  | definition rule =>
    "the definition of " ++ quoted rule ++ " in " ++ file ++ " must be a YAML mapping"
  | unknownKeys rule keys =>
    "the rules file " ++ file ++ " contains unsupported keys for " ++ quoted rule ++ ": \"" ++
      "\", \"".intercalate keys ++ "\"; expected one of: \"" ++
      "\", \"".intercalate definitionKeys ++ "\""
  | resourceAndExpression rule =>
    "the rules file " ++ file ++ " must not specify both \"resource\" and \"expression\" for " ++
      quoted rule ++ "; choose between an import and a rule definition"
  | typeWithoutResource rule =>
    "the \"type\" key for " ++ quoted rule ++ " in " ++ file ++
      " is only available for imports in combination with \"resource\""
  | noExpression rule =>
    "you must define an \"expression\" for the rule " ++ quoted rule ++ " in " ++ file
  | tags rule =>
    "the \"tags\" key for " ++ quoted rule ++ " in " ++ file ++
      " must be a list of mappings, each with at least a \"name\""
  | notText key rule =>
    "the " ++ quoted key ++ " key for " ++ quoted rule ++ " in " ++ file ++ " must be a string"
  | attributeName rule =>
    "tag attribute names for " ++ quoted rule ++ " in " ++ file ++ " must be scalars"
  | nestedKey rule => "nested keys for " ++ quoted rule ++ " in " ++ file ++ " must be scalars"
  | badRule rule cause => "invalid rule " ++ quoted rule ++ " in " ++ file ++ ": " ++ cause.message
  | noRoot => "the file " ++ file ++ " has no root element"
  | missingAttribute element key =>
    "the <" ++ element ++ "> element in " ++ file ++ " must have an " ++ quoted key ++
      " attribute"
  | unknownElement element expected =>
    "unknown element " ++ quoted element ++ " in " ++ file ++ "; expected " ++
      " or ".intercalate (expected.map quoted)

end Fault

inductive Format where
  | yaml
  | xml
deriving DecidableEq

inductive Error where
  | notFound (resource : String) (searched : List Path)
  | unreadable (path : Path)
  | malformed (path : Path) (format : Format)
  | invalid (path : Path) (fault : Fault)
  | unsupported (resource : String) (kind : Option String)
  /-- Each file of the chain imports the next one, and the last one is there already. -/
  | circular (chain : List Path)
deriving DecidableEq

namespace Error

def chainText (paths : List Path) : String := " > ".intercalate (paths.map Path.text)

def message : Error → String
  | notFound resource searched =>
    "file " ++ quoted resource ++ " not found (searched: " ++ chainText searched ++ ")"
  | unreadable path => "failed to read " ++ quoted path.text
  | malformed path .yaml => "the file " ++ quoted path.text ++ " is not valid YAML"
  | malformed path .xml => "the file " ++ quoted path.text ++ " is not valid XML"
  | invalid path fault => fault.message path
  | unsupported resource kind =>
    "no loader supports the resource " ++ quoted resource ++
      ((kind.map fun k => " of type " ++ quoted k).getD "")
  | circular chain => "circular import detected: " ++ chainText chain

end Error

end RuleRegistry.Source
