import ConstrainedDecoding.Ebnf.Grammar
import ConstrainedDecoding.Json.Printer
import ConstrainedDecoding.Regex.Fault
import ConstrainedDecoding.Text.Quoted

/-!
# Faults of schemas

Most faults name the place of the schema where they were found, as a path from its root or from
the target of the reference that led there.
-/
namespace ConstrainedDecoding.Schema

/-- What is wrong at one place of a schema. -/
inductive Cause
  | acceptsNothing
  | notSchema (found : Json.Value)
  | referenceNotString
  | enumNotArray
  | enumEmpty
  | noAlternatives (key : String)
  | severalAllOf
  | typeEntry
  | typeEmpty
  | typeValue (found : Json.Value)
  | unknownType (name : String)
  | patternNotString
  | lengthOrder
  | noInteger
  | noNumber
  | bound (key : String)
  | initialItemsNotArray
  | itemsOrder
  | fewerThanInitial
  | moreThanAllowed
  | propertiesNotObject
  | requiredEntry
  | requiredNotArray
  | additionalProperties (found : Json.Value)
  | propertiesOrder
  | requiredTooMany

def Cause.message : Cause → String
  | .acceptsNothing => "schema `false` accepts no value"
  | .notSchema found => "expected a schema object or boolean, found " ++ found.text
  | .referenceNotString => "$ref must be a string"
  | .enumNotArray => "enum must be an array"
  | .enumEmpty => "enum must not be empty"
  | .noAlternatives key => key ++ " must be a non-empty array"
  | .severalAllOf => "allOf is only supported with a single schema"
  | .typeEntry => "type entries must be strings"
  | .typeEmpty => "type array must not be empty"
  | .typeValue found => "unexpected type value " ++ found.text
  | .unknownType name => "unknown type " ++ Text.quoted name
  | .patternNotString => "pattern must be a string"
  | .lengthOrder => "minLength is greater than maxLength"
  | .noInteger => "no integer satisfies the minimum and maximum"
  | .noNumber => "no number satisfies the minimum and maximum"
  | .bound key => key ++ " must be a number within the i64 range"
  | .initialItemsNotArray => "prefixItems must be an array"
  | .itemsOrder => "minItems is greater than maxItems"
  | .fewerThanInitial => "maxItems is smaller than the number of prefixItems"
  | .moreThanAllowed => "minItems requires more items than the schema allows"
  | .propertiesNotObject => "properties must be an object"
  | .requiredEntry => "required entries must be strings"
  | .requiredNotArray => "required must be an array"
  | .additionalProperties found => "unexpected additionalProperties " ++ found.text
  | .propertiesOrder => "minProperties is greater than maxProperties"
  | .requiredTooMany => "more required properties than maxProperties allows"

/-- What keeps a schema from being converted. -/
inductive Fault
  | at_ (path : String) (cause : Cause)
  | referenceNotLocal (reference : String)
  | referenceUnresolved (reference : String)
  /-- References under indentation that lead to each other without end. -/
  | referencesEndless
  | pattern (text : String) (fault : Regex.Fault)
  | grammar (fault : Grammar.TextFault)

/-- The wording of a fault of a pattern. -/
def patternFaultMessage (text : String) (fault : Regex.Fault) : String :=
  "while converting regex " ++ Text.quoted text ++ ": " ++ fault.message

def Fault.message : Fault → String
  | .at_ path cause => path ++ ": " ++ cause.message
  | .referenceNotLocal r => "only local $ref targets are supported, found " ++ Text.quoted r
  | .referenceUnresolved r => "$ref " ++ Text.quoted r ++ " does not resolve"
  | .referencesEndless => "references nest without end"
  | .pattern text fault => patternFaultMessage text fault
  | .grammar fault => fault.message

end ConstrainedDecoding.Schema
